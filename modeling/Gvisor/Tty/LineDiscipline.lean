import Gvisor.Tty.Termios
import Gvisor.Lib.Utf8
import Gvisor.Syserror

/-! The input queue of a pty (pkg/sentry/fs/tty/queue.go and the input half of
line_discipline.go). Bytes the master writes go to the wait buffer, a list of
chunks, and from there through `transform` into the read buffer, which the
slave reads when `readable` is set. In canonical mode `transform` stops at the
end of a line and moves nothing while a line is waiting to be read. The
destination and source of a copy are the bytes of a `usermem.IOSequence`, all
of them mapped, that its reader or writer function gets in one call; a copy of
no bytes calls neither. The echo of input to the output queue and the waiter
notifications are not modelled. -/

namespace Tty

open Syserror KernelTermios

/-- `waitBufMaxBytes`. -/
def waitBufMaxBytes : ℕ := 131072

/-- `canonMaxBytes`. -/
def canonMaxBytes : ℕ := 4096

/-- `nonCanonMaxBytes`. -/
def nonCanonMaxBytes : ℕ := canonMaxBytes - 1

/-- A `queue`. -/
structure Queue where
  readBuf : List UInt8
  waitBuf : List (List UInt8)
  waitBufLen : ℕ
  readable : Bool
  deriving DecidableEq, Repr

/-- The queue of a new pty. -/
def Queue.empty : Queue := ⟨[], [], 0, false⟩

/-- `peek`: the size of the next character. -/
def peek (t : KernelTermios) (b : List UInt8) : ℕ :=
  if t.iEnabled iutf8 then Utf8.decodeRuneSize b else 1

/-- A character is at least one byte and at most the bytes there are. -/
theorem peek_cons_bounds (t : KernelTermios) (c : UInt8) (rest : List UInt8) :
    1 ≤ peek t (c :: rest) ∧ peek t (c :: rest) ≤ rest.length + 1 := by
  unfold peek
  split
  · exact Utf8.decodeRuneSize_cons_bounds c rest
  · simp

/-- A single byte is one character, with `IUTF8` or without. -/
theorem peek_singleton {t : KernelTermios} (c : UInt8) : peek t [c] = 1 := by
  unfold peek
  split_ifs <;> simp

/-- The `switch` of `transform` on the first byte of a character: the byte it
becomes, or `none` where `IGNCR` drops a carriage return. -/
def inputChar (t : KernelTermios) (c : UInt8) : Option UInt8 :=
  if c = 13 then
    if t.iEnabled igncr then none
    else if t.iEnabled icrnl then some 10 else some 13
  else if c = 10 then
    if t.iEnabled inlcr then some 13 else some 10
  else some c

/-- `shouldDiscard`. -/
def shouldDiscard (t : KernelTermios) (q : Queue) (cBytes : List UInt8) : Bool :=
  t.lEnabled icanon && decide (q.readBuf.length + cBytes.length ≥ canonMaxBytes) && !t.isTerminating cBytes

/-- The loop of `transform`, with `ret` the bytes of `buf` consumed so far.
Every turn consumes at least one byte, so `fuel = buf.length` is never the
reason it stops. -/
def transformLoop (t : KernelTermios) (maxBytes : ℕ) : ℕ → List UInt8 → ℕ → Queue → ℕ × Queue
  | 0, _, ret, q => (ret, q)
  | _ + 1, [], ret, q => (ret, q)
  | fuel + 1, c :: rest, ret, q =>
    if q.readBuf.length < canonMaxBytes then
      let size := peek t (c :: rest)
      match inputChar t c with
      | none => transformLoop t maxBytes fuel ((c :: rest).drop size) (ret + size) q
      | some c' =>
        -- `cBytes`, the character with its first byte replaced
        let cBytes := c' :: rest.take (size - 1)
        if shouldDiscard t q cBytes then transformLoop t maxBytes fuel ((c :: rest).drop size) (ret + size) q
        else if q.readBuf.length + size > maxBytes then (ret, q)
        else if t.lEnabled icanon && t.isEOF c' then (ret + size, { q with readable := true })
        else
          let q := { q with readBuf := q.readBuf ++ cBytes }
          if t.lEnabled icanon && t.isTerminating cBytes then (ret + size, { q with readable := true })
          else transformLoop t maxBytes fuel ((c :: rest).drop size) (ret + size) q
    else (ret, q)

/-- `inputQueueTransformer.transform`: the bytes of `buf` it consumed, and the
queue with what they added to the read buffer. -/
def transform (t : KernelTermios) (q : Queue) (buf : List UInt8) : ℕ × Queue :=
  if t.lEnabled icanon && q.readable then (0, q)
  else
    let maxBytes := if t.lEnabled icanon then canonMaxBytes else nonCanonMaxBytes
    let r := transformLoop t maxBytes buf.length buf 0 q
    -- in noncanonical mode everything is readable
    (r.1, if !t.lEnabled icanon && decide (r.2.readBuf.length > 0) then { r.2 with readable := true } else r.2)

/-- The loop of `pushWaitBufLocked` over the chunks of the wait buffer: the
bytes moved, and the chunks left, the first of them cut where the read buffer
stopped taking bytes. -/
def pushLoop (t : KernelTermios) : List (List UInt8) → ℕ → Queue → ℕ × List (List UInt8) × Queue
  | [], total, q => (total, [], q)
  | b :: rest, total, q =>
    let r := transform t q b
    if r.1 ≠ b.length then (total + r.1, b.drop r.1 :: rest, r.2)
    else pushLoop t rest (total + r.1) r.2

/-- `pushWaitBufLocked`. -/
def pushWaitBufLocked (t : KernelTermios) (q : Queue) : ℕ × Queue :=
  if q.waitBufLen = 0 then (0, q)
  else
    let r := pushLoop t q.waitBuf 0 q
    (r.1, { r.2.2 with waitBuf := r.2.1, waitBufLen := q.waitBufLen - r.1 })

/-- `waitBufAppend`. -/
def waitBufAppend (q : Queue) (b : List UInt8) : Queue :=
  { q with waitBuf := q.waitBuf ++ [b], waitBufLen := q.waitBufLen + b.length }

/-- The reader function of `read`: the bytes copied to `count` bytes of
destination, and the queue, not readable once its read buffer is empty. -/
def readToBlocks (q : Queue) (count : ℕ) : List UInt8 × Queue :=
  (q.readBuf.take count,
    { q with readBuf := q.readBuf.drop count, readable := if q.readBuf.drop count = [] then false else q.readable })

/-- `queue.read` to a destination of `count` bytes: the bytes read and whether
bytes moved from the wait buffer to the read buffer. -/
def read (t : KernelTermios) (q : Queue) (count : ℕ) : Except Errno (List UInt8 × Bool) × Queue :=
  if !q.readable then (.error .errWouldBlock, q)
  else
    let count := min count canonMaxBytes
    let r := if count = 0 then ([], q) else readToBlocks q count
    let p := pushWaitBufLocked t r.2
    (.ok (r.1, decide (p.1 > 0)), p.2)

/-- `queue.write` from the bytes `src`: how many the wait buffer took. -/
def write (t : KernelTermios) (q : Queue) (src : List UInt8) : Except Errno ℕ × Queue :=
  if src = [] then (.ok 0, (pushWaitBufLocked t q).2)
  else
    let room := waitBufMaxBytes - q.waitBufLen
    if room = 0 then (.error .errWouldBlock, q)
    else
      let buf := src.take room
      (.ok buf.length, (pushWaitBufLocked t (waitBufAppend q buf)).2)

/-- `lineDiscipline.inputQueueRead`: a read that copies nothing would block. -/
def inputQueueRead (t : KernelTermios) (q : Queue) (count : ℕ) : Except Errno (List UInt8) × Queue :=
  match read t q count with
  | (.error e, q) => (.error e, q)
  | (.ok (data, _), q) => if data.length > 0 then (.ok data, q) else (.error .errWouldBlock, q)

/-- `lineDiscipline.inputQueueWrite`. -/
def inputQueueWrite (t : KernelTermios) (q : Queue) (src : List UInt8) : Except Errno ℕ × Queue :=
  match write t q src with
  | (.error e, q) => (.error e, q)
  | (.ok n, q) => if n > 0 then (.ok n, q) else (.error .errWouldBlock, q)

/-- `readReadiness`: whether the slave reports `EventIn`. -/
def readReadiness (q : Queue) : Bool := decide (q.readBuf.length > 0) && q.readable

/-- `readableSize`, the answer to `FIONREAD`. -/
def readableSize (q : Queue) : ℕ := if q.readable then q.readBuf.length else 0

end Tty
