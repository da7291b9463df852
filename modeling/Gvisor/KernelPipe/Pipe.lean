import Mathlib
import Gvisor.Lib.Outcome
import Gvisor.Syserror

/-! The pipe of the sentry (pkg/sentry/kernel/pipe/pipe.go, buffer.go): a
queue of fixed buffers of 8144 bytes, written at the back and read at the
front, with `size` the number of bytes queued and `max` its bound. A buffer is
the part of `data` written so far and its read index. `Read` and `Write` copy
between the buffers and a `usermem.IOSequence` of the task's memory; a
sequence is its bytes and how many of them are mapped, and as in the
`MemoryManager`'s vectored path, a copy from or to a sequence with a byte that
is not mapped copies what it can and fails with `EFAULT`. The reader and
writer counts, `int32`s, are integers here. `dup`, whose copies go to an
`io.Writer` of another file, and the waiter queue are not modelled. -/

namespace KernelPipe

open Syserror

/-- `len(buffer.data)`. -/
def bufferSize : ℕ := 8144

/-- A `buffer`: the bytes written to `data`, `data[:write]`, and the index
`read` of the first one not read yet. -/
structure Buffer where
  data : List UInt8
  read : ℕ
  read_le : read ≤ data.length
  length_le : data.length ≤ bufferSize
  deriving DecidableEq, Repr

namespace Buffer

def write (b : Buffer) : ℕ := b.data.length

/-- `Empty`: nothing is left to read. -/
def empty (b : Buffer) : Bool := b.read == b.write

/-- `Full`: nothing more can be written. -/
def full (b : Buffer) : Bool := b.write == bufferSize

/-- The bytes not read yet, `data[read:write]`. -/
def unread (b : Buffer) : List UInt8 := b.data.drop b.read

/-- `WriteFromBlocks`: as much of `srcs` as `data[write:]` has room for. -/
def writeFromBlocks (b : Buffer) (srcs : List UInt8) : Buffer where
  data := b.data ++ srcs.take (bufferSize - b.write)
  read := b.read
  read_le := by
    have := b.read_le
    simp only [List.length_append]
    omega
  length_le := by
    have := b.length_le
    simp only [List.length_append, List.length_take, write]
    omega

/-- `ReadToBlocks` into `count` bytes: the bytes copied and the buffer after. -/
def readToBlocks (b : Buffer) (count : ℕ) : List UInt8 × Buffer :=
  (b.unread.take count,
    { b with
      read := b.read + min count (b.write - b.read)
      read_le := by
        have := b.read_le
        simp only [write]
        omega })

@[simp] theorem write_writeFromBlocks (b : Buffer) (srcs : List UInt8) :
    (b.writeFromBlocks srcs).write = b.write + min srcs.length (bufferSize - b.write) := by
  simp only [writeFromBlocks, write, List.length_append, List.length_take]
  omega

@[simp] theorem read_writeFromBlocks (b : Buffer) (srcs : List UInt8) :
    (b.writeFromBlocks srcs).read = b.read := rfl

theorem unread_writeFromBlocks (b : Buffer) (srcs : List UInt8) :
    (b.writeFromBlocks srcs).unread = b.unread ++ srcs.take (bufferSize - b.write) := by
  simp only [unread, writeFromBlocks]
  exact List.drop_append_of_le_length b.read_le

@[simp] theorem write_readToBlocks (b : Buffer) (count : ℕ) : (b.readToBlocks count).2.write = b.write := rfl

@[simp] theorem read_readToBlocks (b : Buffer) (count : ℕ) :
    (b.readToBlocks count).2.read = b.read + min count (b.write - b.read) := rfl

theorem read_le_write (b : Buffer) : b.read ≤ b.write := b.read_le

theorem write_le (b : Buffer) : b.write ≤ bufferSize := b.length_le

theorem length_unread (b : Buffer) : b.unread.length = b.write - b.read := by
  simp [unread, write]

@[simp] theorem fst_readToBlocks (b : Buffer) (count : ℕ) : (b.readToBlocks count).1 = b.unread.take count :=
  rfl

/-- `ReadToBlocks` leaves what it did not copy. -/
theorem unread_readToBlocks (b : Buffer) (count : ℕ) :
    (b.readToBlocks count).2.unread = b.unread.drop count := by
  show b.data.drop (b.read + min count (b.write - b.read)) = (b.data.drop b.read).drop count
  rw [List.drop_drop]
  by_cases h : count ≤ b.write - b.read
  · rw [Nat.min_eq_left h]
  · have hw := b.read_le_write
    rw [Nat.min_eq_right (by omega), List.drop_eq_nil_of_le (show b.data.length ≤ b.read + (b.write - b.read) by
      simp only [write] at *; omega), List.drop_eq_nil_of_le (show b.data.length ≤ b.read + count by
      simp only [write] at *; omega)]

theorem empty_eq_true {b : Buffer} : b.empty = true ↔ b.read = b.write := by
  simp [empty]

theorem full_eq_true {b : Buffer} : b.full = true ↔ b.write = bufferSize := by
  simp [full]


end Buffer

/-- `newBuffer`, after its `Reset`. -/
def newBuffer : Buffer := ⟨[], 0, Nat.le_refl 0, Nat.zero_le _⟩

/-- A `usermem.IOSequence`: the bytes of the task's memory it covers, of
which the first `mapped` are mapped. -/
structure IOSequence where
  bytes : List UInt8
  mapped : ℕ
  deriving DecidableEq, Repr

namespace IOSequence

def numBytes (s : IOSequence) : ℕ := s.bytes.length

def takeFirst (s : IOSequence) (n : ℕ) : IOSequence := { s with bytes := s.bytes.take n }

def dropFirst (s : IOSequence) (n : ℕ) : IOSequence := ⟨s.bytes.drop n, s.mapped - n⟩

/-- The error of a copy: the mappings of the whole sequence are looked up
first, and one that is missing is `EFAULT`. -/
def fault (s : IOSequence) : Option Errno := if s.mapped < s.numBytes then some .EFAULT else none

/-- `CopyInTo` a buffer: the mapped bytes, as many as the buffer takes. -/
def copyInTo (s : IOSequence) (b : Buffer) : (ℕ × Option Errno) × Buffer :=
  let b' := b.writeFromBlocks (s.bytes.take s.mapped)
  ((b'.write - b.write, s.fault), b')

/-- `CopyOutFrom` a buffer: the bytes copied to the mapped part of the
sequence, and the buffer after. -/
def copyOutFrom (s : IOSequence) (b : Buffer) : (ℕ × Option Errno) × List UInt8 × Buffer :=
  let (out, b') := b.readToBlocks (min s.numBytes s.mapped)
  ((out.length, s.fault), out, b')

@[simp] theorem numBytes_takeFirst (s : IOSequence) (n : ℕ) :
    (s.takeFirst n).numBytes = min n s.numBytes := by
  simp [takeFirst, numBytes]

@[simp] theorem numBytes_dropFirst (s : IOSequence) (n : ℕ) :
    (s.dropFirst n).numBytes = s.numBytes - n := by
  simp [dropFirst, numBytes]

theorem fault_eq_none {s : IOSequence} : s.fault = none ↔ s.numBytes ≤ s.mapped := by
  unfold fault
  split_ifs with h <;> simp <;> omega

@[simp] theorem err_copyInTo (s : IOSequence) (b : Buffer) : (s.copyInTo b).1.2 = s.fault := rfl

@[simp] theorem read_copyInTo (s : IOSequence) (b : Buffer) : (s.copyInTo b).2.read = b.read := rfl

/-- `CopyInTo` copies the mapped bytes, as many as the buffer has room for. -/
theorem count_copyInTo (s : IOSequence) (b : Buffer) :
    (s.copyInTo b).1.1 = min (min s.mapped s.numBytes) (bufferSize - b.write) := by
  simp only [copyInTo, Buffer.write_writeFromBlocks, List.length_take, numBytes]
  omega

theorem write_copyInTo (s : IOSequence) (b : Buffer) :
    (s.copyInTo b).2.write = b.write + (s.copyInTo b).1.1 := by
  rw [count_copyInTo]
  simp only [copyInTo, Buffer.write_writeFromBlocks, List.length_take, numBytes]

theorem unread_copyInTo (s : IOSequence) (b : Buffer) :
    (s.copyInTo b).2.unread = b.unread ++ s.bytes.take (s.copyInTo b).1.1 := by
  rw [count_copyInTo]
  simp only [copyInTo, Buffer.unread_writeFromBlocks, List.take_take]
  -- both take every mapped byte there is room for
  congr 1
  exact List.take_eq_take_iff.2 (by simp only [numBytes]; omega)

/-- A copy from a sequence whose first byte is not mapped copies nothing. -/
theorem copyInTo_newBuffer {s : IOSequence} (h : s.mapped = 0) : s.copyInTo newBuffer = ((0, s.fault), newBuffer) := by
  unfold copyInTo
  rw [h]
  rfl

@[simp] theorem bytes_copyOutFrom (s : IOSequence) (b : Buffer) :
    (s.copyOutFrom b).2.1 = b.unread.take (min s.numBytes s.mapped) := rfl

@[simp] theorem err_copyOutFrom (s : IOSequence) (b : Buffer) : (s.copyOutFrom b).1.2 = s.fault := rfl

theorem count_copyOutFrom (s : IOSequence) (b : Buffer) :
    (s.copyOutFrom b).1.1 = (s.copyOutFrom b).2.1.length := rfl

theorem unread_copyOutFrom (s : IOSequence) (b : Buffer) :
    (s.copyOutFrom b).2.2.unread = b.unread.drop (min s.numBytes s.mapped) :=
  Buffer.unread_readToBlocks b _

@[simp] theorem write_copyOutFrom (s : IOSequence) (b : Buffer) :
    (s.copyOutFrom b).2.2.write = b.write := rfl

@[simp] theorem read_copyOutFrom (s : IOSequence) (b : Buffer) :
    (s.copyOutFrom b).2.2.read = b.read + min (min s.numBytes s.mapped) (b.write - b.read) := rfl

end IOSequence

/-- The fields of `Pipe` that `Read`, `Write` and the readiness read. -/
structure Pipe where
  isNamed : Bool
  atomicIOBytes : Int
  readers : Int
  writers : Int
  data : List Buffer
  max : Int
  size : Int
  hadWriter : Bool
  deriving DecidableEq, Repr

/-- `MinimumPipeSize`, `64 << 10`. -/
def minimumPipeSize : Int := 64 * 2 ^ 10

/-- `MaximumPipeSize`, `8 << 20`. -/
def maximumPipeSize : Int := 8 * 2 ^ 20

/-- `NewPipe`, with the size and the atomic write size bounded. -/
def newPipe (isNamed : Bool) (sizeBytes atomicIOBytes : Int) : Pipe :=
  let sizeBytes := if sizeBytes < minimumPipeSize then minimumPipeSize else sizeBytes
  let sizeBytes := if sizeBytes > maximumPipeSize then maximumPipeSize else sizeBytes
  let atomicIOBytes := if atomicIOBytes ≤ 0 then 1 else atomicIOBytes
  let atomicIOBytes := if atomicIOBytes > sizeBytes then sizeBytes else atomicIOBytes
  { isNamed, atomicIOBytes, readers := 0, writers := 0, data := [], max := sizeBytes, size := 0,
    hadWriter := false }

namespace Pipe

def hasReaders (p : Pipe) : Bool := p.readers > 0

def hasWriters (p : Pipe) : Bool := p.writers > 0

def rOpen (p : Pipe) : Pipe := { p with readers := p.readers + 1 }

def wOpen (p : Pipe) : Pipe := { p with hadWriter := true, writers := p.writers + 1 }

/-- `rClose`: a panic where the count goes below zero. -/
def rClose (p : Pipe) : Outcome Unit Pipe :=
  let newReaders := p.readers - 1
  if newReaders < 0 then .panic else .ok { p with readers := newReaders }

def wClose (p : Pipe) : Outcome Unit Pipe :=
  let newWriters := p.writers - 1
  if newWriters < 0 then .panic else .ok { p with writers := newWriters }

/-- `p.data.Back()` for a write: the buffers before it and the buffer the next
copy goes to, a new one pushed back where there is none or it is full. -/
def back (data : List Buffer) : List Buffer × Buffer :=
  match data.getLast? with
  | some last => if last.full then (data, newBuffer) else (data.dropLast, last)
  | none => ([], newBuffer)

/-- The loop of `write`, on the sequence after its `limit`. Each turn that
goes on copies at least a byte, so a turn for each byte is all it takes. -/
def writeLoop : ℕ → Pipe → IOSequence → ℕ → (ℕ × Option Errno) × Pipe
  | 0, p, _, done => ((done, none), p)
  | fuel + 1, p, src, done =>
    if 0 < src.numBytes then
      let (front, last) := back p.data
      let ((n, err), last) := src.copyInTo last
      let p := { p with data := front ++ [last], size := p.size + n }
      match err with
      | some e => ((done + n, some e), p)
      | none => writeLoop fuel p (src.dropFirst n) (done + n)
    else ((done, none), p)

/-- The end of `write`, from its loop on: a write cut short by `limit` is
`ErrWouldBlock`. -/
def writeRest (p : Pipe) (wanted : ℕ) (src : IOSequence) : (ℕ × Option Errno) × Pipe :=
  match writeLoop src.numBytes p src 0 with
  | ((done, some e), p) => ((done, some e), p)
  | ((done, none), p) => if wanted > done then ((done, some .errWouldBlock), p) else ((done, none), p)

/-- `write`: the bytes written and the error. A write of at most
`atomicIOBytes` that does not fit is refused whole; a larger one is cut to
what fits. -/
def write (p : Pipe) (src : IOSequence) : (ℕ × Option Errno) × Pipe :=
  if !p.hasReaders then ((0, some .EPIPE), p)
  else
    let wanted := src.numBytes
    let avail := p.max - p.size
    if (wanted : Int) > avail then
      if (wanted : Int) ≤ p.atomicIOBytes then ((0, some .errWouldBlock), p)
      else p.writeRest wanted (src.takeFirst avail.toNat)
    else p.writeRest wanted src

/-- The loop of `read`, on the sequence after its `limit`: the bytes read, the
error, and the bytes copied out. A buffer it empties is taken off the queue. -/
def readLoop : ℕ → Pipe → IOSequence → ℕ → List UInt8 → (ℕ × Option Errno) × List UInt8 × Pipe
  | 0, p, _, done, out => ((done, none), out, p)
  | fuel + 1, p, dst, done, out =>
    if 0 < dst.numBytes then
      match p.data with
      | [] => ((done, none), out, p)
      | first :: rest =>
        let ((n, err), bytes, first) := dst.copyOutFrom first
        let p := { p with data := if first.empty then rest else first :: rest, size := p.size - n }
        match err with
        | some e => ((done + n, some e), out ++ bytes, p)
        | none => readLoop fuel p (dst.dropFirst n) (done + n) (out ++ bytes)
    else ((done, none), out, p)

/-- `read`: the bytes read, the error, and the bytes copied to `dst`. An empty
pipe is `ErrWouldBlock` while it has writers, and the end of the file after. -/
def read (p : Pipe) (dst : IOSequence) : (ℕ × Option Errno) × List UInt8 × Pipe :=
  if dst.numBytes = 0 then ((0, none), [], p)
  else if p.size = 0 then
    if !p.hasWriters then ((0, none), [], p) else ((0, some .errWouldBlock), [], p)
  else
    let dst := if (dst.numBytes : Int) > p.size then dst.takeFirst p.size.toNat else dst
    readLoop dst.numBytes p dst 0 []

end Pipe

/-- `waiter.EventIn`, `POLLIN`. -/
def eventIn : UInt64 := 0x01

/-- `waiter.EventOut`, `POLLOUT`. -/
def eventOut : UInt64 := 0x04

/-- `waiter.EventErr`, `POLLERR`. -/
def eventErr : UInt64 := 0x08

/-- `waiter.EventHUp`, `POLLHUP`. -/
def eventHUp : UInt64 := 0x10

namespace Pipe

/-- `rReadinessLocked`: readable while a buffer is queued. -/
def rReadiness (p : Pipe) : UInt64 :=
  let ready : UInt64 := if p.hasReaders && !p.data.isEmpty then 0 ||| eventIn else 0
  if !p.hasWriters && p.hadWriter then ready ||| eventHUp else ready

/-- `wReadinessLocked`. -/
def wReadiness (p : Pipe) : UInt64 :=
  let ready : UInt64 := if p.hasWriters && p.size < p.max then 0 ||| eventOut else 0
  if !p.hasReaders then ready ||| eventErr else ready

/-- `rwReadiness`. -/
def rwReadiness (p : Pipe) : UInt64 := p.rReadiness ||| p.wReadiness

end Pipe

end KernelPipe
