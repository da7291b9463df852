import Gvisor.Lib.Outcome
import Gvisor.Lib.Reachable
import Mathlib.Logic.Function.Basic

/-! The receive end of the shared-memory ring buffer of
pkg/tcpip/link/sharedmem/pipe. An index into the buffer carries an offset in
its low 32 bits and a revolution count in the high 32; a slot is a 64-bit
header (its payload size, and `slotFree` for a slot the other end may reuse)
followed by its payload, padded to a multiple of 8.

The buffer is shared with the peer, which may write any word at any time; it
is a length and the 64-bit word at each offset, as `readAtomic` loads it. Every
access checks its slice against the length and panics outside it. That is
stricter than Go: `data` reslices with `[:size]`, which Go checks against the
capacity, and `init` keeps the capacity of `b` when it cuts the length down to
a multiple of 8; the two agree where the buffer's capacity is its length. A
slice that `Pull` returns is its range in the buffer.
`Pull` calls itself on a wrapping slot; it is written with fuel, and running
out of fuel stands for a recursion that does not end. -/

namespace Sharedmem

def jump : UInt64 := 0x100000000
def offsetMask : UInt64 := 0xffffffff
def revolutionMask : UInt64 := ~~~offsetMask
def sizeOfSlotHeader : UInt64 := 8
def slotFree : UInt64 := (1 : UInt64) <<< 63
def slotSizeMask : UInt64 := 0xffffffff

/-- `payloadToSlotSize`: the header, the payload, and padding to a multiple of
the header's size. -/
def payloadToSlotSize (payloadSize : UInt64) : UInt64 :=
  let s := sizeOfSlotHeader + payloadSize
  (s + sizeOfSlotHeader - 1) &&& ~~~(sizeOfSlotHeader - 1)

def slotToPayloadSize (offset : UInt64) : UInt64 := offset - sizeOfSlotHeader

/-- A range of the buffer. -/
structure Slice where
  start : ℕ
  length : ℕ
  deriving DecidableEq, Repr

/-- `pipe`: the shared buffer. -/
structure Pipe where
  len : ℕ
  word : ℕ → UInt64

namespace Pipe

/-- `init`: the buffer cut down to a multiple of the header's size. -/
def init (p : Pipe) : Pipe := { p with len := p.len / 8 * 8 }

/-- `readAtomic`: the word at the offset of `idx`, inside `buffer[off:][:8]`. -/
def readAtomic (p : Pipe) (idx : UInt64) : Outcome Empty UInt64 :=
  let off := (idx &&& offsetMask).toNat
  if off + 8 ≤ p.len then .ok (p.word off) else .panic

/-- `writeAtomic`. -/
def writeAtomic (p : Pipe) (idx v : UInt64) : Outcome Empty Pipe :=
  let off := (idx &&& offsetMask).toNat
  if off + 8 ≤ p.len then .ok { p with word := Function.update p.word off v } else .panic

/-- `data`: `buffer[off+8:][:size]`. -/
def data (p : Pipe) (idx size : UInt64) : Outcome Empty Slice :=
  let start := (idx &&& offsetMask).toNat + sizeOfSlotHeader.toNat
  if start ≤ p.len ∧ size.toNat ≤ p.len - start then .ok ⟨start, size.toNat⟩ else .panic

end Pipe

structure Rx where
  tail : UInt64
  head : UInt64
  deriving DecidableEq, Repr

namespace Rx

/-- The index both ends start at: offset 0 of revolution `0xfffffffe`. -/
def initIndex : UInt64 := 0xfffffffe * jump

/-- `Init`. -/
def init (b : Pipe) : Pipe × Rx := (b.init, ⟨initIndex, initIndex⟩)

/-- `Pull` with `fuel` calls left: `none` for no buffer, or the range of the
next one. -/
def pull : ℕ → Pipe → Rx → Outcome Empty (Pipe × Rx × Option Slice)
  | 0, _, _ => .hang
  | fuel + 1, p, r =>
    if r.head = r.tail + jump then .ok (p, r, none)
    else do
      let header ← p.readAtomic r.head
      if header &&& slotFree ≠ 0 then pure (p, r, none)
      else
        let payloadSize := header &&& slotSizeMask
        let newHead := r.head + payloadToSlotSize payloadSize
        let headWrap := (r.head &&& revolutionMask) ||| p.len.toUInt64
        -- a wrapping slot carries no data: skip it and go on from offset 0
        if (newHead - headWrap).toInt64 ≥ 0 then
          if (newHead - headWrap).toInt64 > jump.toInt64 ∨ newHead &&& offsetMask ≠ 0 then
            pure (p, r, none)
          else do
            let (p, r) ← if r.tail = r.head then do
                let p ← p.writeAtomic r.head (slotFree ||| slotToPayloadSize (newHead - r.head))
                pure (p, { r with tail := newHead })
              else pure (p, r)
            pull fuel p { r with head := newHead }
        else do
          let b ← p.data r.head payloadSize
          pure (p, { r with head := newHead }, some b)

/-- `Flush`. -/
def flush (p : Pipe) (r : Rx) : Outcome Empty (Pipe × Rx) :=
  if r.head = r.tail then .ok (p, r)
  else do
    let p ← p.writeAtomic r.tail (slotFree ||| slotToPayloadSize (r.head - r.tail))
    pure (p, { r with tail := r.head })

/-- One step of the receive end and its peer: a `Pull` that returns, a `Flush`,
or the peer writing the buffer's words. -/
inductive Step : Pipe × Rx → Pipe × Rx → Prop
  | pull {p p' : Pipe} {r r' : Rx} {fuel : ℕ} {b : Option Slice} :
      pull fuel p r = .ok (p', r', b) → Step (p, r) (p', r')
  | flush {p p' : Pipe} {r r' : Rx} : flush p r = .ok (p', r') → Step (p, r) (p', r')
  | peer (p : Pipe) (r : Rx) (word : ℕ → UInt64) : Step (p, r) ({ p with word := word }, r)

/-- The states reached from `Init` of a buffer `b`. -/
def Reachable (b : Pipe) : Pipe × Rx → Prop := Transition.Reachable (· = init b) Step

end Rx

end Sharedmem
