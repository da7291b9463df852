import Gvisor.Usermem.Addr

/-! `usermem.AddrRangeSeq` (pkg/sentry/usermem/addr_range_seq_unsafe.go). The
array at `data` is the list of the ranges it holds, and `[]` stands for the nil
pointer. With `length` 0 the sequence is empty. With `length` 1 it is the single
range `[offset, offset+limit)`. Otherwise it is the `length` ranges of `data`,
from `offset` bytes into the first one, cut after `limit` bytes. Ranges past the
cut are still there, with no bytes.

The `int64` counts of the source are `Int64`, and the conversions between
`int64` and `Addr` keep the bits. A panic is `none`. -/

namespace Usermem

structure AddrRangeSeq where
  data : List AddrRange
  length : ℕ
  offset : Addr
  limit : Addr
  deriving DecidableEq, Repr

namespace AddrRangeSeq

/-- The zero value, the empty sequence. -/
def empty : AddrRangeSeq := ⟨[], 0, 0, 0⟩

/-- `AddrRangeSeqOf`. -/
def addrRangeSeqOf (ar : AddrRange) : AddrRangeSeq := ⟨[], 1, ar.Start, ar.length⟩

/-- `addrRangeSeqFromSliceLimited`. -/
def fromSliceLimited (slice : List AddrRange) (limit : UInt64) : AddrRangeSeq :=
  match slice with
  | [] => empty
  | [ar] => ⟨[], 1, ar.Start, limit⟩
  | _ => ⟨slice, slice.length, 0, limit⟩

/-- The loop of `AddrRangeSeqFromSlice` that adds up the lengths in `int64`,
`none` where it panics on a length or a sum past `MaxInt64`. -/
def sliceLimit : List AddrRange → Int64 → Option Int64
  | [], limit => some limit
  | ar :: rest, limit =>
    let len64 := ar.length.toInt64
    if len64 < 0 then none
    else
      let sum := limit + len64
      if sum < limit then none else sliceLimit rest sum

/-- `AddrRangeSeqFromSlice`. -/
def fromSlice (slice : List AddrRange) : Option AddrRangeSeq :=
  (sliceLimit slice 0).map fun limit => fromSliceLimited slice limit.toUInt64

/-- `IsEmpty`. -/
def isEmpty (ars : AddrRangeSeq) : Bool := ars.length == 0

/-- `NumBytes`. -/
def numBytes (ars : AddrRangeSeq) : Int64 := ars.limit.toInt64

/-- The first range of the array, `*(*AddrRange)(ars.data)`. -/
def rawHead (ars : AddrRangeSeq) : AddrRange := ars.data.headD default

/-- `Head`. -/
def head (ars : AddrRangeSeq) : Option AddrRange :=
  if ars.length = 0 then none
  else if ars.length = 1 then some ⟨ars.offset, ars.offset + ars.limit⟩
  else
    let ar := { ars.rawHead with Start := ars.rawHead.Start + ars.offset }
    some (if ar.length > ars.limit then { ar with End := ar.Start + ars.limit } else ar)

/-- `externalTail`: the ranges of the array after the first, with what is left
of `limit` past the first. -/
def externalTail (ars : AddrRangeSeq) : AddrRangeSeq :=
  let headLen := ars.rawHead.length - ars.offset
  let tailLimit : UInt64 := if ars.limit > headLen then ars.limit - headLen else 0
  fromSliceLimited ((ars.data.take ars.length).drop 1) tailLimit

/-- `Tail`. -/
def tail (ars : AddrRangeSeq) : Option AddrRangeSeq :=
  if ars.length = 0 then none
  else if ars.length = 1 then some empty
  else some ars.externalTail

theorem length_fromSliceLimited (slice : List AddrRange) (limit : UInt64) :
    (fromSliceLimited slice limit).length = slice.length := by
  match slice with
  | [] => rfl
  | [_] => rfl
  | _ :: _ :: _ => rfl

theorem length_externalTail (ars : AddrRangeSeq) :
    ars.externalTail.length = min ars.data.length ars.length - 1 := by
  rw [externalTail, length_fromSliceLimited, List.length_drop, List.length_take, Nat.min_comm]

theorem length_tail {ars t : AddrRangeSeq} (h : ars.tail = some t) : t.length < ars.length := by
  unfold tail at h
  split_ifs at h with h0 h1
  · cases h
    exact Nat.pos_of_ne_zero h0
  · cases h
    rw [length_externalTail]
    omega

/-- The loop of `DropFirst64`, dropping `n` more bytes. -/
def dropLoop (ars : AddrRangeSeq) (n : Int64) : Option AddrRangeSeq :=
  if n = 0 then some ars
  else
    let headLen := if ars.length = 1 then ars.limit else ars.rawHead.length - ars.offset
    if n.toUInt64 < headLen then
      -- dropping ends partway through the head
      some { ars with offset := ars.offset + n.toUInt64, limit := ars.limit - n.toUInt64 }
    else
      match _ht : ars.tail with
      | none => none
      | some t => dropLoop t (n - headLen.toInt64)
termination_by ars.length
decreasing_by exact length_tail _ht

/-- `DropFirst64`. -/
def dropFirst64 (ars : AddrRangeSeq) (n : Int64) : Option AddrRangeSeq :=
  if n < 0 then none
  else if n.toUInt64 > ars.limit then some empty
  else
    -- handle an initial empty range
    match ars.length with
    | 0 => some empty
    | 1 => if ars.limit = 0 then some empty else ars.dropLoop n
    | _ => (if ars.offset = ars.rawHead.length then ars.externalTail else ars).dropLoop n

/-- `TakeFirst64`. -/
def takeFirst64 (ars : AddrRangeSeq) (n : Int64) : Option AddrRangeSeq :=
  if n < 0 then none
  else some (if ars.limit > n.toUInt64 then { ars with limit := n.toUInt64 } else ars)

/-- The ranges of `ars`, by `Head` and `Tail` until it is empty. -/
def toList (ars : AddrRangeSeq) : List AddrRange :=
  match ars.head, _ht : ars.tail with
  | some ar, some t => ar :: toList t
  | _, _ => []
termination_by ars.length
decreasing_by exact length_tail _ht

end AddrRangeSeq

end Usermem
