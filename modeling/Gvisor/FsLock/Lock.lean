import Mathlib.Data.Finset.Card
import Gvisor.Lib.Outcome
import Gvisor.Lib.Reachable
import Gvisor.Segment.Set

/-! POSIX record locks of pkg/sentry/fs/lock: a `LockSet` maps each range of
file offsets to the `Lock` held on it, the uids holding it for reading or the
one holding it for writing. A `Lock`'s `Readers` map is never shared between
two segments (`Split` copies it, `Merge` keeps one of the two), so it is a
value here, the set of uids that map holds. The loops of `LockSet.lock` and
`LockSet.unlock` are given fuel, one more turn than the set has segments,
which is enough (`FsLock.Invariant`). -/

namespace FsLock

open Segment

abbrev UniqueID := UInt64

inductive LockType where
  | readLock
  | writeLock
  deriving DecidableEq, Repr

structure Lock where
  readers : Finset UniqueID
  hasWriter : Bool
  writer : UniqueID
  deriving DecidableEq, Inhabited

/-- `LockEOF`, `math.MaxUint64`. -/
def lockEOF : ℕ := 2 ^ 64 - 1

def makeLock (uid : UniqueID) : LockType → Lock
  | .readLock => ⟨{uid}, false, 0⟩
  | .writeLock => ⟨∅, true, uid⟩

namespace Lock

def isHeld (l : Lock) (uid : UniqueID) : Bool := (l.hasWriter && l.writer == uid) || uid ∈ l.readers

/-- `Lock.lock`, `none` where the source panics. -/
def lock (l : Lock) (uid : UniqueID) : LockType → Option Lock
  | .readLock =>
    if uid ∈ l.readers then some l
    else if l.hasWriter then
      if l.writer ≠ uid then none
      else some ⟨{uid}, false, l.writer⟩
    else some { l with readers := insert uid l.readers }
  | .writeLock =>
    if l.hasWriter ∧ l.writer = uid then some l
    else if 0 < l.readers.card ∧ (l.readers.card ≠ 1 ∨ uid ∉ l.readers) then none
    else some ⟨∅, true, uid⟩

end Lock

def lockSetFunctions : Functions Lock where
  minKey := 0
  maxKey := lockEOF
  merge _ val1 _ val2 :=
    if val1.readers.card ≠ val2.readers.card then none
    else if ¬val1.readers ⊆ val2.readers then none
    else if val1.hasWriter ≠ val2.hasWriter then none
    else if val1.hasWriter ∧ val1.writer ≠ val2.writer then none
    else some val1
  split _ val _ := (val, ⟨val.readers, val.hasWriter, val.writer⟩)

/-- A `LockSet` by its in-order segments. -/
abbrev LockSet := List (Range × Lock)

/-- The loop of `lockable` over the segments from its starting point. -/
def lockableLoop (r : Range) (check : Lock → Bool) : List (Range × Lock) → Bool
  | [] => true
  | (sr, v) :: rest => if sr.Start < r.End then check v && lockableLoop r check rest else true

def lockable (l : LockSet) (r : Range) (check : Lock → Bool) : Bool :=
  lockableLoop r check (l.drop (lowerBoundSegment l r.Start))

def canLock (l : LockSet) (uid : UniqueID) : LockType → Range → Bool
  | .readLock, r => lockable l r fun value => !value.hasWriter || value.writer == uid
  | .writeLock, r => lockable l r fun value =>
    if !value.hasWriter then value.readers.card == 1 && uid ∈ value.readers
    else value.writer == uid

/-- The loop of `LockSet.lock` from the segment `seg`. -/
def lockLoop (uid : UniqueID) (t : LockType) (r : Range) :
    ℕ → LockSet → ℕ → Outcome Unit LockSet
  | 0, _, _ => .hang
  | fuel + 1, l, seg =>
    if seg < l.length ∧ segStart l seg < r.End then
      let l := if segEnd l seg > r.End then (splitUnchecked lockSetFunctions l seg r.End).1 else l
      match (value l seg).lock uid t with
      | none => .panic
      | some v =>
        let l := setValue l seg v
        let gr := (gapRange l lockSetFunctions (seg + 1)).intersect r
        if 0 < gr.length then
          match insertChecked lockSetFunctions l (seg + 1) gr (makeLock uid t) with
          | none => .panic
          | some (l, seg) => lockLoop uid t r fuel l (seg + 1)
        else lockLoop uid t r fuel l (seg + 1)
    else .ok l

/-- `LockSet.lock`: whether the lock was taken, and the set. -/
def LockSet.lock (l : LockSet) (uid : UniqueID) (t : LockType) (r : Range) :
    Outcome Unit (Bool × LockSet) :=
  if r.Start > r.End then .panic
  else if r.length = 0 then .ok (true, l)
  else if !canLock l uid t r then .ok (false, l)
  else
    let (seg, gap) := find l r.Start
    let start : Outcome Unit (LockSet × ℕ) :=
      if gap < l.length + 1 then
        match insertChecked lockSetFunctions l gap ((gapRange l lockSetFunctions gap).intersect r)
          (makeLock uid t) with
        | none => .panic
        | some (l, seg) => .ok (l, seg + 1)
      else if segStart l seg < r.Start then
        match split lockSetFunctions l seg r.Start with
        | none => .panic
        | some (l, _, seg) => .ok (l, seg)
      else .ok (l, seg)
    do
      let (l, seg) ← start
      let l ← lockLoop uid t r (l.length + 1) l seg
      pure (true, l)

/-- The loop of `LockSet.unlock` from the segment `seg`. -/
def unlockLoop (uid : UniqueID) (r : Range) : ℕ → LockSet → ℕ → Outcome Unit LockSet
  | 0, _, _ => .hang
  | fuel + 1, l, seg =>
    if seg < l.length ∧ segStart l seg < r.End then
      if !(value l seg).isHeld uid then unlockLoop uid r fuel l (seg + 1)
      else
        let (l, seg) := isolate lockSetFunctions l seg r
        let value := value l seg
        if value.hasWriter ∧ value.writer = uid then
          let (l, gap) := remove l seg
          unlockLoop uid r fuel l gap
        else if uid ∈ value.readers then
          if value.readers.card = 1 then
            let (l, gap) := remove l seg
            unlockLoop uid r fuel l gap
          else unlockLoop uid r fuel (setValue l seg ⟨value.readers.erase uid, false, 0⟩) (seg + 1)
        else unlockLoop uid r fuel l (seg + 1)
    else .ok l

/-- `LockSet.unlock`. -/
def LockSet.unlock (l : LockSet) (uid : UniqueID) (r : Range) : Outcome Unit LockSet :=
  if r.Start > r.End then .panic
  else if r.length = 0 then .ok l
  else unlockLoop uid r (l.length + 1) l (lowerBoundSegment l r.Start)

/-- The calls of a file's lock set, on ranges of `uint64` offsets. -/
inductive Step : LockSet → LockSet → Prop
  | lock (l l' : LockSet) (uid : UniqueID) (t : LockType) (r : Range) (res : Bool) :
      r.Start ≤ r.End → r.End ≤ lockEOF → l.lock uid t r = .ok (res, l') → Step l l'
  | unlock (l l' : LockSet) (uid : UniqueID) (r : Range) :
      r.Start ≤ r.End → r.End ≤ lockEOF → l.unlock uid r = .ok l' → Step l l'

def Reachable (l : LockSet) : Prop := Transition.Reachable (· = []) Step l

end FsLock
