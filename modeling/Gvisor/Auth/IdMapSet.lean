import Mathlib.Data.List.Basic

/-! `idMapSet`, the set of pkg/segment instantiated with `idMapFunctions`
(pkg/sentry/kernel/auth/id_map_functions.go), as the in-order sequence of
its segments. The B-tree that stores the sequence is not modelled here: each
operation is the one of set.go read on the sequence, which is what the
binary search of `Set.Find` visits in order. A segment `[start, End) ↦ v`
maps `id` to `v + (id - start)`. -/

namespace Auth

/-- `NoID`, also `idMapFunctions.MaxKey`. -/
def noID : UInt32 := 0xFFFFFFFF

/-- `idMapRange`, the IDs `[start, End)`. -/
structure IdMapRange where
  start : UInt32
  End : UInt32
  deriving DecidableEq, Repr

namespace IdMapRange

def length (r : IdMapRange) : UInt32 := r.End - r.start

def Contains (r : IdMapRange) (x : UInt32) : Prop := r.start ≤ x ∧ x < r.End

instance (r : IdMapRange) (x : UInt32) : Decidable (r.Contains x) :=
  inferInstanceAs (Decidable (_ ∧ _))

/-- `Range.Intersect`. -/
def intersect (r r2 : IdMapRange) : IdMapRange :=
  let start := if r.start < r2.start then r2.start else r.start
  let e := if r.End > r2.End then r2.End else r.End
  ⟨start, if e < start then start else e⟩

end IdMapRange

structure IdMapSeg where
  range : IdMapRange
  value : UInt32
  deriving DecidableEq, Repr

/-- `idMapFunctions.Merge`: mapped ranges have to be contiguous. -/
def merge (r1 : IdMapRange) (val1 : UInt32) (_r2 : IdMapRange) (val2 : UInt32) :
    Option UInt32 :=
  if val1 + r1.length ≠ val2 then none else some val1

abbrev IdMapSet := List IdMapSeg

namespace IdMapSet

/-- The segments that end at or before `key`: those `Set.Find` passes over. -/
def before (s : IdMapSet) (key : UInt32) : IdMapSet := s.takeWhile (·.range.End ≤ key)

/-- The segments from the first that ends after `key` on. -/
def after (s : IdMapSet) (key : UInt32) : IdMapSet := s.dropWhile (·.range.End ≤ key)

/-- `Set.FindSegment`. -/
def findSegment (s : IdMapSet) (key : UInt32) : Option IdMapSeg :=
  match s.after key with
  | seg :: _ => if seg.range.start ≤ key then some seg else none
  | [] => none

/-- The end of the gap before the segments `post` (`MaxKey` after the last). -/
def gapEnd : IdMapSet → UInt32
  | next :: _ => next.range.start
  | [] => noID

/-- The part of `Set.Insert` after the predecessor: merge into the successor
where `Merge` allows, else insert unmerged. -/
def insertNext (r : IdMapRange) (val : UInt32) : IdMapSet → IdMapSet
  | next :: post =>
    if next.range.start = r.End then
      match merge r val next.range next.value with
      | some mval => ⟨⟨r.start, next.range.End⟩, mval⟩ :: post
      | none => ⟨r, val⟩ :: next :: post
    else ⟨r, val⟩ :: next :: post
  | [] => [⟨r, val⟩]

/-- `Set.Insert` into the gap between `pre` and `post`: merged into the
predecessor, and then also into the successor, where `Merge` allows. -/
def insert (pre post : IdMapSet) (r : IdMapRange) (val : UInt32) : IdMapSet :=
  match pre.getLast? with
  | some prev =>
    if prev.range.End = r.start then
      match merge prev.range prev.value r val with
      | some mval =>
        let prev' : IdMapSeg := ⟨⟨prev.range.start, r.End⟩, mval⟩
        match post with
        | next :: post' =>
          if next.range.start = r.End then
            match merge prev'.range mval next.range next.value with
            | some mval' => pre.dropLast ++ ⟨⟨prev.range.start, next.range.End⟩, mval'⟩ :: post'
            | none => pre.dropLast ++ prev' :: next :: post'
          else pre.dropLast ++ prev' :: next :: post'
        | [] => pre.dropLast ++ [prev']
      | none => pre ++ insertNext r val post
    else pre ++ insertNext r val post
  | none => pre ++ insertNext r val post

/-- `Set.Add`, for a range with `start < End` (`Add` panics on an empty one):
`none` is `false`, when the range overlaps a segment. -/
def add (s : IdMapSet) (r : IdMapRange) (val : UInt32) : Option IdMapSet :=
  if (s.findSegment r.start).isSome then none
  else if r.End > gapEnd (s.after r.start) then none
  else some (insert (s.before r.start) (s.after r.start) r val)

/-- `Set.SpanRange`: the number of IDs of `r` covered by segments. -/
def spanRange (s : IdMapSet) (r : IdMapRange) : UInt32 :=
  if r.length = 0 then 0
  else ((s.after r.start).takeWhile (·.range.start < r.End)).foldl
    (fun sz seg => sz + (seg.range.intersect r).length) 0

end IdMapSet

/-- `IDMapEntry`. -/
structure IDMapEntry where
  firstID : UInt32
  firstParentID : UInt32
  length : UInt32
  deriving DecidableEq, Repr

/-- `getIDMap`: one entry per segment, in order. -/
def getIDMap (m : IdMapSet) : List IDMapEntry :=
  m.map fun seg => ⟨seg.range.start, seg.value, seg.range.length⟩

/-- `mapID`. -/
def mapID (m : IdMapSet) (id : UInt32) : UInt32 :=
  if id = noID then noID
  else
    match m.findSegment id with
    | some seg => seg.value + (id - seg.range.start)
    | none => noID

/-- `allIDsMapped`. -/
def allIDsMapped (m : IdMapSet) (start e : UInt32) : Bool :=
  m.spanRange ⟨start, e⟩ == e - start

end Auth
