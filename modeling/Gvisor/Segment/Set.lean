import Gvisor.Lib.List

/-! `segment.Set` (pkg/segment) by its in-order sequence of segments: a list
of ranges with their values, and iterators as positions in that list. A
segment iterator is the index of its segment, and the terminal one is the
length of the list; a gap iterator is the index of the segment after the gap,
and the terminal one is the length plus one. The B-tree that holds the
segments in the source, and the rebalancing that keeps it balanced, are not
modelled; `Find` is what its binary search computes on a sorted list. `insert`
is `Insert` past its assertions, and `insertChecked` and `split` are `Insert`
and `Split` with them, `none` where they panic. The loop of `RemoveRange` is given
fuel, one more turn than the set has segments, and is `none` where it runs out; that does not
happen (`Segment.Ops`). So is the loop of `MergeRange`. -/

namespace Segment

/-- `Range`, over natural keys. -/
structure Range where
  Start : ℕ
  End : ℕ
  deriving DecidableEq, Repr, Inhabited

namespace Range

def length (r : Range) : ℕ := r.End - r.Start

def contains (r : Range) (x : ℕ) : Bool := r.Start ≤ x && x < r.End

def overlaps (r r2 : Range) : Bool := r.Start < r2.End && r2.Start < r.End

def isSupersetOf (r r2 : Range) : Bool := r.Start ≤ r2.Start && r.End ≥ r2.End

def intersect (r r2 : Range) : Range :=
  let Start := if r.Start < r2.Start then r2.Start else r.Start
  let End := if r.End > r2.End then r2.End else r.End
  ⟨Start, if End < Start then Start else End⟩

def canSplitAt (r : Range) (x : ℕ) : Bool := r.contains x && r.Start < x

theorem canSplitAt_iff {r : Range} {x : ℕ} : r.canSplitAt x = true ↔ r.Start < x ∧ x < r.End := by
  simp only [canSplitAt, contains, Bool.and_eq_true, decide_eq_true_eq]
  omega

@[simp] theorem intersect_start (r r2 : Range) : (r.intersect r2).Start = max r.Start r2.Start := by
  simp only [intersect]
  split_ifs <;> omega

theorem intersect_end (r r2 : Range) :
    (r.intersect r2).End = max (min r.End r2.End) (max r.Start r2.Start) := by
  simp only [intersect]
  split_ifs <;> omega

theorem length_intersect_pos {r r2 : Range} (h : 0 < (r.intersect r2).length) :
    r.Start ≤ (r.intersect r2).Start ∧ (r.intersect r2).Start < (r.intersect r2).End ∧
      (r.intersect r2).End ≤ r.End ∧ r2.Start ≤ (r.intersect r2).Start ∧
      (r.intersect r2).End ≤ r2.End := by
  simp only [length, intersect_end, intersect_start] at h ⊢
  omega

end Range

/-- `Functions`: the bounds of the keys, and how values merge and split. -/
structure Functions (V : Type*) where
  minKey : ℕ
  maxKey : ℕ
  merge : Range → V → Range → V → Option V
  split : Range → V → ℕ → V × V

variable {V : Type*} [Inhabited V]

section Iterators

variable (s : List (Range × V))

/-- `seg.Range()`. -/
def segRange (seg : ℕ) : Range := (s.getD seg default).1

/-- `seg.Start()`. -/
def segStart (seg : ℕ) : ℕ := (segRange s seg).Start

/-- `seg.End()`. -/
def segEnd (seg : ℕ) : ℕ := (segRange s seg).End

/-- `seg.Value()`. -/
def value (seg : ℕ) : V := (s.getD seg default).2

/-- `gap.Start()`. -/
def gapStart (F : Functions V) (gap : ℕ) : ℕ := if gap = 0 then F.minKey else segEnd s (gap - 1)

/-- `gap.End()`. -/
def gapEnd (F : Functions V) (gap : ℕ) : ℕ := if gap < s.length then segStart s gap else F.maxKey

/-- `gap.Range()`. -/
def gapRange (F : Functions V) (gap : ℕ) : Range := ⟨gapStart s F gap, gapEnd s F gap⟩

/-- `Find`: the segment that contains `key` and a terminal gap, or a terminal
segment and the gap that contains it. -/
def find (key : ℕ) : ℕ × ℕ :=
  let i := s.findIdx fun p => decide (key < p.1.End)
  if i < s.length ∧ segStart s i ≤ key then (i, s.length + 1) else (s.length, i)

/-- `LowerBoundSegment`: the segment that contains `min`, or the first one after it. -/
def lowerBoundSegment (min : ℕ) : ℕ :=
  let (seg, gap) := find s min
  if seg < s.length then seg else gap

/-- `FindSegment`: the segment that contains `key`, or a terminal one. -/
def findSegment (key : ℕ) : ℕ := (find s key).1

/-- `LowerBoundGap`: the gap that contains `min`, or the gap after the segment that does. -/
def lowerBoundGap (min : ℕ) : ℕ :=
  let (seg, gap) := find s min
  if gap ≤ s.length then gap else seg + 1

end Iterators

/-- `seg.SetValue(val)`. -/
def setValue (s : List (Range × V)) (seg : ℕ) (val : V) : List (Range × V) :=
  s.modify seg fun p => (p.1, val)

/-- `seg.SetStartUnchecked(start)`. -/
def setStartUnchecked (s : List (Range × V)) (seg start : ℕ) : List (Range × V) :=
  s.modify seg fun p => (⟨start, p.1.End⟩, p.2)

/-- `seg.SetEndUnchecked(end)`. -/
def setEndUnchecked (s : List (Range × V)) (seg e : ℕ) : List (Range × V) :=
  s.modify seg fun p => (⟨p.1.Start, e⟩, p.2)

/-- `InsertWithoutMergingUnchecked`: the new segment and an iterator to it. -/
def insertWithoutMergingUnchecked (s : List (Range × V)) (gap : ℕ) (r : Range) (val : V) :
    List (Range × V) × ℕ :=
  (s.insertIdx gap (r, val), gap)

/-- `Remove`: the set without the segment, and the gap where it was. -/
def remove (s : List (Range × V)) (seg : ℕ) : List (Range × V) × ℕ :=
  (s.eraseIdx seg, seg)

variable (F : Functions V)

/-- The part of `Insert` after it did not merge into the previous segment:
merge into the next one, or insert without merging. -/
def insertMergeNext (s : List (Range × V)) (gap : ℕ) (r : Range) (val : V) :
    List (Range × V) × ℕ :=
  if gap < s.length ∧ segStart s gap = r.End then
    match F.merge r val (segRange s gap) (value s gap) with
    | some mval => (setValue (setStartUnchecked s gap r.Start) gap mval, gap)
    | none => insertWithoutMergingUnchecked s gap r val
  else insertWithoutMergingUnchecked s gap r val

/-- `Insert`: the new segment, merged with its neighbours where `Merge` lets
it, and an iterator to the segment that holds it. -/
def insert (s : List (Range × V)) (gap : ℕ) (r : Range) (val : V) : List (Range × V) × ℕ :=
  if 0 < gap ∧ segEnd s (gap - 1) = r.Start then
    match F.merge (segRange s (gap - 1)) (value s (gap - 1)) r val with
    | some mval =>
      let s := setValue (setEndUnchecked s (gap - 1) r.End) (gap - 1) mval
      if gap < s.length ∧ segStart s gap = r.End then
        match F.merge (segRange s (gap - 1)) mval (segRange s gap) (value s gap) with
        | some mval =>
          let s := setValue (setEndUnchecked s (gap - 1) (segEnd s gap)) (gap - 1) mval
          ((remove s gap).1, gap - 1)
        | none => (s, gap - 1)
      else (s, gap - 1)
    | none => insertMergeNext F s gap r val
  else insertMergeNext F s gap r val

/-- `Insert` with its assertions: `none` where the range is empty or overlaps
the segment before or after the gap. Keys are `uint64`, so an empty range is
one whose `Length()` is zero. -/
def insertChecked (s : List (Range × V)) (gap : ℕ) (r : Range) (val : V) :
    Option (List (Range × V) × ℕ) :=
  if r.Start = r.End then none
  else if 0 < gap ∧ segEnd s (gap - 1) > r.Start then none
  else if gap < s.length ∧ segStart s gap < r.End then none
  else some (insert F s gap r val)

/-- `SplitUnchecked`: the two halves of the segment, as iterators. -/
def splitUnchecked (s : List (Range × V)) (seg split : ℕ) : List (Range × V) × ℕ × ℕ :=
  let (val1, val2) := F.split (segRange s seg) (value s seg) split
  let end2 := segEnd s seg
  let s := setValue (setEndUnchecked s seg split) seg val1
  let (s, seg2) := insertWithoutMergingUnchecked s (seg + 1) ⟨split, end2⟩ val2
  (s, seg2 - 1, seg2)

/-- `Split`: `none` where the split point is not strictly inside the segment. -/
def split (s : List (Range × V)) (seg x : ℕ) : Option (List (Range × V) × ℕ × ℕ) :=
  if (segRange s seg).canSplitAt x then some (splitUnchecked F s seg x) else none

/-- `SplitAt`: the set with the segment that contains `split` cut there, where `split` lies
strictly inside it, and whether it was cut. -/
def splitAt (s : List (Range × V)) (split : ℕ) : List (Range × V) × Bool :=
  let seg := findSegment s split
  if seg < s.length ∧ (segRange s seg).canSplitAt split then ((splitUnchecked F s seg split).1, true)
  else (s, false)

/-- `Isolate`: the segment split where `r`'s bounds cut it, and the part
inside `r`. -/
def isolate (s : List (Range × V)) (seg : ℕ) (r : Range) : List (Range × V) × ℕ :=
  let (s, seg) :=
    if (segRange s seg).canSplitAt r.Start then
      let (s, _, seg2) := splitUnchecked F s seg r.Start
      (s, seg2)
    else (s, seg)
  if (segRange s seg).canSplitAt r.End then
    let (s, seg1, _) := splitUnchecked F s seg r.End
    (s, seg1)
  else (s, seg)

/-- `seg.NextNonEmpty()`: the segment after `seg` where it is adjacent, else the gap after it;
the other one is terminal. -/
def nextNonEmpty (s : List (Range × V)) (seg : ℕ) : ℕ × ℕ :=
  if (gapRange s F (seg + 1)).length ≠ 0 then (s.length, seg + 1) else (seg + 1, s.length + 1)

/-- `MergeUnchecked`: the merged segment, where the two segments are adjacent and `Merge`
merges their values. -/
def mergeUnchecked (s : List (Range × V)) (first second : ℕ) : Option (List (Range × V) × ℕ) :=
  if segEnd s first = segStart s second then
    match F.merge (segRange s first) (value s first) (segRange s second) (value s second) with
    | some mval =>
      let s := setValue (setEndUnchecked s first (segEnd s second)) first mval
      let (s, gap) := remove s second
      some (s, gap - 1)
    | none => none
  else none

/-- The loop of `MergeRange`, at `seg` and the segment `next` after it. -/
def mergeRangeLoop (r : Range) : ℕ → List (Range × V) → ℕ → ℕ → Option (List (Range × V))
  | 0, _, _, _ => none
  | fuel + 1, s, seg, next =>
    if next < s.length ∧ segStart s next < r.End then
      match mergeUnchecked F s seg next with
      | some (s, mseg) => mergeRangeLoop r fuel s mseg (mseg + 1)
      | none => mergeRangeLoop r fuel s next (next + 1)
    else some s

/-- `MergeRange`: every two adjacent segments that meet `r` and that `Merge` merges, merged. -/
def mergeRange (s : List (Range × V)) (r : Range) : Option (List (Range × V)) :=
  let seg := lowerBoundSegment s r.Start
  if seg < s.length then mergeRangeLoop F r (s.length + 1) s seg (seg + 1) else some s

/-- `MergeAdjacent`: the segment that holds `r.Start` merged into the one before it, then the
segment that holds `r.End - 1` merged with the one after it, where `Merge` merges them. -/
def mergeAdjacent (s : List (Range × V)) (r : Range) : List (Range × V) :=
  let first := findSegment s r.Start
  -- `Merge(prev, first)`: `prev` is `first.PrevSegment()`, so only `MergeUnchecked` can fail
  let s :=
    if first < s.length ∧ 0 < first then ((mergeUnchecked F s (first - 1) first).map Prod.fst).getD s
    else s
  -- `r.End - 1` on `uint64` keys, which wraps to `2^64 - 1` for a range that ends at 0
  let last := findSegment s ((r.End + (2 ^ 64 - 1)) % 2 ^ 64)
  if last < s.length ∧ last + 1 < s.length then
    ((mergeUnchecked F s last (last + 1)).map Prod.fst).getD s
  else s

/-- `Add`: whether the segment was added, and the set; `none` where it panics on an empty
range. -/
def add (s : List (Range × V)) (r : Range) (val : V) : Option (Bool × List (Range × V)) :=
  if r.Start = r.End then none
  else
    let gap := (find s r.Start).2
    if s.length < gap then some (false, s)
    else if r.End > gapEnd s F gap then some (false, s)
    else (insertChecked F s gap r val).map fun res => (true, res.1)

/-- The loop of `RemoveRange` from the gap `gap`. -/
def removeRangeLoop (r : Range) : ℕ → List (Range × V) → ℕ → Option (List (Range × V) × ℕ)
  | 0, _, _ => none
  | fuel + 1, s, gap =>
    if gap < s.length ∧ segStart s gap < r.End then
      let (s, seg) := isolate F s gap r
      let (s, gap) := remove s seg
      removeRangeLoop r fuel s gap
    else some (s, gap)

/-- `RemoveRange`: the set without the segments in `r`, and the gap they leave. -/
def removeRange (s : List (Range × V)) (r : Range) : Option (List (Range × V) × ℕ) :=
  let (seg, gap) := find s r.Start
  let (s, gap) :=
    if seg < s.length then
      let (s, seg) := isolate F s seg r
      remove s seg
    else (s, gap)
  removeRangeLoop F r (s.length + 1) s gap

section Lemmas

variable {s : List (Range × V)} {seg gap i e : ℕ} {v : V} {r : Range}

omit [Inhabited V] in
@[simp] theorem length_setValue : (setValue s seg v).length = s.length := List.length_modify ..

omit [Inhabited V] in
@[simp] theorem length_setStartUnchecked : (setStartUnchecked s seg e).length = s.length :=
  List.length_modify ..

omit [Inhabited V] in
@[simp] theorem length_setEndUnchecked : (setEndUnchecked s seg e).length = s.length :=
  List.length_modify ..

@[simp] theorem segRange_setValue : segRange (setValue s seg v) i = segRange s i := by
  simp only [segRange, setValue, List.getD_modify]
  split_ifs with h
  · rw [h.1]
  · rfl

theorem value_setValue : value (setValue s seg v) i = if i = seg ∧ seg < s.length then v else value s i := by
  simp only [value, setValue, List.getD_modify]
  split_ifs <;> rfl

theorem segRange_setEndUnchecked :
    segRange (setEndUnchecked s seg e) i =
      if i = seg ∧ seg < s.length then ⟨segStart s seg, e⟩ else segRange s i := by
  simp only [segRange, segStart, setEndUnchecked, List.getD_modify]
  split_ifs <;> rfl

@[simp] theorem value_setEndUnchecked : value (setEndUnchecked s seg e) i = value s i := by
  simp only [value, setEndUnchecked, List.getD_modify]
  split_ifs with h
  · rw [h.1]
  · rfl

theorem segRange_setStartUnchecked :
    segRange (setStartUnchecked s seg e) i =
      if i = seg ∧ seg < s.length then ⟨e, segEnd s seg⟩ else segRange s i := by
  simp only [segRange, segEnd, setStartUnchecked, List.getD_modify]
  split_ifs <;> rfl

@[simp] theorem value_setStartUnchecked : value (setStartUnchecked s seg e) i = value s i := by
  simp only [value, setStartUnchecked, List.getD_modify]
  split_ifs with h
  · rw [h.1]
  · rfl

theorem segRange_insertIdx (h : gap ≤ s.length) :
    segRange (s.insertIdx gap (r, v)) i =
      if i < gap then segRange s i else if i = gap then r else segRange s (i - 1) := by
  simp only [segRange, List.getD_insertIdx h]
  split_ifs <;> rfl

theorem value_insertIdx (h : gap ≤ s.length) :
    value (s.insertIdx gap (r, v)) i =
      if i < gap then value s i else if i = gap then v else value s (i - 1) := by
  simp only [value, List.getD_insertIdx h]
  split_ifs <;> rfl

theorem segRange_eraseIdx :
    segRange (s.eraseIdx seg) i = if i < seg then segRange s i else segRange s (i + 1) := by
  simp only [segRange, List.getD_eraseIdx]
  split_ifs <;> rfl

theorem value_eraseIdx : value (s.eraseIdx seg) i = if i < seg then value s i else value s (i + 1) := by
  simp only [value, List.getD_eraseIdx]
  split_ifs <;> rfl

theorem mem_of_lt_length (h : i < s.length) : (segRange s i, value s i) ∈ s := by
  simp only [segRange, value, List.getD_eq_getElem?_getD, List.getElem?_eq_getElem h,
    Option.getD_some]
  exact List.getElem_mem h

theorem getElem_eq (h : i < s.length) : s[i] = (segRange s i, value s i) := by
  simp only [segRange, value, List.getD_eq_getElem?_getD, List.getElem?_eq_getElem h,
    Option.getD_some]

theorem drop_eq_cons (h : i < s.length) : s.drop i = (segRange s i, value s i) :: s.drop (i + 1) := by
  rw [List.drop_eq_getElem_cons h, getElem_eq h]

@[simp] theorem segStart_setValue : segStart (setValue s seg v) i = segStart s i := by
  simp only [segStart, segRange_setValue]

@[simp] theorem segEnd_setValue : segEnd (setValue s seg v) i = segEnd s i := by
  simp only [segEnd, segRange_setValue]

@[simp] theorem segStart_setEndUnchecked : segStart (setEndUnchecked s seg e) i = segStart s i := by
  simp only [segStart, segRange_setEndUnchecked]
  split_ifs with h
  · rw [h.1]
  · rfl

theorem segEnd_setEndUnchecked :
    segEnd (setEndUnchecked s seg e) i = if i = seg ∧ seg < s.length then e else segEnd s i := by
  simp only [segEnd, segRange_setEndUnchecked]
  split_ifs <;> rfl

theorem segStart_setStartUnchecked :
    segStart (setStartUnchecked s seg e) i = if i = seg ∧ seg < s.length then e else segStart s i := by
  simp only [segStart, segRange_setStartUnchecked]
  split_ifs <;> rfl

@[simp] theorem segEnd_setStartUnchecked : segEnd (setStartUnchecked s seg e) i = segEnd s i := by
  simp only [segEnd, segRange_setStartUnchecked]
  split_ifs with h
  · rw [h.1]
  · rfl

theorem segStart_insertIdx (h : gap ≤ s.length) :
    segStart (s.insertIdx gap (r, v)) i =
      if i < gap then segStart s i else if i = gap then r.Start else segStart s (i - 1) := by
  simp only [segStart, segRange_insertIdx h]
  split_ifs <;> rfl

theorem segEnd_insertIdx (h : gap ≤ s.length) :
    segEnd (s.insertIdx gap (r, v)) i =
      if i < gap then segEnd s i else if i = gap then r.End else segEnd s (i - 1) := by
  simp only [segEnd, segRange_insertIdx h]
  split_ifs <;> rfl

theorem segStart_eraseIdx :
    segStart (s.eraseIdx seg) i = if i < seg then segStart s i else segStart s (i + 1) := by
  simp only [segStart, segRange_eraseIdx]
  split_ifs <;> rfl

theorem segEnd_eraseIdx : segEnd (s.eraseIdx seg) i = if i < seg then segEnd s i else segEnd s (i + 1) := by
  simp only [segEnd, segRange_eraseIdx]
  split_ifs <;> rfl

omit [Inhabited V] in
theorem drop_setValue_of_lt (h : seg < i) : (setValue s seg v).drop i = s.drop i :=
  List.drop_modify_of_lt _ _ _ _ h

omit [Inhabited V] in
theorem drop_setStartUnchecked_of_lt (h : seg < i) : (setStartUnchecked s seg e).drop i = s.drop i :=
  List.drop_modify_of_lt _ _ _ _ h

omit [Inhabited V] in
theorem drop_setEndUnchecked_of_lt (h : seg < i) : (setEndUnchecked s seg e).drop i = s.drop i :=
  List.drop_modify_of_lt _ _ _ _ h

omit [Inhabited V] in
theorem eraseIdx_setValue (h : seg < i) :
    (setValue s seg v).eraseIdx i = setValue (s.eraseIdx i) seg v :=
  List.eraseIdx_modify_of_gt _ _ _ _ h

omit [Inhabited V] in
theorem eraseIdx_setEndUnchecked (h : seg < i) :
    (setEndUnchecked s seg e).eraseIdx i = setEndUnchecked (s.eraseIdx i) seg e :=
  List.eraseIdx_modify_of_gt _ _ _ _ h

theorem splitUnchecked_eq (s : List (Range × V)) (seg x : ℕ) :
    splitUnchecked F s seg x =
      ((setValue (setEndUnchecked s seg x) seg (F.split (segRange s seg) (value s seg) x).1).insertIdx
        (seg + 1) (⟨x, segEnd s seg⟩, (F.split (segRange s seg) (value s seg) x).2), seg, seg + 1) :=
  rfl

variable {F}

@[simp] theorem gapStart_setValue : gapStart (setValue s seg v) F gap = gapStart s F gap := by
  simp [gapStart]

@[simp] theorem gapStart_setStartUnchecked : gapStart (setStartUnchecked s seg e) F gap = gapStart s F gap := by
  simp [gapStart]

@[simp] theorem gapEnd_setValue : gapEnd (setValue s seg v) F gap = gapEnd s F gap := by
  simp [gapEnd]

@[simp] theorem gapEnd_setEndUnchecked : gapEnd (setEndUnchecked s seg e) F gap = gapEnd s F gap := by
  simp [gapEnd]

@[simp] theorem gapStart_zero : gapStart s F 0 = F.minKey := if_pos rfl

theorem gapStart_of_pos (h : 0 < gap) : gapStart s F gap = segEnd s (gap - 1) := if_neg (by omega)

theorem gapEnd_of_lt (h : gap < s.length) : gapEnd s F gap = segStart s gap := if_pos h

theorem gapEnd_of_le (h : s.length ≤ gap) : gapEnd s F gap = F.maxKey := if_neg (by omega)

end Lemmas

end Segment
