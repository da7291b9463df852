import Mathlib
import Gvisor.Lib.Outcome
import Gvisor.Segment.Lookup

/-! `SpanRange`, the total length of the set's segments within a range, and `IsEmptyRange`, which
decides whether that total is zero from one `Find` and the end of the gap it stops in. -/

namespace Segment

variable {V : Type*} [Inhabited V]

/-- The loop of `SpanRange`, over the segments from `LowerBoundSegment(r.Start)` on. -/
def spanRangeLoop (r : Range) : List (Range × V) → ℕ
  | [] => 0
  | p :: ps => if p.1.Start < r.End then (p.1.intersect r).length + spanRangeLoop r ps else 0

/-- `SpanRange`. Keys are `uint64`, as in `Add` and `Insert`: `r.Length() < 0` never holds, so
the panic is never reached, and `r.Length() == 0` is `r.End = r.Start`. -/
def spanRange (s : List (Range × V)) (r : Range) : Outcome Unit ℕ :=
  if r.End = r.Start then .ok 0
  else .ok (spanRangeLoop r (s.drop (lowerBoundSegment s r.Start)))

/-- `IsEmptyRange`, on `uint64` keys as `SpanRange`. -/
def isEmptyRange (F : Functions V) (s : List (Range × V)) (r : Range) : Outcome Unit Bool :=
  if r.End = r.Start then .ok true
  else
    let (_, gap) := find s r.Start
    if gap ≤ s.length then .ok (decide (r.End ≤ gapEnd s F gap)) else .ok false

/-- The total length of the set's segments within `r`. -/
def spanOf (s : List (Range × V)) (r : Range) : ℕ := (s.map fun p => (p.1.intersect r).length).sum

theorem Range.length_intersect (r r2 : Range) :
    (r.intersect r2).length = min r.End r2.End - max r.Start r2.Start := by
  simp only [Range.length, Range.intersect_end, Range.intersect_start]
  omega

variable {F : Functions V} {s : List (Range × V)} {r : Range}

omit [Inhabited V] in
/-- Over segments sorted by start, the loop stops only where every later segment misses `r`. -/
theorem spanRangeLoop_eq_sum {l : List (Range × V)} (hl : l.Pairwise fun p q => p.1.Start ≤ q.1.Start) :
    spanRangeLoop r l = (l.map fun p => (p.1.intersect r).length).sum := by
  induction l with
  | nil => rfl
  | cons p ps ih =>
    rw [List.pairwise_cons] at hl
    rw [spanRangeLoop, List.map_cons, List.sum_cons]
    split_ifs with h
    · rw [ih hl.2]
    -- from `p` on, every segment starts at or after `r.End`
    have hz : ∀ q ∈ p :: ps, (q.1.intersect r).length = 0 := by
      intro q hq
      have : p.1.Start ≤ q.1.Start := by
        rcases List.mem_cons.1 hq with rfl | hq
        · exact le_refl _
        · exact hl.1 q hq
      rw [Range.length_intersect]
      omega
    have hsum : (ps.map fun q => (q.1.intersect r).length).sum = 0 := List.sum_eq_zero fun n hn => by
      obtain ⟨q, hq, rfl⟩ := List.mem_map.1 hn
      exact hz q (List.mem_cons_of_mem _ hq)
    rw [hz p List.mem_cons_self, hsum]

/-- The segments before `LowerBoundSegment(r.Start)` end by `r.Start`, so the loop from it sums
the whole set's. -/
theorem spanRangeLoop_lowerBound (hw : WellFormed F s) :
    spanRangeLoop r (s.drop (lowerBoundSegment s r.Start)) = spanOf s r := by
  rw [spanRangeLoop_eq_sum (hw.pairwise_start.sublist (List.drop_sublist _ _)), spanOf,
    ← List.take_append_drop (lowerBoundSegment s r.Start) s, List.map_append, List.sum_append,
    List.take_append_drop]
  suffices h : ((s.take (lowerBoundSegment s r.Start)).map fun p => (p.1.intersect r).length).sum = 0 by
    rw [h, Nat.zero_add]
  refine List.sum_eq_zero fun n hn => ?_
  obtain ⟨p, hp, rfl⟩ := List.mem_map.1 hn
  obtain ⟨j, hj, -, rfl⟩ := exists_of_mem_take hp
  rw [lowerBoundSegment_eq] at hj
  have := segEnd_le_of_lt_findIdx hj
  rw [Range.length_intersect]
  simp only [segEnd] at this
  dsimp only
  omega

omit [Inhabited V] in
/-- An empty range meets no segment. -/
theorem spanOf_eq_zero (hl : r.length = 0) : spanOf s r = 0 := by
  refine List.sum_eq_zero fun n hn => ?_
  obtain ⟨p, -, rfl⟩ := List.mem_map.1 hn
  rw [Range.length_intersect]
  unfold Range.length at hl
  omega

/-- `SpanRange` never panics: a range that ends before it starts meets no segment in
`Intersect`, and its span is 0. -/
theorem spanRange_eq (hw : WellFormed F s) : spanRange s r = .ok (spanOf s r) := by
  rw [spanRange]
  split_ifs with hl
  · rw [spanOf_eq_zero (by unfold Range.length; omega)]
  · rw [spanRangeLoop_lowerBound hw]

theorem isEmptyRange_eq (hw : WellFormed F s) (hr : r.Start ≤ r.End) (hmax : r.End ≤ F.maxKey) :
    isEmptyRange F s r = .ok (decide (spanOf s r = 0)) := by
  rw [isEmptyRange]
  split_ifs with hl
  · rw [spanOf_eq_zero (by unfold Range.length; omega)]
    rfl
  have hr' : r.Start < r.End := by omega
  unfold find
  dsimp only
  -- `i` is the first segment that ends after `r.Start`
  generalize hi : s.findIdx (fun p => decide (r.Start < p.1.End)) = i
  have hend : i < s.length → r.Start < segEnd s i := fun h => hi ▸ segEnd_findIdx (hi ▸ h)
  -- the part of segment `i` in `r`, counted in the span
  have hpart : i < s.length → ((segRange s i).intersect r).length ≤ spanOf s r := fun h =>
    List.le_sum_of_mem (List.mem_map_of_mem (f := fun p : Range × V => (p.1.intersect r).length)
      (mem_of_lt_length h))
  by_cases hs : i < s.length ∧ segStart s i ≤ r.Start
  · -- `r.Start` is in segment `i`
    rw [if_pos hs, if_neg (by omega)]
    have hpos : 0 < ((segRange s i).intersect r).length := by
      have := hend hs.1
      have := hs.2
      rw [Range.length_intersect]
      simp only [segStart, segEnd] at *
      omega
    have := hpart hs.1
    simp only [Outcome.ok.injEq]
    exact (decide_eq_false (by omega)).symm
  rw [if_neg hs, if_pos (hi ▸ List.findIdx_le_length)]
  simp only [Outcome.ok.injEq, decide_eq_decide]
  constructor
  · -- segments before `i` end by `r.Start`, the others start from the gap's end
    intro hle
    refine List.sum_eq_zero fun n hn => ?_
    obtain ⟨p, hp, rfl⟩ := List.mem_map.1 hn
    obtain ⟨j, hj, rfl⟩ := List.mem_iff_getElem.1 hp
    rw [getElem_eq hj, Range.length_intersect]
    by_cases hji : j < i
    · have := segEnd_le_of_lt_findIdx (hi ▸ hji)
      simp only [segEnd] at this
      dsimp only
      omega
    · have := hw.gapEnd_le_segStart (Nat.le_of_not_lt hji) hj
      simp only [segStart] at this
      dsimp only
      omega
  · -- else segment `i` starts before `r.End`, and its part in `r` is not empty
    intro h0
    refine Nat.le_of_not_lt fun hlt => ?_
    have hil : i < s.length := by
      refine Nat.lt_of_not_le fun h => ?_
      rw [gapEnd_of_le h] at hlt
      omega
    rw [gapEnd_of_lt hil] at hlt
    have he := hend hil
    have hp := hpart hil
    have hne := (hw.range i hil).2.1
    rw [Range.length_intersect, h0] at hp
    simp only [segStart, segEnd] at hlt he hne
    omega

/-- `SpanRange` sums the lengths of the segments' parts in the range, and `IsEmptyRange` says
exactly whether that sum is zero. -/
theorem isEmptyRange_iff_spanRange_zero (hw : WellFormed F s) (hr : r.Start ≤ r.End)
    (hmax : r.End ≤ F.maxKey) :
    spanRange s r = .ok (s.map fun p => (p.1.intersect r).length).sum ∧
      isEmptyRange F s r = .ok (decide ((s.map fun p => (p.1.intersect r).length).sum = 0)) :=
  ⟨spanRange_eq hw, isEmptyRange_eq hw hr hmax⟩

theorem isEmptyRange_iff_spanRange_zero_overlap :
    spanRange [(⟨2, 5⟩, ())] ⟨4, 8⟩ = .ok 1 ∧
      isEmptyRange (⟨0, 100, fun _ _ _ _ => none, fun _ v _ => (v, v)⟩ : Functions Unit)
        [(⟨2, 5⟩, ())] ⟨4, 8⟩ = .ok false := by
  obtain ⟨h1, h2⟩ := isEmptyRange_iff_spanRange_zero
    (F := (⟨0, 100, fun _ _ _ _ => none, fun _ v _ => (v, v)⟩ : Functions Unit))
    (s := [(⟨2, 5⟩, ())]) (r := ⟨4, 8⟩) ⟨by decide, fun _ hi => absurd hi (by simp)⟩ (by decide) (by decide)
  rw [h1, h2]
  exact ⟨rfl, rfl⟩

end Segment
