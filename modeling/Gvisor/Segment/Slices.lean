import Mathlib.Data.List.GetD
import Gvisor.Lib.Outcome
import Gvisor.Segment.Lookup

/-! `ExportSortedSlices` and `ImportSortedSlices`, the flat form of a set that save and restore
use. Import checks each range against the gap it goes into, which catches ranges that overlap
or are out of order, but not an empty range, on which `InsertWithoutMerging` panics, nor a
reversed one, whose `uint64` length is not zero. -/

namespace Segment

variable {V : Type} [Inhabited V]

/-- `SegmentDataSlices`. -/
structure SegmentDataSlices (V : Type) where
  Start : List ℕ
  End : List ℕ
  Values : List V

/-- The errors of `ImportSortedSlices`, with the data their messages print. -/
inductive ImportError (V : Type) where
  /-- "cannot import into non-empty set %v" -/
  | nonEmpty
  /-- "segment overlaps a preceding segment or is incorrectly sorted: [%d, %d) => %v" -/
  | overlaps (Start End : ℕ) (Value : V)

/-- `ExportSortedSlices`, walking the segments from `FirstSegment` by `NextSegment`. -/
def exportSortedSlices (s : List (Range × V)) : SegmentDataSlices V :=
  ⟨s.map fun p => p.1.Start, s.map fun p => p.1.End, s.map Prod.snd⟩

variable (F : Functions V)

/-- The loop of `ImportSortedSlices` at the gap `gap`, over the entries of the slices still to
come: the set it leaves and the error it returns. -/
def importLoop : List (Range × V) → ℕ → List ℕ → List ℕ → List V →
    Outcome Unit (List (Range × V) × Option (ImportError V))
  | s, _, [], _, _ => .ok (s, none)
  | s, gap, start :: starts, e :: ends, v :: vs =>
    if !(gapRange s F gap).isSupersetOf ⟨start, e⟩ then .ok (s, some (.overlaps start e v))
    -- `InsertWithoutMerging` repeats the superset check and panics on `r.Length() <= 0`, which
    -- for `uint64` keys is an empty range only
    else if start = e then .panic
    else
      let (s, seg) := insertWithoutMergingUnchecked s gap ⟨start, e⟩ v
      importLoop s (seg + 1) starts ends vs
  -- `sds.End[i]` or `sds.Values[i]` out of range
  | _, _, _ :: _, _, _ => .panic

/-- `ImportSortedSlices`: the set it leaves and the error it returns. -/
def importSortedSlices (s : List (Range × V)) (sds : SegmentDataSlices V) :
    Outcome Unit (List (Range × V) × Option (ImportError V)) :=
  if s.length ≠ 0 then .ok (s, some .nonEmpty)
  else importLoop F s 0 sds.Start sds.End sds.Values

variable {F} {l post : List (Range × V)} {p : Range × V}

theorem segRange_append_left {l' : List (Range × V)} {i : ℕ} (h : i < l.length) :
    segRange (l ++ l') i = segRange l i := by
  rw [segRange, segRange, List.getD_append _ _ _ _ h]

theorem segRange_append_length : segRange (l ++ p :: post) l.length = p.1 := by
  rw [segRange, List.getD_append_right _ _ _ _ (Nat.le_refl _), Nat.sub_self]
  rfl

/-- A well-formed set is a well-formed prefix and, in the gap after it, the segments that come
after. -/
theorem WellFormed.of_append (hw : WellFormed F (l ++ p :: post)) :
    WellFormed F l ∧ InGap F l l.length p.1 := by
  have hl : l.length < (l ++ p :: post).length := by simp
  have hp := hw.range l.length hl
  simp only [segStart, segEnd, segRange_append_length] at hp
  refine ⟨⟨fun i hi => ?_, fun i hi => ?_⟩, ⟨Nat.le_refl _, ?_, hp.2.1, ?_⟩⟩
  · have := hw.range i (by simp; omega)
    simp only [segStart, segEnd, segRange_append_left hi] at this ⊢
    exact this
  · have := hw.sorted i (by simp; omega)
    simp only [segStart, segEnd, segRange_append_left hi, segRange_append_left (Nat.lt_of_succ_lt hi)]
      at this ⊢
    exact this
  · rcases Nat.eq_zero_or_pos l.length with h0 | hpos
    · rw [h0, gapStart, if_pos rfl]
      exact hp.1
    · rw [gapStart_of_pos hpos]
      have := hw.sorted (l.length - 1) (by simp; omega)
      rw [Nat.sub_add_cancel hpos] at this
      simp only [segStart, segEnd, segRange_append_length, segRange_append_left (by omega : l.length - 1 < l.length)]
        at this ⊢
      exact this
  · rw [gapEnd_of_le (Nat.le_refl _)]
    exact hp.2.2

theorem WellFormed.concat (hw : WellFormed F l) (hg : InGap F l l.length p.1) :
    WellFormed F (l ++ [p]) := by
  have := hw.insertIdx (v := p.2) hg
  rwa [List.insertIdx_length_self] at this

/-- From a well-formed prefix, at the gap after it, the loop over the entries of non-empty
segments `post` builds the prefix and `post` when that is a well-formed set, and otherwise stops
with an error. -/
theorem importLoop_spec (hne : ∀ q ∈ post, q.1.Start < q.1.End) :
    ∀ l, WellFormed F l → ∃ s' e, importLoop F l l.length (post.map fun q => q.1.Start)
      (post.map fun q => q.1.End) (post.map Prod.snd) = .ok (s', e) ∧
      (e = none ↔ WellFormed F (l ++ post)) ∧ (e = none → s' = l ++ post) := by
  induction post with
  | nil =>
    intro l hw
    exact ⟨l, none, rfl, by simp [hw], by simp⟩
  | cons p post ih =>
    intro l hw
    simp only [List.map_cons]
    rw [importLoop]
    by_cases hsup : (gapRange l F l.length).isSupersetOf ⟨p.1.Start, p.1.End⟩ = true
    swap
    · -- the range does not fit the gap, so no well-formed set has it next
      rw [if_pos (by simpa using hsup)]
      refine ⟨l, _, rfl, ⟨fun h => absurd h (by simp), fun hw' => absurd ?_ hsup⟩, fun h => absurd h (by simp)⟩
      obtain ⟨-, hg⟩ := hw'.of_append
      simp [Range.isSupersetOf, gapRange, hg.start_le, hg.end_le]
    have hp := hne p List.mem_cons_self
    rw [if_neg (by simpa using hsup), if_neg (Nat.ne_of_lt hp)]
    simp only [Range.isSupersetOf, gapRange, Bool.and_eq_true] at hsup
    have hg : InGap F l l.length p.1 :=
      ⟨Nat.le_refl _, of_decide_eq_true hsup.1, hp, of_decide_eq_true hsup.2⟩
    obtain ⟨s', e, h, he, hs'⟩ := ih (fun q hq => hne q (List.mem_cons_of_mem _ hq)) (l ++ [p])
      (hw.concat hg)
    rw [List.append_assoc, List.singleton_append] at he hs'
    refine ⟨s', e, ?_, he, hs'⟩
    rw [insertWithoutMergingUnchecked, List.insertIdx_length_self]
    simpa using h

/-- Into an empty set, `ImportSortedSlices` of the slices of non-empty segments builds exactly
them when they form a well-formed set, and otherwise returns an error. -/
theorem importSortedSlices_spec {segs : List (Range × V)} (hne : ∀ q ∈ segs, q.1.Start < q.1.End) :
    ∃ s' e, importSortedSlices F [] (exportSortedSlices segs) = .ok (s', e) ∧
      (e = none ↔ WellFormed F segs) ∧ (e = none → s' = segs) := by
  simpa [importSortedSlices, exportSortedSlices] using importLoop_spec hne [] .nil

/-- `ImportSortedSlices` of `ExportSortedSlices` of a well-formed set rebuilds it in an empty set;
and of the slices of any non-empty segments it builds exactly them when they form a well-formed
set, and otherwise returns an error. -/
theorem importSortedSlices_export {s : List (Range × V)} (hw : WellFormed F s) (segs : List (Range × V))
    (hne : ∀ q ∈ segs, q.1.Start < q.1.End) :
    importSortedSlices F [] (exportSortedSlices s) = .ok (s, none) ∧
      ∃ s' e, importSortedSlices F [] (exportSortedSlices segs) = .ok (s', e) ∧
        (e = none ↔ WellFormed F segs) ∧ (e = none → s' = segs) := by
  refine ⟨?_, importSortedSlices_spec hne⟩
  obtain ⟨s', e, h, he, hs'⟩ := importSortedSlices_spec (F := F) fun q hq => hw.start_lt_end_of_mem hq
  obtain rfl : e = none := he.2 hw
  rw [h, hs' rfl]

theorem importSortedSlices_export_overlap :
    importSortedSlices (⟨0, 100, fun _ _ _ _ => none, fun _ v _ => (v, v)⟩ : Functions Unit) []
        (exportSortedSlices [(⟨2, 5⟩, ())]) = .ok ([(⟨2, 5⟩, ())], none) ∧
      ∃ s' e, importSortedSlices (⟨0, 100, fun _ _ _ _ => none, fun _ v _ => (v, v)⟩ : Functions Unit) []
        (exportSortedSlices [(⟨2, 5⟩, ()), (⟨4, 8⟩, ())]) = .ok (s', e) ∧ e ≠ none := by
  obtain ⟨h1, s', e, h2, he, -⟩ := importSortedSlices_export
    (F := (⟨0, 100, fun _ _ _ _ => none, fun _ v _ => (v, v)⟩ : Functions Unit)) (s := [(⟨2, 5⟩, ())])
    ⟨by decide, fun _ hi => absurd hi (by simp)⟩ [(⟨2, 5⟩, ()), (⟨4, 8⟩, ())] (by decide)
  refine ⟨h1, s', e, h2, fun h => ?_⟩
  exact absurd ((he.1 h).sorted 0 (by decide)) (by decide)

/-- An empty range makes `ImportSortedSlices` panic, and a reversed one, which fits the gap, is
imported without an error into a set that is not well formed. -/
theorem importSortedSlices_empty_or_reversed_range :
    importSortedSlices (⟨0, 100, fun _ _ _ _ => none, fun _ v _ => (v, v)⟩ : Functions Unit) []
        ⟨[5], [5], [()]⟩ = .panic ∧
      importSortedSlices (⟨0, 100, fun _ _ _ _ => none, fun _ v _ => (v, v)⟩ : Functions Unit) []
        ⟨[5], [3], [()]⟩ = .ok ([(⟨5, 3⟩, ())], none) ∧
      ¬WellFormed (⟨0, 100, fun _ _ _ _ => none, fun _ v _ => (v, v)⟩ : Functions Unit) [(⟨5, 3⟩, ())] :=
  ⟨rfl, rfl, fun hw => absurd (hw.range 0 (by decide)).2.1 (by decide)⟩

end Segment
