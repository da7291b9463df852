import Mathlib
import Gvisor.Segment.BTreeRemove
import Gvisor.Segment.Ops

/-! The mutators of a `Set` built from `InsertWithoutMergingUnchecked`, `Remove` and the setters
(pkg/segment/set.go): `Insert` with its merges into the neighbours, `MergeUnchecked`,
`SplitUnchecked` and `Isolate`, on the B-tree. Each refines the function of the same name on the
`Set`'s list (`Segment.insert` and the rest): the tree it leaves holds that function's list, the
iterator it returns stands at that function's index, and the tree is still a B-tree, so what is
proved of the list model holds of the tree. -/

namespace Segment

open MultiwayTree Node

variable {V : Type} [Inhabited V]

namespace BTree

/-! ## Reading the list through the tree -/

section Read

variable {t : node V} {h : ℕ} {c : Cursor}

theorem segRange_eq (hb : Balanced t h) (hc : ValidSeg t c) :
    (segment t c).1 = segRange t.flatten (rank t c) := by
  rw [segment_eq hb.shape hc]
  rfl

theorem segStart_eq (hb : Balanced t h) (hc : ValidSeg t c) :
    (segment t c).1.Start = segStart t.flatten (rank t c) := by
  rw [segRange_eq hb hc]
  rfl

theorem segEnd_eq (hb : Balanced t h) (hc : ValidSeg t c) :
    (segment t c).1.End = segEnd t.flatten (rank t c) := by
  rw [segRange_eq hb hc]
  rfl

theorem value_eq (hb : Balanced t h) (hc : ValidSeg t c) :
    (segment t c).2 = value t.flatten (rank t c) := by
  rw [segment_eq hb.shape hc]
  rfl

omit [Inhabited V] in
/-- The terminal segment iterator is the only one past the last segment. -/
theorem SegAt.eq_none (hb : Balanced t h) {r : Option Cursor} (hr : SegAt t t.flatten.length r) :
    r = none := by
  obtain ⟨hidx, hv⟩ := hr
  cases r with
  | none => rfl
  | some c => exact absurd hidx (Nat.ne_of_lt (rank_lt_of_validSeg hb.shape (hv c rfl)))

omit [Inhabited V] in
/-- A gap iterator at an index up to the list's length is not the terminal one. -/
theorem GapAt.eq_some {r : Option Cursor} {k : ℕ} (hr : GapAt t k r)
    (hk : k ≤ t.flatten.length) : ∃ c, r = some c ∧ ValidGap t c ∧ rank t c = k := by
  obtain ⟨hidx, hv⟩ := hr
  cases r with
  | none => exact absurd hidx (by simp only [gapIndex]; omega)
  | some c => exact ⟨c, rfl, hv c rfl, hidx⟩

variable {gap : Cursor}

omit [Inhabited V] in
/-- `gap.NextSegment()` is terminal after the last segment. -/
theorem nextSegment_eq_none (hb : Balanced t h) (hg : ValidGap t gap)
    (hk : ¬rank t gap < t.flatten.length) : GapIterator.nextSegment t gap = none := by
  have hnext := GapIterator.nextSegment_spec hb.shape hg
  rw [le_antisymm (rank_le_of_validGap hg) (Nat.le_of_not_lt hk)] at hnext
  exact SegAt.eq_none hb hnext

omit [Inhabited V] in
/-- `gap.PrevSegment()` is terminal before the first segment. -/
theorem prevSegment_eq_none (hb : Balanced t h) (hg : ValidGap t gap) (h0 : rank t gap = 0) :
    GapIterator.prevSegment gap = none := by
  have hprev := GapIterator.prevSegment_spec hb.shape hg
  rw [if_pos h0] at hprev
  exact SegAt.eq_none hb hprev

end Read

/-! ## Results that stand for the list's -/

/-- The tree and segment iterator `r` stand for the list and index `l`: the tree holds the list,
the iterator is at the index, and the tree is a B-tree. -/
structure SegResult (r : node V × Option Cursor) (l : List (Range × V) × ℕ) : Prop where
  flatten_eq : r.1.flatten = l.1
  segAt : SegAt r.1 l.2 r.2
  balanced : ∃ h, Balanced r.1 h

section Results

variable {t t' : node V} {h : ℕ} {c gap : Cursor}

omit [Inhabited V] in
/-- A tree rewritten in place, with an iterator of the tree before. -/
theorem SegResult.of_inPlaceOf (hi : InPlaceOf t t' h) (hc : ValidSeg t c) :
    SegResult (t', some c) (t'.flatten, rank t c) :=
  ⟨rfl, ⟨hi.rank_eq_of_validSeg hc, fun _ hc' => by cases hc'; exact hi.validSeg hc⟩, h,
    hi.balanced⟩

omit [Inhabited V] in
/-- Two setters on one segment write the list twice at the iterator's index. -/
theorem flatten_modifySegment_twice (hb : Balanced t h) (hc : ValidSeg t c)
    (f g : Range × V → Range × V) :
    (modifySegment (modifySegment t c f) c g).flatten =
      (t.flatten.modify (rank t c) f).modify (rank t c) g := by
  have hi := (InPlaceOf.refl hb).modifySegment hc f
  rw [flatten_modifySegment g hi.balanced (hi.validSeg hc), hi.rank_eq_of_validSeg hc,
    flatten_modifySegment f hb hc]

omit [Inhabited V] in
theorem inPlaceOf_modifySegment_twice (hb : Balanced t h) (hc : ValidSeg t c)
    (f g : Range × V → Range × V) : InPlaceOf t (modifySegment (modifySegment t c f) c g) h :=
  ((InPlaceOf.refl hb).modifySegment hc f).modifySegment hc g

omit [Inhabited V] in
/-- `seg.SetEndUnchecked(e)` then `seg.SetValue(v)`. -/
theorem flatten_setEnd_setValue (hb : Balanced t h) (hc : ValidSeg t c) (e : ℕ) (v : V) :
    (Iterator.setValue (Iterator.setEndUnchecked t c e) c v).flatten =
      setValue (setEndUnchecked t.flatten (rank t c) e) (rank t c) v :=
  flatten_modifySegment_twice hb hc _ _

omit [Inhabited V] in
theorem inPlaceOf_setEnd_setValue (hb : Balanced t h) (hc : ValidSeg t c) (e : ℕ) (v : V) :
    InPlaceOf t (Iterator.setValue (Iterator.setEndUnchecked t c e) c v) h :=
  inPlaceOf_modifySegment_twice hb hc _ _

omit [Inhabited V] in
/-- `seg.SetStartUnchecked(e)` then `seg.SetValue(v)`. -/
theorem flatten_setStart_setValue (hb : Balanced t h) (hc : ValidSeg t c) (e : ℕ) (v : V) :
    (Iterator.setValue (Iterator.setStartUnchecked t c e) c v).flatten =
      setValue (setStartUnchecked t.flatten (rank t c) e) (rank t c) v :=
  flatten_modifySegment_twice hb hc _ _

omit [Inhabited V] in
theorem inPlaceOf_setStart_setValue (hb : Balanced t h) (hc : ValidSeg t c) (e : ℕ) (v : V) :
    InPlaceOf t (Iterator.setValue (Iterator.setStartUnchecked t c e) c v) h :=
  inPlaceOf_modifySegment_twice hb hc _ _

variable (r : Range) (val : V)

theorem insertWithoutMergingUnchecked_result (hb : Balanced t h) (hg : ValidGap t gap) :
    SegResult (Prod.map id some (Set.insertWithoutMergingUnchecked t gap r val))
      (insertWithoutMergingUnchecked t.flatten (rank t gap) r val) := by
  obtain ⟨hflat, hrank, hv⟩ := insertWithoutMergingUnchecked_refines r val hb hg
  obtain ⟨h', -, hb'⟩ := insertWithoutMergingUnchecked_balanced r val hb hg
  exact ⟨hflat, ⟨hrank, fun _ hc => by cases hc; exact hv⟩, h', hb'⟩

end Results

/-! ## `Insert` and `MergeUnchecked` -/

namespace Set

variable (F : Functions V)

/-- `first.SetEndUnchecked(second.End())`, `first.SetValue(mval)`, then
`s.Remove(second).PrevSegment()`: `second` merged into `first`, as both `Insert` and
`MergeUnchecked` end. -/
def mergeInto (t : node V) (first second : Cursor) (mval : V) : node V × Option Cursor :=
  let t₁ := Iterator.setValue (Iterator.setEndUnchecked t first (segment t second).1.End) first mval
  let res := remove t₁ second
  (res.1, res.2.bind GapIterator.prevSegment)

/-- The part of `s.Insert(gap, r, val)` after it did not merge into the previous segment: merged
into `next` where it ends at `next.Start()` and `Merge` merges them, else
`InsertWithoutMergingUnchecked`. -/
def insertMergeNext (t : node V) (gap : Cursor) (r : Range) (val : V) : node V × Option Cursor :=
  match GapIterator.nextSegment t gap with
  | some next =>
    if (segment t next).1.Start = r.End then
      match F.merge r val (segment t next).1 (segment t next).2 with
      | some mval =>
        (Iterator.setValue (Iterator.setStartUnchecked t next r.Start) next mval, some next)
      | none => Prod.map id some (insertWithoutMergingUnchecked t gap r val)
    else Prod.map id some (insertWithoutMergingUnchecked t gap r val)
  | none => Prod.map id some (insertWithoutMergingUnchecked t gap r val)

/-- `s.Insert(gap, r, val)` past its assertions: merged into `prev` where that ends at `r.Start`
and `Merge` merges them, and then `next` merged into it too where that starts at `r.End`. The
iterators `prev` and `next` are read before and stay valid through the setters. -/
def insert (t : node V) (gap : Cursor) (r : Range) (val : V) : node V × Option Cursor :=
  match GapIterator.prevSegment gap with
  | some prev =>
    if (segment t prev).1.End = r.Start then
      match F.merge (segment t prev).1 (segment t prev).2 r val with
      | some mval =>
        let t₁ := Iterator.setValue (Iterator.setEndUnchecked t prev r.End) prev mval
        match GapIterator.nextSegment t gap with
        | some next =>
          if (segment t₁ next).1.Start = r.End then
            match F.merge (segment t₁ prev).1 mval (segment t₁ next).1 (segment t₁ next).2 with
            | some mval => mergeInto t₁ prev next mval
            | none => (t₁, some prev)
          else (t₁, some prev)
        | none => (t₁, some prev)
      | none => insertMergeNext F t gap r val
    else insertMergeNext F t gap r val
  | none => insertMergeNext F t gap r val

/-- `s.MergeUnchecked(first, second)`: the merged segment where `first` ends where `second`
starts and `Merge` merges them, else the terminal iterator and the tree as it was. -/
def mergeUnchecked (t : node V) (first second : Cursor) : node V × Option Cursor :=
  if (segment t first).1.End = (segment t second).1.Start then
    match F.merge (segment t first).1 (segment t first).2 (segment t second).1
      (segment t second).2 with
    | some mval => mergeInto t first second mval
    | none => (t, none)
  else (t, none)

/-- `s.SplitUnchecked(seg, split)`: `seg` ends at `split` with the first value `Split` gives, and
the rest goes into the gap after it with the second; `seg2.PrevSegment()` and `seg2`. -/
def splitUnchecked (t : node V) (seg : Cursor) (split : ℕ) : node V × Option Cursor × Cursor :=
  let vals := F.split (segment t seg).1 (segment t seg).2 split
  let end2 := (segment t seg).1.End
  let t₁ := Iterator.setValue (Iterator.setEndUnchecked t seg split) seg vals.1
  let res := insertWithoutMergingUnchecked t₁ (Iterator.nextGap t₁ seg) ⟨split, end2⟩ vals.2
  (res.1, Iterator.prevSegment res.1 res.2, res.2)

/-- `s.Isolate(seg, r)`: `seg` cut at `r.Start` and then at `r.End` where they fall strictly
inside it, and the part between. -/
def isolate (t : node V) (seg : Cursor) (r : Range) : node V × Option Cursor :=
  let first : node V × Cursor :=
    if (segment t seg).1.canSplitAt r.Start then
      let res := splitUnchecked F t seg r.Start
      (res.1, res.2.2)
    else (t, seg)
  if (segment first.1 first.2).1.canSplitAt r.End then
    let res := splitUnchecked F first.1 first.2 r.End
    (res.1, res.2.1)
  else (first.1, some first.2)

section Refines

variable {t : node V} {h : ℕ} {first second gap : Cursor} (r : Range) (val : V)

/-- Merging `second` into `first` is merging them on the list: `first`'s end and value written,
`second` removed, and the iterator at the index before `second`'s. -/
theorem mergeInto_refines (hb : Balanced t h) (hf : ValidSeg t first) (hs : ValidSeg t second)
    (hpos : 0 < rank t second) (mval : V) :
    SegResult (mergeInto t first second mval)
      ((Segment.remove (setValue (setEndUnchecked t.flatten (rank t first)
        (segEnd t.flatten (rank t second))) (rank t first) mval) (rank t second)).1,
        rank t second - 1) := by
  have hi := inPlaceOf_setEnd_setValue hb hf (segment t second).1.End mval
  have hflat₁ := flatten_setEnd_setValue hb hf (segment t second).1.End mval
  have hrank₁ := hi.rank_eq_of_validSeg hs
  unfold mergeInto
  generalize Iterator.setValue (Iterator.setEndUnchecked t first (segment t second).1.End)
    first mval = t₁ at hi hflat₁ hrank₁ ⊢
  obtain ⟨hflat, hgap, h', -, hb'⟩ := remove_spec hi.balanced (hi.validSeg hs)
  have hlt := rank_lt_of_validSeg hi.balanced.shape (hi.validSeg hs)
  obtain ⟨g, hg, hgv, hgr⟩ := hgap.eq_some (by
    rw [hflat, Segment.remove, List.length_eraseIdx_of_lt hlt]
    omega)
  have hprev := GapIterator.prevSegment_spec hb'.shape hgv
  rw [hgr, Segment.remove, hrank₁, if_neg (Nat.ne_of_gt hpos)] at hprev
  refine ⟨?_, ?_, h', hb'⟩
  · rw [hflat, hflat₁, hrank₁, segEnd_eq hb hs]
  · dsimp only
    rw [hg, Option.bind_some]
    exact hprev

theorem insertMergeNext_refines (hb : Balanced t h) (hg : ValidGap t gap) :
    SegResult (insertMergeNext F t gap r val)
      (Segment.insertMergeNext F t.flatten (rank t gap) r val) := by
  have hnext := GapIterator.nextSegment_spec hb.shape hg
  unfold insertMergeNext Segment.insertMergeNext
  by_cases hk : rank t gap < t.flatten.length
  · obtain ⟨next, hn, hv, hrank⟩ := hnext.eq_some hk
    rw [hn]
    dsimp only
    rw [segStart_eq hb hv, segRange_eq hb hv, value_eq hb hv, hrank]
    by_cases hst : segStart t.flatten (rank t gap) = r.End
    · rw [if_pos hst, if_pos ⟨hk, hst⟩]
      cases F.merge r val (segRange t.flatten (rank t gap)) (value t.flatten (rank t gap)) with
      | none => exact insertWithoutMergingUnchecked_result r val hb hg
      | some mval =>
        -- the new segment merged into `next`, in place
        have hres := SegResult.of_inPlaceOf (inPlaceOf_setStart_setValue hb hv r.Start mval) hv
        rw [flatten_setStart_setValue hb hv, hrank] at hres
        exact hres
    · rw [if_neg hst, if_neg fun h => hst h.2]
      exact insertWithoutMergingUnchecked_result r val hb hg
  · rw [nextSegment_eq_none hb hg hk, if_neg fun h => hk h.1]
    exact insertWithoutMergingUnchecked_result r val hb hg

/-- `Insert` on the tree is `insert` on its list. -/
theorem insert_refines (hb : Balanced t h) (hg : ValidGap t gap) :
    SegResult (insert F t gap r val) (Segment.insert F t.flatten (rank t gap) r val) := by
  have hprev := GapIterator.prevSegment_spec hb.shape hg
  have hle := rank_le_of_validGap hg
  unfold insert Segment.insert
  by_cases hk0 : rank t gap = 0
  · rw [prevSegment_eq_none hb hg hk0, if_neg fun h => Nat.ne_of_gt h.1 hk0]
    exact insertMergeNext_refines F r val hb hg
  rw [if_neg hk0] at hprev
  obtain ⟨prev, hp, hpv, hprank⟩ := hprev.eq_some (by omega)
  rw [hp]
  dsimp only
  rw [segEnd_eq hb hpv, segRange_eq hb hpv, value_eq hb hpv, hprank]
  by_cases hend : segEnd t.flatten (rank t gap - 1) = r.Start
  swap
  · rw [if_neg hend, if_neg fun h => hend h.2]
    exact insertMergeNext_refines F r val hb hg
  rw [if_pos hend, if_pos ⟨Nat.pos_of_ne_zero hk0, hend⟩]
  cases F.merge (segRange t.flatten (rank t gap - 1)) (value t.flatten (rank t gap - 1)) r val with
  | none => exact insertMergeNext_refines F r val hb hg
  | some mval =>
    -- the new segment merged into `prev`, in place; `next` is read again after that
    have hi := inPlaceOf_setEnd_setValue hb hpv r.End mval
    have hflat₁ := flatten_setEnd_setValue hb hpv r.End mval
    rw [hprank] at hflat₁
    dsimp only
    rw [← hflat₁]
    generalize Iterator.setValue (Iterator.setEndUnchecked t prev r.End) prev mval = t₁ at hi hflat₁ ⊢
    have hlen₁ : t₁.flatten.length = t.flatten.length := by
      rw [hflat₁, length_setValue, length_setEndUnchecked]
    have hprank₁ : rank t₁ prev = rank t gap - 1 := (hi.rank_eq_of_validSeg hpv).trans hprank
    have hres : SegResult (t₁, some prev) (t₁.flatten, rank t gap - 1) := by
      rw [← hprank]
      exact SegResult.of_inPlaceOf hi hpv
    by_cases hk : rank t gap < t.flatten.length
    swap
    · rw [nextSegment_eq_none hb hg hk, if_neg fun h => hk (hlen₁ ▸ h.1)]
      exact hres
    obtain ⟨next, hn, hnv, hnrank⟩ := (GapIterator.nextSegment_spec hb.shape hg).eq_some hk
    have hnv₁ := hi.validSeg hnv
    have hnrank₁ : rank t₁ next = rank t gap := (hi.rank_eq_of_validSeg hnv).trans hnrank
    rw [hn]
    dsimp only
    rw [segStart_eq hi.balanced hnv₁, segRange_eq hi.balanced hnv₁,
      segRange_eq hi.balanced (hi.validSeg hpv), value_eq hi.balanced hnv₁, hnrank₁, hprank₁]
    by_cases hst : segStart t₁.flatten (rank t gap) = r.End
    swap
    · rw [if_neg hst, if_neg fun h => hst h.2]
      exact hres
    rw [if_pos hst, if_pos ⟨hlen₁ ▸ hk, hst⟩]
    cases F.merge (segRange t₁.flatten (rank t gap - 1)) mval (segRange t₁.flatten (rank t gap))
      (value t₁.flatten (rank t gap)) with
    | none => exact hres
    | some mval₂ =>
      -- `next` merged into `prev` as well
      have hm := mergeInto_refines hi.balanced (hi.validSeg hpv) hnv₁ (by omega) mval₂
      rw [hprank₁, hnrank₁] at hm
      exact hm

/-- `[25, 30)` inserted into the gap of the right leaf of `twoLevel` merges with the
segments on both sides. -/
theorem insert_refines_twoLevel : Balanced twoLevel 1 ∧ ValidGap twoLevel ⟨[1], 1⟩ ∧
    SegResult (insert mergeAll twoLevel ⟨[1], 1⟩ ⟨25, 30⟩ 0)
      (Segment.insert mergeAll twoLevel.flatten (rank twoLevel ⟨[1], 1⟩) ⟨25, 30⟩ 0) := by
  have hg : ValidGap twoLevel ⟨[1], 1⟩ := ⟨mk [(⟨20, 25⟩, 0), (⟨30, 35⟩, 0)] [], rfl, rfl, by decide⟩
  exact ⟨balanced_twoLevel, hg, insert_refines _ _ _ balanced_twoLevel hg⟩

/-- `MergeUnchecked` on the tree is `mergeUnchecked` on its list: where the list's does not merge,
the tree stays and the iterator is the terminal one. -/
theorem mergeUnchecked_refines (hb : Balanced t h) (hf : ValidSeg t first)
    (hs : ValidSeg t second) (hpos : 0 < rank t second) :
    SegResult (mergeUnchecked F t first second)
      ((Segment.mergeUnchecked F t.flatten (rank t first) (rank t second)).getD
        (t.flatten, t.flatten.length)) := by
  have hnone : SegResult (t, none) (t.flatten, t.flatten.length) :=
    ⟨rfl, ⟨rfl, fun _ hc => by cases hc⟩, h, hb⟩
  unfold mergeUnchecked Segment.mergeUnchecked
  rw [segEnd_eq hb hf, segStart_eq hb hs, segRange_eq hb hf, segRange_eq hb hs, value_eq hb hf,
    value_eq hb hs]
  by_cases hadj : segEnd t.flatten (rank t first) = segStart t.flatten (rank t second)
  · rw [if_pos hadj, if_pos hadj]
    cases F.merge (segRange t.flatten (rank t first)) (value t.flatten (rank t first))
      (segRange t.flatten (rank t second)) (value t.flatten (rank t second)) with
    | none => exact hnone
    | some mval => exact mergeInto_refines hb hf hs hpos mval
  · rw [if_neg hadj, if_neg hadj]
    exact hnone

/-- `[5, 10)`, in the left leaf of `twoLevel`, and `[10, 20)`, in its root, merge: the root's
segment is removed. -/
theorem mergeUnchecked_refines_twoLevel : Balanced twoLevel 1 ∧ ValidSeg twoLevel ⟨[0], 1⟩ ∧
    ValidSeg twoLevel ⟨[], 0⟩ ∧ 0 < rank twoLevel ⟨[], 0⟩ ∧
    SegResult (mergeUnchecked mergeAll twoLevel ⟨[0], 1⟩ ⟨[], 0⟩)
      ((Segment.mergeUnchecked mergeAll twoLevel.flatten (rank twoLevel ⟨[0], 1⟩)
        (rank twoLevel ⟨[], 0⟩)).getD (twoLevel.flatten, twoLevel.flatten.length)) := by
  have hf : ValidSeg twoLevel ⟨[0], 1⟩ := ⟨_, rfl, by decide⟩
  have hs : ValidSeg twoLevel ⟨[], 0⟩ := ⟨_, rfl, by decide⟩
  have hpos : 0 < rank twoLevel ⟨[], 0⟩ := by decide
  exact ⟨balanced_twoLevel, hf, hs, hpos, mergeUnchecked_refines _ balanced_twoLevel hf hs hpos⟩

/-- `SplitUnchecked` on the tree is `splitUnchecked` on its list: both halves at the list's
indices. -/
theorem splitUnchecked_refines (hb : Balanced t h) (hs : ValidSeg t seg) (x : ℕ) :
    SegResult ((splitUnchecked F t seg x).1, (splitUnchecked F t seg x).2.1)
        ((Segment.splitUnchecked F t.flatten (rank t seg) x).1,
          (Segment.splitUnchecked F t.flatten (rank t seg) x).2.1) ∧
      SegAt (splitUnchecked F t seg x).1 (Segment.splitUnchecked F t.flatten (rank t seg) x).2.2
        (some (splitUnchecked F t seg x).2.2) := by
  rw [splitUnchecked_eq]
  unfold splitUnchecked
  rw [segEnd_eq hb hs, segRange_eq hb hs, value_eq hb hs]
  dsimp only
  generalize F.split (segRange t.flatten (rank t seg)) (value t.flatten (rank t seg)) x = vals
  have hi := inPlaceOf_setEnd_setValue hb hs x vals.1
  have hflat₁ := flatten_setEnd_setValue hb hs x vals.1
  generalize Iterator.setValue (Iterator.setEndUnchecked t seg x) seg vals.1 = t₁ at hi hflat₁ ⊢
  -- the second half goes into the gap after the first
  obtain ⟨hgv, hgr⟩ := Iterator.nextGap_spec hi.balanced.shape minDegree_pos (hi.validSeg hs)
  rw [hi.rank_eq_of_validSeg hs] at hgr
  obtain ⟨hflat, hrank, hv⟩ :=
    insertWithoutMergingUnchecked_refines ⟨x, segEnd t.flatten (rank t seg)⟩ vals.2 hi.balanced hgv
  obtain ⟨h', -, hb'⟩ :=
    insertWithoutMergingUnchecked_balanced ⟨x, segEnd t.flatten (rank t seg)⟩ vals.2 hi.balanced hgv
  rw [Segment.insertWithoutMergingUnchecked, hgr, hflat₁] at hflat
  rw [Segment.insertWithoutMergingUnchecked, hgr] at hrank
  have hprev := Iterator.prevSegment_spec hb'.shape minDegree_pos hv
  rw [hrank, if_neg (Nat.succ_ne_zero _), Nat.add_sub_cancel] at hprev
  exact ⟨⟨hflat, hprev, h', hb'⟩, hrank, fun _ hc => by cases hc; exact hv⟩

/-- `Isolate` on the tree is `isolate` on its list. -/
theorem isolate_refines (hb : Balanced t h) (hs : ValidSeg t seg) :
    SegResult (isolate F t seg r) (Segment.isolate F t.flatten (rank t seg) r) := by
  -- the cut at `r.Start`, after which the iterator is to a segment of a B-tree
  obtain ⟨t₁, seg₁, h₁, hb₁, hs₁, hflat₁, hrank₁, hfirst⟩ : ∃ t₁ seg₁ h₁, Balanced t₁ h₁ ∧
      ValidSeg t₁ seg₁ ∧
      t₁.flatten = (if (segRange t.flatten (rank t seg)).canSplitAt r.Start then
        ((Segment.splitUnchecked F t.flatten (rank t seg) r.Start).1,
          (Segment.splitUnchecked F t.flatten (rank t seg) r.Start).2.2)
        else (t.flatten, rank t seg)).1 ∧
      rank t₁ seg₁ = (if (segRange t.flatten (rank t seg)).canSplitAt r.Start then
        ((Segment.splitUnchecked F t.flatten (rank t seg) r.Start).1,
          (Segment.splitUnchecked F t.flatten (rank t seg) r.Start).2.2)
        else (t.flatten, rank t seg)).2 ∧
      (if (segment t seg).1.canSplitAt r.Start then
        ((splitUnchecked F t seg r.Start).1, (splitUnchecked F t seg r.Start).2.2)
        else (t, seg)) = (t₁, seg₁) := by
    rw [segRange_eq hb hs]
    by_cases hc : (segRange t.flatten (rank t seg)).canSplitAt r.Start
    · obtain ⟨⟨-, -, h', hb'⟩, hidx, hv⟩ := splitUnchecked_refines F hb hs r.Start
      simp only [hc, if_true]
      exact ⟨_, _, h', hb', hv _ rfl, (splitUnchecked_refines F hb hs r.Start).1.flatten_eq, hidx,
        rfl⟩
    · simp only [hc]
      exact ⟨t, seg, h, hb, hs, rfl, rfl, rfl⟩
  unfold isolate Segment.isolate
  dsimp only
  rw [hfirst]
  dsimp only
  generalize hl : (if (segRange t.flatten (rank t seg)).canSplitAt r.Start then
      ((Segment.splitUnchecked F t.flatten (rank t seg) r.Start).1,
        (Segment.splitUnchecked F t.flatten (rank t seg) r.Start).2.2)
      else (t.flatten, rank t seg)) = l at hflat₁ hrank₁
  obtain ⟨s₁, k₁⟩ := l
  dsimp only at hflat₁ hrank₁ ⊢
  subst hflat₁ hrank₁
  -- the cut at `r.End`
  rw [segRange_eq hb₁ hs₁]
  by_cases hc : (segRange t₁.flatten (rank t₁ seg₁)).canSplitAt r.End
  · simp only [hc, if_true]
    exact (splitUnchecked_refines F hb₁ hs₁ r.End).1
  · simp only [hc]
    exact SegResult.of_inPlaceOf (InPlaceOf.refl hb₁) hs₁

/-- `[12, 15)` isolated from the root's `[10, 20)` in `twoLevel`: both cuts put a segment
into a leaf. -/
theorem isolate_refines_twoLevel : Balanced twoLevel 1 ∧ ValidSeg twoLevel ⟨[], 0⟩ ∧
    SegResult (isolate mergeAll twoLevel ⟨[], 0⟩ ⟨12, 15⟩)
      (Segment.isolate mergeAll twoLevel.flatten (rank twoLevel ⟨[], 0⟩) ⟨12, 15⟩) := by
  have hs : ValidSeg twoLevel ⟨[], 0⟩ := ⟨_, rfl, by decide⟩
  exact ⟨balanced_twoLevel, hs, isolate_refines _ _ balanced_twoLevel hs⟩

end Refines

end Set

/-! ## Runs of a `Set` -/

/-- The trees that runs of the `Set`'s primitive mutators build from the zero `Set`, whose root
is an empty leaf: `InsertWithoutMergingUnchecked` at a gap, `Remove` of a segment, and a setter
(`SetRangeUnchecked`, `SetStartUnchecked`, `SetEndUnchecked`, `SetValue`) on a segment. -/
inductive Reachable : node V → Prop
  | empty : Reachable (mk [] [])
  | insert {t : node V} {gap : Cursor} (r : Range) (val : V) :
      Reachable t → ValidGap t gap → Reachable (Set.insertWithoutMergingUnchecked t gap r val).1
  | remove {t : node V} {seg : Cursor} :
      Reachable t → ValidSeg t seg → Reachable (Set.remove t seg).1
  | set {t : node V} {seg : Cursor} (f : Range × V → Range × V) :
      Reachable t → ValidSeg t seg → Reachable (modifySegment t seg f)

/-- Every tree a run of the mutators builds is a B-tree. -/
theorem reachable_balanced {t : node V} (ht : Reachable t) : ∃ h, Balanced t h := by
  induction ht with
  | empty => exact ⟨0, ⟨rfl, Nat.zero_le _⟩, fun h0 => absurd h0 (lt_irrefl 0)⟩
  | insert r val _ hg ih =>
    obtain ⟨h, hb⟩ := ih
    obtain ⟨h', -, hb'⟩ := insertWithoutMergingUnchecked_balanced r val hb hg
    exact ⟨h', hb'⟩
  | remove _ hs ih =>
    obtain ⟨h, hb⟩ := ih
    obtain ⟨-, -, h', -, hb'⟩ := Set.remove_spec hb hs
    exact ⟨h', hb'⟩
  | set f _ hs ih =>
    obtain ⟨h, hb⟩ := ih
    exact ⟨h, balanced_modifySegment f hb hs⟩

/-- Six inserts at the end of the root: the sixth splits the full root first, and the tree
grows to height 1. -/
theorem reachable_balanced_six_inserts :
    Reachable (mk [(⟨4, 5⟩, 0)] [mk [(⟨0, 1⟩, 0), (⟨2, 3⟩, 0)] [],
      mk [(⟨6, 7⟩, 0), (⟨8, 9⟩, 0), (⟨10, 11⟩, 0)] []] : node ℕ) ∧
    ∃ h, Balanced (mk [(⟨4, 5⟩, 0)] [mk [(⟨0, 1⟩, 0), (⟨2, 3⟩, 0)] [],
      mk [(⟨6, 7⟩, 0), (⟨8, 9⟩, 0), (⟨10, 11⟩, 0)] []] : node ℕ) h := by
  -- the `k`-th insert puts `[2k, 2k+1)` at index `k` of the root
  have step : ∀ {t : node ℕ} (k : ℕ), Reachable t → ValidGap t ⟨[], k⟩ →
      Reachable (Set.insertWithoutMergingUnchecked t ⟨[], k⟩ ⟨2 * k, 2 * k + 1⟩ 0).1 :=
    fun _ ht hg => .insert _ _ ht hg
  have h := step 5 (step 4 (step 3 (step 2 (step 1 (step 0 .empty ⟨_, rfl, rfl, by decide⟩)
    ⟨_, rfl, rfl, by decide⟩) ⟨_, rfl, rfl, by decide⟩) ⟨_, rfl, rfl, by decide⟩)
    ⟨_, rfl, rfl, by decide⟩) ⟨_, rfl, rfl, by decide⟩
  exact ⟨h, reachable_balanced h⟩

end BTree

end Segment
