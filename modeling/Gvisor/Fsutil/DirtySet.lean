import Gvisor.Lib.Outcome
import Gvisor.Lib.Reachable
import Gvisor.Segment.Ops

/-! The dirty set of a cached file, pkg/sentry/fs/fsutil/dirty_set.go: a `DirtySet` maps the
offsets of a `Mappable` whose cached data is newer than its source to `DirtyInfo`, and an offset
it does not map is clean. `MarkClean`, `AllowClean` and `setDirty` walk the segments of a range,
isolating them to it, and the last two merge them again with `MergeRange`; `setDirty` also
fills the gaps. `KeepClean` is `RemoveRange`. The loops are given fuel: one turn more than the
set has segments, or, for `setDirty`, one more than there are keys below the range's end, since
each of its turns moves past a non-empty range of keys.

For a non-empty range each operation changes exactly the offsets of the range, as its comment
says. For an empty one it does not: `MarkDirty` of an empty range that starts inside a gap
panics in `Insert`, and `MarkClean` of an empty range strictly inside a segment removes the part
of the segment after it, since `Isolate` cuts the segment at the range's start and not again. -/

namespace Fsutil

open Segment

/-- `DirtyInfo`: the offset is dirty; `Keep` where it is concurrently writable, so that writing
it back does not make it clean. -/
structure DirtyInfo where
  Keep : Bool
  deriving DecidableEq, Repr, Inhabited

def dirtySetFunctions : Functions DirtyInfo where
  minKey := 0
  maxKey := 2 ^ 64 - 1
  merge _ val1 _ val2 := if val1 ≠ val2 then none else some val1
  split _ val _ := (val, val)

/-- A `DirtySet` by its in-order segments. -/
abbrev DirtySet := List (Range × DirtyInfo)

/-- The loop of `MarkClean`, from the segment `seg`. -/
def markCleanLoop (mr : Range) : ℕ → DirtySet → ℕ → Outcome Unit DirtySet
  | 0, _, _ => .hang
  | fuel + 1, ds, seg =>
    if seg < ds.length ∧ segStart ds seg < mr.End then
      if (value ds seg).Keep then markCleanLoop mr fuel ds (seg + 1)
      else
        let (ds, seg) := isolate dirtySetFunctions ds seg mr
        -- `Remove(seg).NextSegment()`: the segment after the gap `Remove` leaves
        let (ds, gap) := remove ds seg
        markCleanLoop mr fuel ds gap
    else .ok ds

def DirtySet.markClean (ds : DirtySet) (mr : Range) : Outcome Unit DirtySet :=
  markCleanLoop mr (ds.length + 1) ds (lowerBoundSegment ds mr.Start)

def DirtySet.keepClean (ds : DirtySet) (mr : Range) : Outcome Unit DirtySet :=
  Outcome.ofFuel ((removeRange dirtySetFunctions ds mr).map Prod.fst)

/-- The loop of `setDirty`, at the segment `seg` or the gap `gap`, the other one terminal, with
whether it changed the set. -/
def setDirtyLoop (mr : Range) (keep : Bool) :
    ℕ → DirtySet → ℕ → ℕ → Bool → Outcome Unit (DirtySet × Bool)
  | 0, _, _, _, _ => .hang
  | fuel + 1, ds, seg, gap, changedAny =>
    if seg < ds.length ∧ segStart ds seg < mr.End then
      if keep && !(value ds seg).Keep then
        let (ds, seg) := isolate dirtySetFunctions ds seg mr
        let ds := setValue ds seg { value ds seg with Keep := true }
        let (seg, gap) := nextNonEmpty dirtySetFunctions ds seg
        setDirtyLoop mr keep fuel ds seg gap true
      else
        let (seg, gap) := nextNonEmpty dirtySetFunctions ds seg
        setDirtyLoop mr keep fuel ds seg gap changedAny
    else if gap ≤ ds.length ∧ gapStart ds dirtySetFunctions gap < mr.End then
      match insertChecked dirtySetFunctions ds gap
          ((gapRange ds dirtySetFunctions gap).intersect mr) ⟨keep⟩ with
      | some (ds, seg) =>
        let (seg, gap) := nextNonEmpty dirtySetFunctions ds seg
        setDirtyLoop mr keep fuel ds seg gap true
      | none => .panic
    else .ok (ds, changedAny)

/-- `DirtySet.setDirty`: the loop from what `Find` returns, then the deferred `MergeRange` where
the loop changed anything. -/
def DirtySet.setDirty (ds : DirtySet) (mr : Range) (keep : Bool) : Outcome Unit DirtySet := do
  let (seg, gap) := find ds mr.Start
  let (ds, changedAny) ← setDirtyLoop mr keep (mr.End + 1) ds seg gap false
  if changedAny then Outcome.ofFuel (mergeRange dirtySetFunctions ds mr) else pure ds

def DirtySet.markDirty (ds : DirtySet) (mr : Range) : Outcome Unit DirtySet := ds.setDirty mr false

def DirtySet.keepDirty (ds : DirtySet) (mr : Range) : Outcome Unit DirtySet := ds.setDirty mr true

/-- The loop of `AllowClean`, from the segment `seg`, with whether it changed the set. -/
def allowCleanLoop (mr : Range) : ℕ → DirtySet → ℕ → Bool → Outcome Unit (DirtySet × Bool)
  | 0, _, _, _ => .hang
  | fuel + 1, ds, seg, changedAny =>
    if seg < ds.length ∧ segStart ds seg < mr.End then
      if (value ds seg).Keep then
        let (ds, seg) := isolate dirtySetFunctions ds seg mr
        let ds := setValue ds seg { value ds seg with Keep := false }
        allowCleanLoop mr fuel ds (seg + 1) true
      else allowCleanLoop mr fuel ds (seg + 1) changedAny
    else .ok (ds, changedAny)

def DirtySet.allowClean (ds : DirtySet) (mr : Range) : Outcome Unit DirtySet := do
  let (ds, changedAny) ← allowCleanLoop mr (ds.length + 1) ds (lowerBoundSegment ds mr.Start) false
  if changedAny then Outcome.ofFuel (mergeRange dirtySetFunctions ds mr) else pure ds

/-! What the set says of each offset, and what each operation makes of it. -/

/-- The `DirtyInfo` of the offset `x`; `none` where it is clean. -/
def dirtyAt (ds : DirtySet) (x : ℕ) : Option DirtyInfo := readAt (fun _ v _ => v) ds x

/-- What a `DirtySet` says of an offset. -/
inductive Dirtiness where
  | clean
  | dirty
  | keptDirty
  deriving DecidableEq, Repr

namespace Dirtiness

def ofInfo : Option DirtyInfo → Dirtiness
  | none => clean
  | some v => if v.Keep then keptDirty else dirty

/-- `MarkDirty`: a clean offset becomes dirty. -/
def markDirty : Dirtiness → Dirtiness
  | clean => dirty
  | d => d

/-- `AllowClean`: a kept offset becomes dirty. -/
def allowClean : Dirtiness → Dirtiness
  | keptDirty => dirty
  | d => d

/-- `MarkClean`: a dirty offset becomes clean, a kept one stays. -/
def markClean : Dirtiness → Dirtiness
  | dirty => clean
  | d => d

end Dirtiness

def dirtinessAt (ds : DirtySet) (x : ℕ) : Dirtiness := .ofInfo (dirtyAt ds x)

/-- What `setDirty` makes of an offset of the range: dirty where it was clean, and kept where
`keep` is set. -/
def dirtied (keep : Bool) : Option DirtyInfo → Option DirtyInfo
  | none => some ⟨keep⟩
  | some v => some ⟨v.Keep || keep⟩

/-- What `AllowClean` makes of an offset of the range: dirty, not kept, where it was dirty. -/
def allowed : Option DirtyInfo → Option DirtyInfo
  | none => none
  | some _ => some ⟨false⟩

/-- What `MarkClean` makes of an offset of the range: clean unless it is kept. -/
def cleaned : Option DirtyInfo → Option DirtyInfo
  | none => none
  | some v => if v.Keep then some v else none

section Readings

variable {ds ds' : DirtySet} {mr : Range} {seg : ℕ}

/-- `Merge` and `Split` keep the `DirtyInfo` of every offset. -/
theorem keepsAt_value : KeepsAt dirtySetFunctions fun _ (v : DirtyInfo) _ => v where
  merge _ _ _ _ _ hm _ := by
    simp only [dirtySetFunctions, ne_eq, ite_not] at hm
    split_ifs at hm with he
    cases hm
    exact ⟨fun _ _ => rfl, fun _ _ => he⟩
  split _ _ _ _ := ⟨fun _ _ _ => rfl, fun _ _ _ => rfl⟩

theorem splitKeeps_value : SplitKeeps dirtySetFunctions fun _ (v : DirtyInfo) _ => v :=
  keepsAt_value.split

/-- `Merge` merges only equal values, into that value. -/
theorem merge_eq : ∀ r1 v1 r2 v2 m, dirtySetFunctions.merge r1 v1 r2 v2 = some m → v1 = v2 ∧ m = v1 := by
  intro _ v1 _ v2 m hm
  simp only [dirtySetFunctions, ne_eq, ite_not] at hm
  split_ifs at hm with he
  cases hm
  exact ⟨he, rfl⟩

/-- The piece `Isolate` returns has the value of the segment it was cut from. -/
theorem value_isolate (hw : WellFormed dirtySetFunctions ds) (hseg : seg < ds.length)
    (hr : mr.Start < mr.End) (h1 : mr.Start < segEnd ds seg) (h2 : segStart ds seg < mr.End) :
    value (isolate dirtySetFunctions ds seg mr).1 (isolate dirtySetFunctions ds seg mr).2 =
      value ds seg := by
  obtain ⟨hR, hk⟩ := segRange_isolate (F := dirtySetFunctions) hseg hr h1 h2
  have hlt := (hw.range seg hseg).2.1
  -- the first key of the piece, where both say what they hold
  have hread : dirtyAt (isolate dirtySetFunctions ds seg mr).1 (max (segStart ds seg) mr.Start) =
      dirtyAt ds (max (segStart ds seg) mr.Start) := readAt_isolate hw splitKeeps_value
  have hx : (segRange ds seg).contains (max (segStart ds seg) mr.Start) := by
    rw [Range.contains_iff]
    simp only [segStart, segEnd] at h1 h2 hlt ⊢
    omega
  have hx1 : (segRange (isolate dirtySetFunctions ds seg mr).1
      (isolate dirtySetFunctions ds seg mr).2).contains (max (segStart ds seg) mr.Start) := by
    rw [hR, Range.contains_iff]
    simp only [segStart, segEnd] at h1 h2 hlt ⊢
    omega
  rw [dirtyAt, dirtyAt, readAt_of_contains hw.isolate hk hx1, readAt_of_contains hw hseg hx] at hread
  exact Option.some.inj hread

theorem dirtied_true (o : Option DirtyInfo) : dirtied true o = some ⟨true⟩ := by
  rcases o with _ | ⟨_ | _⟩ <;> rfl

/-- `setDirty` leaves a segment as it is unless it sets `keep` on one that is not kept. -/
theorem dirtied_of_not {keep : Bool} {v : DirtyInfo} (h : (keep && !v.Keep) = false) :
    dirtied keep (some v) = some v := by
  revert h
  rcases v with ⟨_ | _⟩ <;> cases keep <;> decide

theorem ofInfo_dirtied_false (o : Option DirtyInfo) :
    Dirtiness.ofInfo (dirtied false o) = (Dirtiness.ofInfo o).markDirty := by
  rcases o with _ | ⟨_ | _⟩ <;> rfl

theorem ofInfo_dirtied_true (o : Option DirtyInfo) :
    Dirtiness.ofInfo (dirtied true o) = .keptDirty := by
  rcases o with _ | ⟨_ | _⟩ <;> rfl

theorem ofInfo_allowed (o : Option DirtyInfo) :
    Dirtiness.ofInfo (allowed o) = (Dirtiness.ofInfo o).allowClean := by
  rcases o with _ | ⟨_ | _⟩ <;> rfl

theorem ofInfo_cleaned (o : Option DirtyInfo) :
    Dirtiness.ofInfo (cleaned o) = (Dirtiness.ofInfo o).markClean := by
  rcases o with _ | ⟨_ | _⟩ <;> rfl

/-- An operation that makes `g` of the `DirtyInfo` of each offset of `mr` makes `G` of its
dirtiness, where `g` is `G` on dirtiness. -/
theorem dirtinessAt_of_dirtyAt {g : Option DirtyInfo → Option DirtyInfo} {G : Dirtiness → Dirtiness}
    (hg : ∀ o, Dirtiness.ofInfo (g o) = G (.ofInfo o))
    (h : ∀ x, dirtyAt ds' x = sweptAt g mr (dirtyAt ds) x) :
    ∀ x, dirtinessAt ds' x = if mr.contains x then G (dirtinessAt ds x) else dirtinessAt ds x := by
  intro x
  rw [dirtinessAt, h x, sweptAt]
  split_ifs
  · exact hg _
  · rfl

end Readings

section Loops

variable {mr : Range} {H : ℕ → Option DirtyInfo}

/-- The loop of `MarkClean` is the sweep of `mr` with `cleaned`: from a set in the middle of it,
whose segments from `seg` on end after `mr.Start`, it returns a set that says what the sweep
leaves. -/
theorem markCleanLoop_spec (hmr : mr.Start < mr.End) :
    ∀ (fuel : ℕ) (ds : DirtySet) (seg : ℕ), WellFormed dirtySetFunctions ds →
      pendingBefore mr.End (ds.drop seg) < fuel → (∀ p ∈ ds.drop seg, mr.Start < p.1.End) →
      Swept (fun _ v _ => v) cleaned mr H ds (gapEnd ds dirtySetFunctions seg) →
      ∃ ds', markCleanLoop mr fuel ds seg = .ok ds' ∧ WellFormed dirtySetFunctions ds' ∧
        ∀ x, dirtyAt ds' x = sweptAt cleaned mr H x
  | 0, _, _, _, hp, _, _ => absurd hp (Nat.not_lt_zero _)
  | fuel + 1, ds, seg, hw, hp, hlb, hsw => by
    rw [markCleanLoop]
    by_cases hs : seg < ds.length ∧ segStart ds seg < mr.End
    swap
    · rw [if_neg hs]
      exact ⟨ds, rfl, hw, hsw.done rfl hw hs⟩
    rw [if_pos hs]
    rw [drop_eq_cons hs.1] at hp hlb
    rw [pendingBefore_cons_of_lt (show (segRange ds seg, value ds seg).1.Start < mr.End from hs.2)] at hp
    have hend : mr.Start < segEnd ds seg := hlb _ List.mem_cons_self
    have hlb' : ∀ p ∈ ds.drop (seg + 1), mr.Start < p.1.End :=
      fun p hp => hlb p (List.mem_cons_of_mem _ hp)
    by_cases hkeep : (value ds seg).Keep
    · -- a kept segment is passed over
      rw [if_pos hkeep]
      have hc : cleaned (some (value ds seg)) = some (value ds seg) := by rw [cleaned, if_pos hkeep]
      refine markCleanLoop_spec hmr fuel ds (seg + 1) hw (by omega) hlb'
        (hsw.visit rfl hw hs.1 (fun _ _ => .inr hc) fun x => ?_)
      split_ifs with hx
      · exact (readAt_of_contains hw hs.1 hx).trans hc.symm
      · rfl
    rw [if_neg hkeep]
    obtain ⟨hsw1, hin⟩ := hsw.isolate hw splitKeeps_value hs.1 hmr hend hs.2
    obtain ⟨hp1, hlb1⟩ := pendingBefore_drop_isolate hw hs.1 hmr hlb'
    have hk1 := (segRange_isolate (F := dirtySetFunctions) hs.1 hmr hend hs.2).2
    have hv1 := value_isolate hw hs.1 hmr hend hs.2
    have hw1 : WellFormed dirtySetFunctions (isolate dirtySetFunctions ds seg mr).1 := hw.isolate
    generalize isolate dirtySetFunctions ds seg mr = res at hsw1 hin hp1 hlb1 hk1 hv1 hw1 ⊢
    obtain ⟨l1, k⟩ := res
    dsimp only [remove] at hsw1 hin hp1 hlb1 hk1 hv1 hw1 ⊢
    -- the piece in the range goes
    have hc : cleaned (some (value l1 k)) = none := by rw [cleaned, if_neg (hv1 ▸ hkeep)]
    have hdrop : (l1.eraseIdx k).drop k = l1.drop (k + 1) := List.drop_eraseIdx_self l1 k
    refine markCleanLoop_spec hmr fuel _ k hw1.eraseIdx (by rw [hdrop]; omega) (by rwa [hdrop]) ?_
    rw [gapEnd_eq_of_drop hdrop]
    refine hsw1.visit rfl hw1 hk1 (fun x hx => .inl (hin x hx)) fun x => ?_
    rw [readAt_eraseIdx hw1 hk1]
    split_ifs
    · exact hc.symm
    · rfl

/-- The loop of `AllowClean` is the sweep of `mr` with `allowed`. -/
theorem allowCleanLoop_spec (hmr : mr.Start < mr.End) :
    ∀ (fuel : ℕ) (ds : DirtySet) (seg : ℕ) (changedAny : Bool), WellFormed dirtySetFunctions ds →
      pendingBefore mr.End (ds.drop seg) < fuel → (∀ p ∈ ds.drop seg, mr.Start < p.1.End) →
      Swept (fun _ v _ => v) allowed mr H ds (gapEnd ds dirtySetFunctions seg) →
      ∃ ds' c, allowCleanLoop mr fuel ds seg changedAny = .ok (ds', c) ∧
        WellFormed dirtySetFunctions ds' ∧ ∀ x, dirtyAt ds' x = sweptAt allowed mr H x
  | 0, _, _, _, _, hp, _, _ => absurd hp (Nat.not_lt_zero _)
  | fuel + 1, ds, seg, changedAny, hw, hp, hlb, hsw => by
    rw [allowCleanLoop]
    by_cases hs : seg < ds.length ∧ segStart ds seg < mr.End
    swap
    · rw [if_neg hs]
      exact ⟨ds, changedAny, rfl, hw, hsw.done rfl hw hs⟩
    rw [if_pos hs]
    rw [drop_eq_cons hs.1] at hp hlb
    rw [pendingBefore_cons_of_lt (show (segRange ds seg, value ds seg).1.Start < mr.End from hs.2)] at hp
    have hend : mr.Start < segEnd ds seg := hlb _ List.mem_cons_self
    have hlb' : ∀ p ∈ ds.drop (seg + 1), mr.Start < p.1.End :=
      fun p hp => hlb p (List.mem_cons_of_mem _ hp)
    by_cases hkeep : (value ds seg).Keep
    swap
    · -- a segment that is not kept is passed over
      rw [if_neg hkeep]
      have hc : allowed (some (value ds seg)) = some (value ds seg) := by
        have hf : (value ds seg).Keep = false := by simpa using hkeep
        rw [allowed, ← hf]
      refine allowCleanLoop_spec hmr fuel ds (seg + 1) changedAny hw (by omega) hlb'
        (hsw.visit rfl hw hs.1 (fun _ _ => .inr hc) fun x => ?_)
      split_ifs with hx
      · exact (readAt_of_contains hw hs.1 hx).trans hc.symm
      · rfl
    rw [if_pos hkeep]
    obtain ⟨hsw1, hin⟩ := hsw.isolate hw splitKeeps_value hs.1 hmr hend hs.2
    obtain ⟨hp1, hlb1⟩ := pendingBefore_drop_isolate hw hs.1 hmr hlb'
    have hk1 := (segRange_isolate (F := dirtySetFunctions) hs.1 hmr hend hs.2).2
    have hw1 : WellFormed dirtySetFunctions (isolate dirtySetFunctions ds seg mr).1 := hw.isolate
    generalize isolate dirtySetFunctions ds seg mr = res at hsw1 hin hp1 hlb1 hk1 hw1 ⊢
    obtain ⟨l1, k⟩ := res
    dsimp only at hsw1 hin hp1 hlb1 hk1 hw1 ⊢
    -- the piece in the range is no longer kept
    have hdrop := drop_setValue_of_lt (s := l1) (v := { value l1 k with Keep := false }) (Nat.lt_add_one k)
    refine allowCleanLoop_spec hmr fuel _ (k + 1) true hw1.setValue (by rw [hdrop]; omega)
      (by rwa [hdrop]) ?_
    rw [gapEnd_eq_of_drop hdrop]
    refine hsw1.visit rfl hw1 hk1 (fun x hx => .inl (hin x hx)) fun x => ?_
    rw [readAt_setValue hw1 hk1]
    split_ifs <;> rfl

/-- The loop of `setDirty` is the sweep of `mr` with `dirtied keep`: from a set in the middle of
it, at a segment or a gap from `Find` or `NextNonEmpty` that stands at the frontier `f` and ends
after `mr.Start`, it returns a set that says what the sweep leaves. Each turn moves the frontier
past a non-empty range of keys, so fuel above the keys left below `mr.End` is enough. -/
theorem setDirtyLoop_spec (keep : Bool) (hmr : mr.Start < mr.End)
    (hmax : mr.End ≤ dirtySetFunctions.maxKey) :
    ∀ (fuel : ℕ) (ds : DirtySet) (pos : ℕ × ℕ) (f : ℕ) (changedAny : Bool),
      WellFormed dirtySetFunctions ds → Pos dirtySetFunctions ds pos f →
      mr.Start < posEnd dirtySetFunctions ds pos → mr.End - f < fuel →
      Swept (fun _ v _ => v) (dirtied keep) mr H ds f →
      ∃ ds' c, setDirtyLoop mr keep fuel ds pos.1 pos.2 changedAny = .ok (ds', c) ∧
        WellFormed dirtySetFunctions ds' ∧ ∀ x, dirtyAt ds' x = sweptAt (dirtied keep) mr H x
  | 0, _, _, _, _, _, _, _, hf, _ => absurd hf (Nat.not_lt_zero _)
  | fuel + 1, ds, pos, f, changedAny, hw, hpos, hlo, hf, hsw => by
    -- the turns after this one start where `NextNonEmpty` puts them, past the frontier
    have hnext : ∀ (ds' : DirtySet) (k : ℕ) (c : Bool), WellFormed dirtySetFunctions ds' →
        k < ds'.length → f < segEnd ds' k → f < mr.End → mr.Start < segEnd ds' k →
        Swept (fun _ v _ => v) (dirtied keep) mr H ds' (segEnd ds' k) →
        ∃ ds'' c', setDirtyLoop mr keep fuel ds' (nextNonEmpty dirtySetFunctions ds' k).1
            (nextNonEmpty dirtySetFunctions ds' k).2 c = .ok (ds'', c') ∧
          WellFormed dirtySetFunctions ds'' ∧ ∀ x, dirtyAt ds'' x = sweptAt (dirtied keep) mr H x := by
      intro ds' k c hw' hk hff hfe hlo' hsw'
      have hpos' := Pos.nextNonEmpty hw' hk
      exact setDirtyLoop_spec keep hmr hmax fuel ds' _ _ c hw' hpos'
        (Nat.lt_of_lt_of_le hlo' (hpos'.le_posEnd hw')) (by omega) hsw'
    rw [setDirtyLoop]
    cases hpos with
    | @seg seg hle =>
      dsimp only
      by_cases hs : seg < ds.length ∧ segStart ds seg < mr.End
      swap
      · -- past the range, with the gap terminal: the loop returns
        rw [if_neg hs, if_neg (by omega)]
        exact ⟨ds, changedAny, rfl, hw, hsw.done_of_le ((Pos.seg hle).le_of_not hmax hs (by omega))⟩
      rw [if_pos hs]
      have hg0 : gapEnd ds dirtySetFunctions seg = segStart ds seg := gapEnd_of_lt hs.1
      have hlo' : mr.Start < segEnd ds seg := by rwa [posEnd, if_pos hs.1] at hlo
      have hlt := (hw.range seg hs.1).2.1
      by_cases hc : (keep && !(value ds seg).Keep) = true
      · -- `keep` on a segment that is not kept: the piece in the range is kept now
        rw [if_pos hc]
        have hkeep : keep = true := by
          rw [Bool.and_eq_true] at hc
          exact hc.1
        obtain ⟨hsw1, hin⟩ := hsw.isolate hw splitKeeps_value hs.1 hmr hlo' hs.2
        obtain ⟨hR, hk1⟩ := segRange_isolate (F := dirtySetFunctions) hs.1 hmr hlo' hs.2
        have hw1 : WellFormed dirtySetFunctions (isolate dirtySetFunctions ds seg mr).1 := hw.isolate
        generalize isolate dirtySetFunctions ds seg mr = res at hsw1 hin hR hk1 hw1 ⊢
        obtain ⟨l1, k⟩ := res
        dsimp only at hsw1 hin hR hk1 hw1 ⊢
        have he1 : segEnd l1 k = min (segEnd ds seg) mr.End := by rw [segEnd, hR]
        refine hnext _ k true hw1.setValue (by rwa [length_setValue]) ?_ (by omega) ?_ ?_
        · rw [segEnd_setValue, he1]
          omega
        · rw [segEnd_setValue, he1]
          omega
        rw [segEnd_setValue]
        refine hsw1.extend_seg hw1 hk1 fun x => ?_
        rw [readAt_setValue hw1 hk1]
        split_ifs with hx
        · rw [sweptAt, if_pos (hin x hx), hkeep, dirtied_true]
        · rfl
      · -- the segment needs no change
        rw [if_neg hc]
        have hv : ∀ x, (segRange ds seg).contains x →
            readAt (fun _ v _ => v) ds x = sweptAt (dirtied keep) mr H x := by
          intro x hx
          have hH : H x = some (value ds seg) := by
            rw [← hsw.eq_of_le (show gapEnd ds dirtySetFunctions seg ≤ x by
              rw [hg0]; exact (Range.contains_iff.1 hx).1), readAt_of_contains hw hs.1 hx]
          rw [readAt_of_contains hw hs.1 hx, sweptAt, hH, dirtied_of_not (by simpa using hc)]
          split_ifs <;> rfl
        refine hnext ds seg changedAny hw hs.1 (by omega) (by omega) hlo'
          (hsw.extend_seg hw hs.1 fun x => ?_)
        split_ifs with hx
        · exact hv x hx
        · rfl
    | @gap gap hg hne =>
      dsimp only
      -- the segment is terminal
      rw [if_neg fun h => Nat.lt_irrefl _ h.1]
      by_cases hs : gap ≤ ds.length ∧ gapStart ds dirtySetFunctions gap < mr.End
      swap
      · rw [if_neg hs]
        exact ⟨ds, changedAny, rfl, hw, hsw.done_of_le (Nat.le_of_not_lt fun h => hs ⟨hg, h⟩)⟩
      rw [if_pos hs]
      have hlo' : mr.Start < gapEnd ds dirtySetFunctions gap := by
        rwa [posEnd, if_neg (Nat.lt_irrefl _)] at hlo
      -- the part of the gap in the range, which is not empty, is filled
      have hlen : 0 < ((gapRange ds dirtySetFunctions gap).intersect mr).length := by
        simp only [Range.length, Range.intersect_end, Range.intersect_start, gapRange]
        omega
      have hin := inGap_intersect hg hlen
      obtain ⟨hgs, hgr, hge, hms, hme⟩ := Range.length_intersect_pos hlen
      have hstart := Range.intersect_start (gapRange ds dirtySetFunctions gap) mr
      rw [insertChecked_of_inGap hin]
      have hres := insert_spec dirtySetFunctions ds gap
        ((gapRange ds dirtySetFunctions gap).intersect mr) ⟨keep⟩
      obtain ⟨hk1, hs1, he1⟩ := hres.covers hw hin
      have hv1 := hres.value_eq hg merge_eq
      have hw1 := hres.wellFormed hw hin
      have hread := fun x => hres.readAt (x := x) hw hin keepsAt_value
      change gapStart ds dirtySetFunctions gap ≤ _ at hgs
      change _ ≤ gapEnd ds dirtySetFunctions gap at hge
      change _ = max (gapStart ds dirtySetFunctions gap) mr.Start at hstart
      generalize (gapRange ds dirtySetFunctions gap).intersect mr = gr at *
      generalize insert dirtySetFunctions ds gap gr ⟨keep⟩ = res at *
      obtain ⟨l1, k⟩ := res
      dsimp only at *
      have hf1 : gr.End ≤ segEnd l1 k := he1
      refine hnext l1 k true hw1 hk1 (by omega) hs.2 (by omega) (hsw.extend (by omega) fun x => ?_)
      rw [hread x]
      by_cases hx : gr.contains x
      · -- a clean offset of the range becomes dirty
        have hx' := Range.contains_iff.1 hx
        have hnone : H x = none := by
          rw [← hsw.eq_of_le (show gapStart ds dirtySetFunctions gap ≤ x by omega)]
          exact readAt_of_gap hw hg ⟨by omega, by omega⟩
        rw [if_pos hx, if_pos ⟨by omega, by omega⟩, sweptAt,
          if_pos (Range.contains_iff.2 ⟨by omega, by omega⟩), hnone]
        rfl
      rw [if_neg hx]
      by_cases hxf : gapStart ds dirtySetFunctions gap ≤ x ∧ x < segEnd l1 k
      swap
      · rw [if_neg hxf]
      rw [if_pos hxf]
      by_cases hm : mr.contains x
      · -- past the filled part, on the segment `Insert` merged it into, whose value it has
        have hm' := Range.contains_iff.1 hm
        have hxe : gr.End ≤ x := by
          rw [Range.contains_iff] at hx
          omega
        have hseg : readAt (fun _ v _ => v) l1 x = some ⟨keep⟩ := by
          rw [readAt_of_contains hw1 hk1 (Range.contains_iff.2 ⟨by omega, hxf.2⟩), hv1]
        have hds : readAt (fun _ v _ => v) ds x = some ⟨keep⟩ := by rw [← hseg, hread x, if_neg hx]
        rw [sweptAt, if_pos hm, ← hsw.eq_of_le hxf.1, hds, dirtied, Bool.or_self]
      · rw [sweptAt, if_neg hm, hsw.eq_of_le hxf.1]

end Loops

section Operations

variable {ds : DirtySet} {mr : Range}

/-- The deferred `MergeRange` keeps the set well formed and what it says. -/
theorem mergeRange_deferred (hw : WellFormed dirtySetFunctions ds) (mr : Range) (c : Bool) :
    ∃ ds', (if c then Outcome.ofFuel (mergeRange dirtySetFunctions ds mr) else pure ds :
        Outcome Unit DirtySet) = .ok ds' ∧ WellFormed dirtySetFunctions ds' ∧
      ∀ x, dirtyAt ds' x = dirtyAt ds x := by
  split_ifs
  · obtain ⟨ds', hm, hw', hx⟩ := mergeRange_spec (r := mr) hw keepsAt_value
    rw [hm, Outcome.ofFuel_some]
    exact ⟨ds', rfl, hw', hx⟩
  · exact ⟨ds, rfl, hw, fun _ => rfl⟩

theorem setDirty_spec (hw : WellFormed dirtySetFunctions ds) (keep : Bool) (hmr : mr.Start < mr.End)
    (hmax : mr.End ≤ dirtySetFunctions.maxKey) :
    ∃ ds', ds.setDirty mr keep = .ok ds' ∧ WellFormed dirtySetFunctions ds' ∧
      ∀ x, dirtyAt ds' x = sweptAt (dirtied keep) mr (dirtyAt ds) x := by
  obtain ⟨f, hpos, hf, hlo⟩ := Pos.find (F := dirtySetFunctions) (s := ds) (Nat.zero_le mr.Start)
    (by omega : mr.Start < dirtySetFunctions.maxKey)
  obtain ⟨ds1, c, hl, hw1, hx⟩ := setDirtyLoop_spec keep hmr hmax (mr.End + 1) ds _ f false hw hpos hlo
    (by omega) (Swept.init hf)
  unfold DirtySet.setDirty
  generalize find ds mr.Start = pos at hl
  obtain ⟨seg, gap⟩ := pos
  dsimp only at hl ⊢
  rw [hl, Outcome.ok_bind]
  obtain ⟨ds2, h2, hw2, hx2⟩ := mergeRange_deferred hw1 mr c
  exact ⟨ds2, h2, hw2, fun x => (hx2 x).trans (hx x)⟩

theorem allowClean_spec (hw : WellFormed dirtySetFunctions ds) (hmr : mr.Start < mr.End) :
    ∃ ds', ds.allowClean mr = .ok ds' ∧ WellFormed dirtySetFunctions ds' ∧
      ∀ x, dirtyAt ds' x = sweptAt allowed mr (dirtyAt ds) x := by
  obtain ⟨ds1, c, hl, hw1, hx⟩ := allowCleanLoop_spec hmr (ds.length + 1) ds _ false hw
    pendingBefore_drop_lt_succ (fun _ hp => hw.lt_end_of_mem_drop_lowerBoundSegment hp)
    (Swept.lowerBound rfl hw (Nat.zero_le _))
  unfold DirtySet.allowClean
  rw [hl, Outcome.ok_bind]
  obtain ⟨ds2, h2, hw2, hx2⟩ := mergeRange_deferred hw1 mr c
  exact ⟨ds2, h2, hw2, fun x => (hx2 x).trans (hx x)⟩

theorem markClean_spec (hw : WellFormed dirtySetFunctions ds) (hmr : mr.Start < mr.End) :
    ∃ ds', ds.markClean mr = .ok ds' ∧ WellFormed dirtySetFunctions ds' ∧
      ∀ x, dirtyAt ds' x = sweptAt cleaned mr (dirtyAt ds) x :=
  markCleanLoop_spec hmr _ ds _ hw pendingBefore_drop_lt_succ
    (fun _ hp => hw.lt_end_of_mem_drop_lowerBoundSegment hp) (Swept.lowerBound rfl hw (Nat.zero_le _))

theorem keepClean_spec (hw : WellFormed dirtySetFunctions ds) (hmr : mr.Start < mr.End)
    (hmax : mr.End ≤ dirtySetFunctions.maxKey) :
    ∃ ds', ds.keepClean mr = .ok ds' ∧ WellFormed dirtySetFunctions ds' ∧
      ∀ x, dirtyAt ds' x = sweptAt (fun _ => none) mr (dirtyAt ds) x := by
  obtain ⟨ds', gap, h, hw', -, -, -, hx⟩ :=
    removeRange_spec hw keepsAt_value hmr (Nat.zero_le mr.Start) hmax
  exact ⟨ds', by rw [DirtySet.keepClean, h]; rfl, hw', hx⟩

/-- The operations of a `DirtySet` on a range of offsets. -/
inductive Op where
  | markDirty
  | keepDirty
  | allowClean
  | markClean
  | keepClean
  deriving DecidableEq, Repr

namespace Op

def run : Op → DirtySet → Range → Outcome Unit DirtySet
  | markDirty, ds, mr => ds.markDirty mr
  | keepDirty, ds, mr => ds.keepDirty mr
  | allowClean, ds, mr => ds.allowClean mr
  | markClean, ds, mr => ds.markClean mr
  | keepClean, ds, mr => ds.keepClean mr

/-- What the operation makes of an offset of the range, as its comment says. -/
def effect : Op → Dirtiness → Dirtiness
  | markDirty => Dirtiness.markDirty
  | keepDirty => fun _ => .keptDirty
  | allowClean => Dirtiness.allowClean
  | markClean => Dirtiness.markClean
  | keepClean => fun _ => .clean

/-- From every well-formed set, each operation on a non-empty range of `uint64` offsets returns
a well-formed set, which says at each offset of the range what the operation makes of it and at
every other offset what the set said. -/
theorem run_spec (op : Op) (hw : WellFormed dirtySetFunctions ds) (hmr : mr.Start < mr.End)
    (hmax : mr.End ≤ dirtySetFunctions.maxKey) :
    ∃ ds', op.run ds mr = .ok ds' ∧ WellFormed dirtySetFunctions ds' ∧
      ∀ x, dirtinessAt ds' x = if mr.contains x then op.effect (dirtinessAt ds x) else dirtinessAt ds x := by
  cases op with
  | markDirty =>
    obtain ⟨ds', h, hw', hx⟩ := setDirty_spec hw false hmr hmax
    exact ⟨ds', h, hw', dirtinessAt_of_dirtyAt ofInfo_dirtied_false hx⟩
  | keepDirty =>
    obtain ⟨ds', h, hw', hx⟩ := setDirty_spec hw true hmr hmax
    exact ⟨ds', h, hw', dirtinessAt_of_dirtyAt ofInfo_dirtied_true hx⟩
  | allowClean =>
    obtain ⟨ds', h, hw', hx⟩ := allowClean_spec hw hmr
    exact ⟨ds', h, hw', dirtinessAt_of_dirtyAt ofInfo_allowed hx⟩
  | markClean =>
    obtain ⟨ds', h, hw', hx⟩ := markClean_spec hw hmr
    exact ⟨ds', h, hw', dirtinessAt_of_dirtyAt ofInfo_cleaned hx⟩
  | keepClean =>
    obtain ⟨ds', h, hw', hx⟩ := keepClean_spec hw hmr hmax
    exact ⟨ds', h, hw', dirtinessAt_of_dirtyAt (fun _ => rfl) hx⟩

end Op

/-- A call of an operation on a non-empty range of `uint64` offsets that returns. -/
inductive Step : DirtySet → DirtySet → Prop
  | run (op : Op) (mr : Range) {ds ds' : DirtySet} : mr.Start < mr.End →
      mr.End ≤ dirtySetFunctions.maxKey → op.run ds mr = .ok ds' → Step ds ds'

def Reachable (ds : DirtySet) : Prop := Transition.Reachable (· = []) Step ds

theorem Reachable.wellFormed (h : Reachable ds) : WellFormed dirtySetFunctions ds :=
  Transition.Reachable.invariant (WellFormed dirtySetFunctions) (fun _ h => by subst h; exact .nil)
    (fun _ _ hw hs => by
      obtain ⟨op, mr, hmr, hmax, hrun⟩ := hs
      obtain ⟨ds', h', hw', -⟩ := op.run_spec hw hmr hmax
      rw [hrun] at h'
      cases h'
      exact hw') h

end Operations

/-- `MarkDirty` of the empty page-aligned range `[0x1000, 0x1000)` on the empty set panics:
`Find` returns the gap `[0, MaxKey)`, which starts before the range's end, and `Insert` of its
empty intersection with the range fails its assertion. `MarkClean` of the same range, in the
set that `MarkDirty` of `[0, 0x2000)` makes from the empty one, leaves `[0x1000, 0x2000)` clean,
outside the range: `Isolate` cuts the segment at `0x1000` and not again, and `MarkClean` removes
the part after the cut. -/
theorem markDirty_empty_range_panics :
    DirtySet.markDirty [] ⟨4096, 4096⟩ = .panic ∧
      DirtySet.markDirty [] ⟨0, 8192⟩ = .ok [(⟨0, 8192⟩, ⟨false⟩)] ∧
      DirtySet.markClean [(⟨0, 8192⟩, ⟨false⟩)] ⟨4096, 4096⟩ = .ok [(⟨0, 4096⟩, ⟨false⟩)] ∧
      dirtinessAt [(⟨0, 8192⟩, ⟨false⟩)] 6000 = .dirty ∧ dirtinessAt [(⟨0, 4096⟩, ⟨false⟩)] 6000 = .clean :=
  ⟨by decide, by decide, by decide, by decide, by decide⟩

end Fsutil
