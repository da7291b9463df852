import Gvisor.Lib.Reachable
import Gvisor.Memmap.MappingSet

/-! What `AddMapping`, `RemoveMapping` and `Invalidate` do to the mappings of each offset. Each
loop is a sweep of its range over the bases of the mappings (`Segment.Swept`), with the ranges it
returns collected as it goes (`Segment.Collected`): `AddMapping` adds its mapping at every offset
of its range and returns the offsets that had none; `RemoveMapping`, where the mapping it removes
maps every offset of its range, removes it and returns the offsets left with none; `Invalidate`
reports, for each `MappingSpace`, exactly the addresses that map an offset of its range. Every
segment keeps its mappings, sized by its range, from one reachable set to the next. -/

namespace Memmap

open Segment

variable {M : Type} [DecidableEq M]

/-- What `AddMapping` makes of the bases of an offset of its range: `t` joins them. -/
def added (t : M × Usermem.Addr × Bool) (o : Option (Finset (M × Usermem.Addr × Bool))) :
    Option (Finset (M × Usermem.Addr × Bool)) :=
  some (insert t (o.getD ∅))

/-- What `RemoveMapping` makes of them: `t` leaves them, and an offset left with none is
unmapped. -/
def removed (t : M × Usermem.Addr × Bool) :
    Option (Finset (M × Usermem.Addr × Bool)) → Option (Finset (M × Usermem.Addr × Bool))
  | none => none
  | some S => if S.erase t = ∅ then none else some (S.erase t)

/-- `subsetMapping` of the parts of `mr` names a mapping that fits each part, with base `t`. -/
def SubsetFits (ms : M) (ar : Usermem.AddrRange) (writable : Bool) (mr : Range)
    (t : M × Usermem.Addr × Bool) : Prop :=
  ∀ p : Range, mr.Start ≤ p.Start → p.End ≤ mr.End → p.Start ≤ p.End →
    ∃ m, subsetMapping mr p ms ar.Start writable = some m ∧ Fits p m ∧ baseOf p m = t

omit [DecidableEq M] in
theorem RangesOk.subsetFits {ar : Usermem.AddrRange} {offset : ℕ} (ha : RangesOk ar offset)
    (ms : M) (writable : Bool) :
    SubsetFits ms ar writable (mappableRange ar offset) (mappingBase ms ar offset writable) :=
  fun _ hp1 hp2 hp => ha.subsetMapping_eq ms writable hp1 hp2 hp

section Add

variable {ms : M} {ar : Usermem.AddrRange} {writable : Bool} {t : M × Usermem.Addr × Bool} {mr : Range}
  {H : ℕ → Option (Finset (M × Usermem.Addr × Bool))} {s l : MappingSet M} {mapped : List Range}
  {f seg gap k : ℕ}

variable (t mr H) in
/-- The invariant of the loop of `AddMapping` at the frontier `f`: the set is well formed with
every segment's invariant, it says below `f` what adding `t` over `mr` makes of `H` and from `f`
on what `H` says, and the ranges found without mappings are the keys of `mr` below `f` where `H`
says nothing. -/
structure AddInv (s : MappingSet M) (f : ℕ) (mapped : List Range) : Prop where
  wellFormed : WellFormed mappingSetFunctions s
  segs : Segs SegInv s
  swept : Swept basesOf (added t) mr H s f
  mapped : Collected mapped (fun x => mr.contains x ∧ H x = none) f

/-- The first part of the segment turn: `Isolate` moves the frontier to the part of the segment
inside the range. -/
theorem AddInv.isolate (h : AddInv t mr H s (gapEnd s mappingSetFunctions seg) mapped)
    (hmr : mr.Start < mr.End) (hs : seg < s.length ∧ segStart s seg < mr.End)
    (hlo : mr.Start < segEnd s seg) :
    AddInv t mr H (Segment.isolate mappingSetFunctions s seg mr).1
        (gapEnd (Segment.isolate mappingSetFunctions s seg mr).1 mappingSetFunctions
          (Segment.isolate mappingSetFunctions s seg mr).2) mapped ∧
      (Segment.isolate mappingSetFunctions s seg mr).2 < (Segment.isolate mappingSetFunctions s seg mr).1.length ∧
      segRange (Segment.isolate mappingSetFunctions s seg mr).1 (Segment.isolate mappingSetFunctions s seg mr).2 =
        ⟨max (segStart s seg) mr.Start, min (segEnd s seg) mr.End⟩ := by
  obtain ⟨hsw, -⟩ := h.swept.isolate h.wellFormed splitKeeps_bases hs.1 hmr hlo hs.2
  obtain ⟨hR, hk⟩ := segRange_isolate (F := mappingSetFunctions) hs.1 hmr hlo hs.2
  exact ⟨⟨h.wellFormed.isolate, h.segs.isolate segsPreserve, hsw,
    h.mapped.isolate (fun _ hq => hq.1) hs.1 hmr hlo hs.2⟩, hk, hR⟩

/-- The second part of the segment turn: the part inside the range, at the frontier, gets the
mapping, and the frontier moves past it. -/
theorem AddInv.fill (hsub : SubsetFits ms ar writable mr t) (h : AddInv t mr H l (gapEnd l mappingSetFunctions k) mapped)
    (hk : k < l.length) (hR : mr.Start ≤ segStart l k ∧ segEnd l k ≤ mr.End) :
    ∃ m, subsetMapping mr (segRange l k) ms ar.Start writable = some m ∧
      AddInv t mr H (setValue l k (insert m (value l k))) (segEnd l k) mapped := by
  have hlt := (h.wellFormed.range k hk).2.1
  obtain ⟨m, hm, hfit, hbase⟩ := hsub (segRange l k) hR.1 hR.2 hlt.le
  have hv := h.segs.get hk
  refine ⟨m, hm, h.wellFormed.setValue, h.segs.setValue fun _ => ⟨Finset.insert_nonempty _ _, hv.2.insert hfit⟩,
    ?_, ?_⟩
  · refine h.swept.extend_seg h.wellFormed hk fun x => ?_
    rw [readAt_setValue h.wellFormed hk]
    split_ifs with hx
    · -- the segment said what `H` says, as it lies past the frontier
      have hH : H x = some (basesOf (segRange l k) (value l k) x) := by
        rw [← h.swept.eq_of_le (show gapEnd l mappingSetFunctions k ≤ x by
          rw [gapEnd_of_lt hk]; exact (Range.contains_iff.1 hx).1), readAt_of_contains h.wellFormed hk hx]
      have hin : mr.contains x := by
        rw [Range.contains_iff] at hx ⊢
        simp only [segStart, segEnd] at hR
        omega
      rw [sweptAt, if_pos hin, hH, added, Option.getD_some, basesOf_insert, hbase]
    · rfl
  · refine h.mapped.advance (by rw [gapEnd_of_lt hk]; exact hlt.le) fun x hx hx' hq => ?_
    rw [gapEnd_of_lt hk] at hx
    have hx'' : (segRange l k).contains x := Range.contains_iff.2 ⟨hx, hx'⟩
    rw [← h.swept.eq_of_le (by rw [gapEnd_of_lt hk]; exact hx), readAt_of_contains h.wellFormed hk hx''] at hq
    exact Option.some_ne_none _ hq.2

/-- The gap turn and the segment turn after it: `Insert` of an empty set into the part of the gap
inside the range merges with neither neighbour, as they hold mappings, and the next turn gives it
the mapping; the frontier moves past it, and the part joins the ranges without mappings. -/
theorem AddInv.insertGap (hsub : SubsetFits ms ar writable mr t)
    (h : AddInv t mr H s (gapStart s mappingSetFunctions gap) mapped) (hmr : mr.Start < mr.End)
    (hg : gap ≤ s.length) (hne : gapStart s mappingSetFunctions gap < gapEnd s mappingSetFunctions gap)
    (hs : gapStart s mappingSetFunctions gap < mr.End) (hlo : mr.Start < gapEnd s mappingSetFunctions gap)
    {gr : Range} (hgr : (gapRange s mappingSetFunctions gap).intersect mr = gr) :
    insertChecked mappingSetFunctions s gap gr ∅ = some (s.insertIdx gap (gr, ∅), gap) ∧
      InGap mappingSetFunctions s gap gr ∧ mr.Start ≤ gr.Start ∧ gr.End ≤ mr.End ∧
      ∃ m, subsetMapping mr gr ms ar.Start writable = some m ∧
        AddInv t mr H (s.insertIdx gap (gr, {m})) gr.End (mapped ++ [gr]) := by
  have hlen : 0 < ((gapRange s mappingSetFunctions gap).intersect mr).length := by
    simp only [Range.length, Range.intersect_end, Range.intersect_start, gapRange]
    omega
  have hin := inGap_intersect hg hlen
  obtain ⟨hgs, hgr1, hge, hms, hme⟩ := Range.length_intersect_pos hlen
  have hstart := Range.intersect_start (gapRange s mappingSetFunctions gap) mr
  rw [hgr] at hin hgs hgr1 hge hms hme hstart
  change gapStart s mappingSetFunctions gap ≤ _ at hgs
  change _ ≤ gapEnd s mappingSetFunctions gap at hge
  change _ = max (gapStart s mappingSetFunctions gap) mr.Start at hstart
  -- `Merge` refuses to merge an empty set with one that holds mappings
  have hins : insert mappingSetFunctions s gap gr ∅ = (s.insertIdx gap (gr, ∅), gap) := by
    refine insert_eq_insertIdx (fun hpos => ?_) fun hlt => ?_
    · have hne := (h.segs.get (show gap - 1 < s.length by omega)).1
      exact if_pos (by rw [Finset.card_empty]; exact Finset.card_ne_zero.2 hne)
    · have hne := (h.segs.get hlt).1
      exact if_pos (by rw [Finset.card_empty]; exact (Finset.card_ne_zero.2 hne).symm)
  obtain ⟨m, hm, hfit, hbase⟩ := hsub gr hms hme hgr1.le
  refine ⟨by rw [insertChecked_of_inGap hin, hins], hin, hms, hme, m, hm, h.wellFormed.insertIdx hin,
    h.segs.insertIdx ⟨Finset.singleton_nonempty m, fun k hk => by rw [Finset.mem_singleton.1 hk]; exact hfit⟩,
    ?_, ?_⟩
  · refine h.swept.extend (by omega) fun x => ?_
    rw [readAt_insertIdx h.wellFormed hin]
    by_cases hx : gr.contains x
    · -- an offset of the range in the gap had no mapping, and has this one now
      have hx' := Range.contains_iff.1 hx
      have hnone : H x = none := by
        rw [← h.swept.eq_of_le (show gapStart s mappingSetFunctions gap ≤ x by omega)]
        exact readAt_of_gap h.wellFormed hg ⟨by omega, by omega⟩
      rw [if_pos hx, if_pos ⟨by omega, hx'.2⟩, sweptAt, if_pos (Range.contains_iff.2 ⟨by omega, by omega⟩),
        hnone, added, Option.getD_none, basesOf, Finset.image_singleton, hbase, Finset.insert_empty]
    · rw [if_neg hx]
      split_ifs with hxf
      · -- the part of the gap before the range
        rw [Range.contains_iff] at hx
        rw [sweptAt_of_not_contains (by omega), h.swept.eq_of_le hxf.1]
      · rfl
  · refine h.mapped.append (by omega) (fun x hx => ?_) fun x hx1 hx2 => ?_
    · rw [Range.contains_iff] at hx
      exact ⟨by omega, hx.2⟩
    constructor
    · intro hx
      have hx' := Range.contains_iff.1 hx
      refine ⟨Range.contains_iff.2 ⟨by omega, by omega⟩, ?_⟩
      rw [← h.swept.eq_of_le hx1]
      exact readAt_of_gap h.wellFormed hg ⟨by omega, by omega⟩
    · rintro ⟨hm', -⟩
      rw [Range.contains_iff] at hm' ⊢
      omega

/-- The loop of `AddMapping` sweeps its range adding `t`: from a set in the middle of the sweep,
at a segment or a gap from `Find` or `NextNonEmpty` that stands at the frontier `f` and ends after
`mr.Start`, it returns a set whose frontier is past the range. A gap turn is followed by the
segment turn on the part it inserts, and every segment turn moves the frontier past a non-empty
range of keys, so fuel above twice the keys left below `mr.End` is enough. -/
theorem addMappingLoop_spec (hsub : SubsetFits ms ar writable mr t) (hmr : mr.Start < mr.End)
    (hmax : mr.End ≤ (mappingSetFunctions : Functions (MappingsOfRange M)).maxKey) :
    ∀ (fuel : ℕ) (s : MappingSet M) (pos : ℕ × ℕ) (f : ℕ) (mapped : List Range),
      AddInv t mr H s f mapped → Pos mappingSetFunctions s pos f →
      mr.Start < posEnd mappingSetFunctions s pos →
      2 * (mr.End - f) + (if pos.2 ≤ s.length then 1 else 0) < fuel →
      ∃ s' mapped' f', addMappingLoop ms ar writable mr fuel s pos.1 pos.2 mapped = .ok (s', mapped') ∧
        AddInv t mr H s' f' mapped' ∧ mr.End ≤ f' := by
  intro fuel
  induction fuel using Nat.strong_induction_on with
  | _ fuel ih =>
  intro s pos f mapped h hpos hlo hf
  obtain _ | fuel := fuel
  · exact absurd hf (Nat.not_lt_zero _)
  -- the turns after a segment turn start where `NextNonEmpty` puts them, past the frontier
  have hnext : ∀ (l : MappingSet M) (k fuel' : ℕ) (mapped' : List Range), fuel' ≤ fuel →
      AddInv t mr H l (segEnd l k) mapped' → k < l.length → mr.Start < segEnd l k →
      2 * (mr.End - segEnd l k) + 1 < fuel' →
      ∃ s' mapped'' f', addMappingLoop ms ar writable mr fuel' l (nextNonEmpty mappingSetFunctions l k).1
          (nextNonEmpty mappingSetFunctions l k).2 mapped' = .ok (s', mapped'') ∧
        AddInv t mr H s' f' mapped'' ∧ mr.End ≤ f' := by
    intro l k fuel' mapped' hle h' hk hlo' hf'
    have hpos' := Pos.nextNonEmpty h'.wellFormed hk
    exact ih fuel' (by omega) l _ _ mapped' h' hpos' (Nat.lt_of_lt_of_le hlo' (hpos'.le_posEnd h'.wellFormed))
      (by split_ifs <;> omega)
  rw [addMappingLoop]
  cases hpos with
  | @seg seg hle =>
    dsimp only
    by_cases hs : seg < s.length ∧ segStart s seg < mr.End
    swap
    · -- past the range, with the gap terminal: the loop returns
      rw [if_neg hs, if_neg (by omega)]
      exact ⟨s, mapped, _, rfl, h, (Pos.seg hle).le_of_not hmax hs (by omega)⟩
    rw [if_pos hs]
    have hlo' : mr.Start < segEnd s seg := by rwa [posEnd, if_pos hs.1] at hlo
    have hlt := (h.wellFormed.range seg hs.1).2.1
    rw [if_neg (by omega), gapEnd_of_lt hs.1] at hf
    obtain ⟨h1, hk1, hR⟩ := h.isolate hmr hs hlo'
    generalize isolate mappingSetFunctions s seg mr = res at h1 hk1 hR ⊢
    obtain ⟨l1, k⟩ := res
    dsimp only at h1 hk1 hR ⊢
    have he1 : segEnd l1 k = min (segEnd s seg) mr.End := by rw [segEnd, hR]
    obtain ⟨m, hm, h2⟩ := h1.fill hsub hk1
      ⟨by rw [segStart, hR]; exact Nat.le_max_right _ _, by rw [he1]; exact Nat.min_le_right _ _⟩
    rw [hm]
    dsimp only
    refine hnext _ k fuel mapped le_rfl (by rwa [segEnd_setValue]) (by rwa [length_setValue])
      (by rw [segEnd_setValue, he1]; omega) (by rw [segEnd_setValue, he1]; omega)
  | @gap gap hg hne =>
    dsimp only
    -- the segment is terminal
    rw [if_neg fun h => Nat.lt_irrefl _ h.1]
    by_cases hs : gap ≤ s.length ∧ gapStart s mappingSetFunctions gap < mr.End
    swap
    · rw [if_neg hs]
      exact ⟨s, mapped, _, rfl, h, Nat.le_of_not_lt fun h => hs ⟨hg, h⟩⟩
    rw [if_pos hs]
    have hlo' : mr.Start < gapEnd s mappingSetFunctions gap := by
      rwa [posEnd, if_neg (Nat.lt_irrefl _)] at hlo
    rw [if_pos hg] at hf
    obtain ⟨hins, hin, hms, hme, m, hm, h2⟩ := h.insertGap hsub hmr hg hne hs.2 hlo' rfl
    generalize (gapRange s mappingSetFunctions gap).intersect mr = gr at hins hin hms hme hm h2 ⊢
    rw [hins]
    dsimp only
    -- the next turn is the segment turn on the inserted part, which lies in the range
    obtain _ | fuel := fuel
    · have := hin.start_le
      omega
    have hgr := hin.start_lt
    have hl : gap < (s.insertIdx gap (gr, ∅)).length := by
      rw [List.length_insertIdx_of_le_length hg]
      omega
    have hR : segRange (s.insertIdx gap (gr, ∅)) gap = gr := by
      rw [segRange_insertIdx hg, if_neg (Nat.lt_irrefl _), if_pos rfl]
    have hv : value (s.insertIdx gap (gr, ∅)) gap = ∅ := by
      rw [value, List.getD_insertIdx hg, if_neg (Nat.lt_irrefl _), if_pos rfl]
    rw [addMappingLoop, if_pos ⟨hl, by rw [segStart, hR]; omega⟩,
      isolate_of_within (by rw [segStart, hR]; exact hms) (by rw [segEnd, hR]; exact hme)]
    dsimp only
    rw [hR, hm]
    dsimp only
    rw [hv, Finset.insert_empty, setValue_insertIdx_self hg]
    have he : segEnd (s.insertIdx gap (gr, {m})) gap = gr.End := by
      rw [segEnd, segRange_insertIdx hg, if_neg (Nat.lt_irrefl _), if_pos rfl]
    refine hnext _ gap fuel _ (by omega) (by rwa [he]) (by rw [List.length_insertIdx_of_le_length hg]; omega)
      (by rw [he]; omega) (by rw [he]; have := hin.start_le; omega)

end Add

section Remove

variable {ms : M} {ar : Usermem.AddrRange} {writable : Bool} {t : M × Usermem.Addr × Bool} {mr : Range}
  {H : ℕ → Option (Finset (M × Usermem.Addr × Bool))}

/-- The loop of `RemoveMapping` sweeps its range removing `t`, where `H` maps every key of the
range: from a set in the middle of the sweep, at a segment whose frontier is the gap before it and
whose segments from it on end after `mr.Start`, it returns a set that says what the sweep leaves,
and the ranges it collects are the keys of the range left with no mapping. -/
theorem removeMappingLoop_spec (hsub : SubsetFits ms ar writable mr t) (hmr : mr.Start < mr.End)
    (hmax : mr.End ≤ (mappingSetFunctions : Functions (MappingsOfRange M)).maxKey)
    (hpre : ∀ x, mr.contains x → H x ≠ none) :
    ∀ (fuel : ℕ) (s : MappingSet M) (seg : ℕ) (unmapped : List Range),
      WellFormed mappingSetFunctions s → Segs SegInv s →
      pendingBefore mr.End (s.drop seg) < fuel → (∀ p ∈ s.drop seg, mr.Start < p.1.End) →
      Swept basesOf (removed t) mr H s (gapEnd s mappingSetFunctions seg) →
      Collected unmapped (fun x => mr.contains x ∧ sweptAt (removed t) mr H x = none)
        (gapEnd s mappingSetFunctions seg) →
      ∃ s' unmapped', removeMappingLoop ms ar writable mr fuel s seg unmapped = .ok (s', unmapped') ∧
        WellFormed mappingSetFunctions s' ∧ Segs SegInv s' ∧
        (∀ x, basesAt s' x = sweptAt (removed t) mr H x) ∧
        ∀ x, (∃ r ∈ unmapped', r.contains x) ↔ mr.contains x ∧ sweptAt (removed t) mr H x = none
  | 0, _, _, _, _, _, hp, _, _, _ => absurd hp (Nat.not_lt_zero _)
  | fuel + 1, s, seg, unmapped, hw, hs, hp, hlb, hsw, hc => by
    rw [removeMappingLoop]
    by_cases hseg : seg < s.length ∧ segStart s seg < mr.End
    swap
    · -- past the range, and so is the frontier
      rw [if_neg hseg]
      have hfe : mr.End ≤ gapEnd s mappingSetFunctions seg := by
        by_cases hl : seg < s.length
        · rw [gapEnd_of_lt hl]
          exact Nat.le_of_not_lt fun h => hseg ⟨hl, h⟩
        · rw [gapEnd_of_le (Nat.le_of_not_lt hl)]
          exact hmax
      exact ⟨s, unmapped, rfl, hw, hs, hsw.done rfl hw hseg, hc.done fun x hq => by
        have := Range.contains_iff.1 hq.1
        omega⟩
    rw [if_pos hseg]
    rw [drop_eq_cons hseg.1] at hp hlb
    rw [pendingBefore_cons_of_lt (show (segRange s seg, value s seg).1.Start < mr.End from hseg.2)] at hp
    have hend : mr.Start < segEnd s seg := hlb _ List.mem_cons_self
    have hlb' : ∀ p ∈ s.drop (seg + 1), mr.Start < p.1.End :=
      fun p hp => hlb p (List.mem_cons_of_mem _ hp)
    obtain ⟨hsw1, hin⟩ := hsw.isolate hw splitKeeps_bases hseg.1 hmr hend hseg.2
    obtain ⟨hp1, hlb1⟩ := pendingBefore_drop_isolate hw hseg.1 hmr hlb'
    obtain ⟨hR, hk1⟩ := segRange_isolate (F := mappingSetFunctions) hseg.1 hmr hend hseg.2
    have hc1 := hc.isolate (fun _ hq => hq.1) hseg.1 hmr hend hseg.2
    have hw1 : WellFormed mappingSetFunctions (isolate mappingSetFunctions s seg mr).1 := hw.isolate
    have hs1 : Segs SegInv (isolate mappingSetFunctions s seg mr).1 := hs.isolate segsPreserve
    generalize isolate mappingSetFunctions s seg mr = res at hsw1 hin hp1 hlb1 hR hk1 hc1 hw1 hs1 ⊢
    obtain ⟨l1, k⟩ := res
    dsimp only at hsw1 hin hp1 hlb1 hR hk1 hc1 hw1 hs1 ⊢
    obtain ⟨m, hm, hfit, hbase⟩ := hsub (segRange l1 k) (by rw [hR]; exact Nat.le_max_right _ _)
      (by rw [hR]; exact Nat.min_le_right _ _) (hw1.range k hk1).2.1.le
    rw [hm]
    dsimp only
    have hv := hs1.get hk1
    -- the piece said what `H` says, as it lies past the frontier
    have hH : ∀ x, (segRange l1 k).contains x → H x = some (basesOf (segRange l1 k) (value l1 k) x) :=
      fun x hx => by
        rw [← hsw1.eq_of_le (by rw [gapEnd_of_lt hk1]; exact (Range.contains_iff.1 hx).1),
          readAt_of_contains hw1 hk1 hx]
    -- after the piece, up to the next segment, lie no keys of the range, as `H` maps them all
    have hgap : ∀ x, gapEnd l1 mappingSetFunctions k ≤ x → x < gapEnd l1 mappingSetFunctions (k + 1) →
        ¬(segRange l1 k).contains x → ¬mr.contains x := by
      intro x hx1 hx2 hx hmx
      refine hpre x hmx ?_
      rw [← hsw1.eq_of_le hx1]
      refine readAt_of_gap hw1 hk1 ⟨?_, hx2⟩
      rw [gapStart_of_pos (by omega : 0 < k + 1), Nat.add_sub_cancel]
      rw [gapEnd_of_lt hk1] at hx1
      rw [Range.contains_iff] at hx
      simp only [segStart, segEnd] at hx1 ⊢
      omega
    have herase : ∀ x, basesOf (segRange l1 k) ((value l1 k).erase m) x =
        (basesOf (segRange l1 k) (value l1 k) x).erase t := fun x => by
      rw [basesOf_erase hv.2 hfit, hbase]
    have hle : gapEnd l1 mappingSetFunctions k ≤ gapEnd l1 mappingSetFunctions (k + 1) := by
      rw [gapEnd_of_lt hk1]
      exact Nat.le_trans (hw1.range k hk1).2.1.le (hw1.segEnd_le_gapEnd hk1)
    split_ifs with hcard
    · -- no mapping is left on the piece, which goes
      have hempty : (value l1 k).erase m = ∅ := Finset.card_eq_zero.1 hcard
      have hnone : ∀ x, removed t (some (basesOf (segRange l1 k) (value l1 k) x)) = none := fun x => by
        rw [removed, if_pos (by rw [← herase, hempty]; rfl)]
      dsimp only [remove]
      rw [segRange_setValue, setValue, List.eraseIdx_modify_of_eq]
      have hdrop : (l1.eraseIdx k).drop k = l1.drop (k + 1) := List.drop_eraseIdx_self l1 k
      refine removeMappingLoop_spec hsub hmr hmax hpre fuel _ k _ hw1.eraseIdx hs1.eraseIdx
        (by rw [hdrop]; omega) (by rwa [hdrop]) ?_ ?_
      · rw [gapEnd_eq_of_drop hdrop]
        refine hsw1.visit rfl hw1 hk1 (fun x hx => .inl (hin x hx)) fun x => ?_
        rw [readAt_eraseIdx hw1 hk1]
        split_ifs
        · exact (hnone x).symm
        · rfl
      · rw [gapEnd_eq_of_drop hdrop]
        refine hc1.append hle (fun x hx => ?_) fun x hx1 hx2 => ?_
        · rw [gapEnd_of_lt hk1]
          have := hw1.segEnd_le_gapEnd hk1
          rw [Range.contains_iff] at hx
          simp only [segStart, segEnd] at this ⊢
          omega
        by_cases hx : (segRange l1 k).contains x
        · rw [sweptAt, if_pos (hin x hx), hH x hx, hnone x]
          exact ⟨fun _ => ⟨hin x hx, rfl⟩, fun _ => hx⟩
        · exact ⟨fun h => absurd h hx, fun hq => absurd hq.1 (hgap x hx1 hx2 hx)⟩
    · -- the piece keeps mappings
      have hne : ((value l1 k).erase m).Nonempty := Finset.card_pos.1 (Nat.pos_of_ne_zero hcard)
      have hsome : ∀ x, removed t (some (basesOf (segRange l1 k) (value l1 k) x)) =
          some (basesOf (segRange l1 k) ((value l1 k).erase m) x) := fun x => by
        rw [removed, ← herase, if_neg]
        exact Finset.nonempty_iff_ne_empty.1 (hne.image _)
      have hdrop := drop_setValue_of_lt (s := l1) (v := (value l1 k).erase m) (Nat.lt_add_one k)
      refine removeMappingLoop_spec hsub hmr hmax hpre fuel _ (k + 1) unmapped hw1.setValue
        (hs1.setValue fun _ => ⟨hne, hv.2.erase m⟩) (by rw [hdrop]; omega) (by rwa [hdrop]) ?_ ?_
      · rw [gapEnd_setValue]
        refine hsw1.visit rfl hw1 hk1 (fun x hx => .inl (hin x hx)) fun x => ?_
        rw [readAt_setValue hw1 hk1]
        split_ifs
        · exact (hsome x).symm
        · rfl
      · rw [gapEnd_setValue]
        refine hc1.advance hle fun x hx1 hx2 hq => ?_
        by_cases hx : (segRange l1 k).contains x
        · rw [sweptAt, if_pos (hin x hx), hH x hx, hsome] at hq
          exact Option.some_ne_none _ hq.2
        · exact hgap x hx1 hx2 hx hq.1

end Remove

section Invalidate

variable {s : MappingSet M} {mr : Range}

/-- The calls `Invalidate` makes for a segment that meets `mr` do not panic, and cover, per
`MappingSpace`, exactly the addresses at which its mappings map its offsets in `mr`. -/
theorem invalidate_segment {r : Range} {v : MappingsOfRange M} (hv : Sized r v) (hr : r.Start < r.End)
    (h1 : mr.Start < r.End) (h2 : r.Start < mr.End) :
    none ∉ (v.val.map fun m => subsetMapping r (r.intersect mr) m.MappingSpace m.AddrRange.Start m.Writable) ∧
      ∀ ms a, (∃ ar, (ms, ar) ∈ ((v.val.map fun m => subsetMapping r (r.intersect mr) m.MappingSpace
          m.AddrRange.Start m.Writable).filterMap id).map (fun region => (region.MappingSpace, region.AddrRange)) ∧
          ar.Start ≤ a ∧ a < ar.End) ↔
        ∃ x w, r.contains x ∧ mr.contains x ∧ (ms, a, w) ∈ v.image fun k =>
          (k.MappingSpace, k.AddrRange.Start + UInt64.ofNat (x - r.Start), k.Writable) := by
  refine ⟨fun h => ?_, fun ms a => ?_⟩
  · obtain ⟨m, hm, he⟩ := Multiset.mem_map.1 h
    obtain ⟨region, hreg, -⟩ := (hv m hm).invalidateRegion hr h1 h2
    rw [hreg] at he
    cases he
  simp only [Multiset.mem_map, Multiset.mem_filterMap, id, Finset.mem_image, Prod.mk.injEq, Finset.mem_val]
  constructor
  · rintro ⟨ar, ⟨region, ⟨_, ⟨m, hm, rfl⟩, hreg⟩, hms, rfl⟩, ha⟩
    obtain ⟨region', hreg', hms', hiff⟩ := (hv m hm).invalidateRegion hr h1 h2
    obtain rfl := Option.some.inj (hreg'.symm.trans hreg)
    obtain ⟨x, hx, hmx, rfl⟩ := (hiff a).1 ha
    exact ⟨x, m.Writable, hx, hmx, m, hm, hms'.symm.trans hms, rfl, rfl⟩
  · rintro ⟨x, w, hx, hmx, m, hm, rfl, rfl, rfl⟩
    obtain ⟨region, hreg, hms, hiff⟩ := (hv m hm).invalidateRegion hr h1 h2
    exact ⟨region.AddrRange, ⟨region, ⟨_, ⟨m, hm, rfl⟩, hreg⟩, hms, rfl⟩, (hiff _).2 ⟨x, hx, hmx, rfl⟩⟩

/-- The loop of `Invalidate`, from a segment whose segments from it on end after `mr.Start`,
returns, and its calls cover, per `MappingSpace`, exactly the addresses that map the offsets of
`mr` from the gap before the segment on. -/
theorem invalidateLoop_spec (hw : WellFormed mappingSetFunctions s) (hs : Segs SegInv s) :
    ∀ fuel seg, s.length - seg < fuel → (∀ p ∈ s.drop seg, mr.Start < p.1.End) →
      ∃ calls, invalidateLoop mr s fuel seg = .ok calls ∧ ∀ ms a,
        (∃ ar, (ms, ar) ∈ calls ∧ ar.Start ≤ a ∧ a < ar.End) ↔
          ∃ x w, mr.contains x ∧ gapEnd s mappingSetFunctions seg ≤ x ∧ (ms, a, w) ∈ mappingsAt s x
  | 0, _, hf, _ => absurd hf (Nat.not_lt_zero _)
  | fuel + 1, seg, hf, hlb => by
    rw [invalidateLoop]
    by_cases hseg : seg < s.length ∧ segStart s seg < mr.End
    swap
    · -- past the range: no offset of `mr` is left with a mapping
      rw [if_neg hseg]
      refine ⟨0, rfl, fun ms a => ⟨fun ⟨_, h, _⟩ => absurd h (Multiset.notMem_zero _), ?_⟩⟩
      rintro ⟨x, w, hmx, hx, hm⟩
      rw [Range.contains_iff] at hmx
      by_cases hl : seg < s.length
      · rw [gapEnd_of_lt hl] at hx
        exact absurd ⟨hl, by omega⟩ hseg
      · rw [gapEnd_of_le (Nat.le_of_not_lt hl)] at hx
        rw [mappingsAt_of_maxKey_le hw hx] at hm
        exact absurd hm (Finset.notMem_empty _)
    rw [if_pos hseg]
    rw [drop_eq_cons hseg.1] at hlb
    have hend : mr.Start < segEnd s seg := hlb _ List.mem_cons_self
    have hr := (hw.range seg hseg.1).2.1
    obtain ⟨hnone, hhere⟩ := invalidate_segment (hs.get hseg.1).2 hr hend hseg.2
    rw [if_neg hnone]
    obtain ⟨calls, hl, hcalls⟩ := invalidateLoop_spec hw hs fuel (seg + 1) (by omega)
      fun p hp => hlb p (List.mem_cons_of_mem _ hp)
    refine ⟨_, by rw [hl]; rfl, fun ms a => ?_⟩
    simp only [Multiset.mem_add, or_and_right, exists_or]
    rw [hhere, hcalls]
    -- the offsets from the segment on are in it, in the gap after it, or past that gap
    constructor
    · rintro (⟨x, w, hx, hmx, hm⟩ | ⟨x, w, hmx, hx, hm⟩)
      · refine ⟨x, w, hmx, ?_, by rwa [mappingsAt_of_contains hw hseg.1 hx]⟩
        rw [gapEnd_of_lt hseg.1]
        exact (Range.contains_iff.1 hx).1
      · refine ⟨x, w, hmx, Nat.le_trans ?_ hx, hm⟩
        rw [gapEnd_of_lt hseg.1]
        exact Nat.le_trans hr.le (hw.segEnd_le_gapEnd hseg.1)
    · rintro ⟨x, w, hmx, hx, hm⟩
      by_cases hxs : (segRange s seg).contains x
      · exact .inl ⟨x, w, hxs, hmx, by rwa [mappingsAt_of_contains hw hseg.1 hxs] at hm⟩
      by_cases hxg : gapEnd s mappingSetFunctions (seg + 1) ≤ x
      · exact .inr ⟨x, w, hmx, hxg, hm⟩
      rw [mappingsAt_of_gap hw hseg.1 ⟨?_, Nat.lt_of_not_le hxg⟩] at hm
      · exact absurd hm (Finset.notMem_empty _)
      rw [gapStart_of_pos (by omega : 0 < seg + 1), Nat.add_sub_cancel]
      rw [gapEnd_of_lt hseg.1] at hx
      rw [Range.contains_iff] at hxs
      simp only [segStart, segEnd] at hx ⊢
      omega

/-- `Invalidate` returns, and its calls cover, per `MappingSpace`, exactly the addresses that map
the offsets of `mr`. -/
theorem invalidate_spec (hw : WellFormed mappingSetFunctions s) (hs : Segs SegInv s) (mr : Range) :
    ∃ calls, s.invalidate mr = .ok calls ∧ ∀ ms a,
      (∃ ar, (ms, ar) ∈ calls ∧ ar.Start ≤ a ∧ a < ar.End) ↔
        ∃ x w, mr.contains x ∧ (ms, a, w) ∈ mappingsAt s x := by
  obtain ⟨calls, hl, hcalls⟩ := invalidateLoop_spec hw hs (s.length + 1) (lowerBoundSegment s mr.Start)
    (by omega) fun _ hp => hw.lt_end_of_mem_drop_lowerBoundSegment hp
  refine ⟨calls, hl, fun ms a => (hcalls ms a).trans ⟨fun ⟨x, w, hmx, _, hm⟩ => ⟨x, w, hmx, hm⟩, ?_⟩⟩
  -- the offsets of `mr` before the frontier lie in the gap `LowerBoundSegment` starts at
  rintro ⟨x, w, hmx, hm⟩
  refine ⟨x, w, hmx, Nat.le_of_not_lt fun hx => ?_, hm⟩
  have hlb : lowerBoundSegment s mr.Start ≤ s.length := by
    rw [lowerBoundSegment_eq]
    exact List.findIdx_le_length
  rw [mappingsAt_of_gap hw hlb
    ⟨Nat.le_trans (gapStart_lowerBoundSegment_le (Nat.zero_le _)) (Range.contains_iff.1 hmx).1, hx⟩] at hm
  exact Finset.notMem_empty _ hm

end Invalidate

section Operations

variable {ms : M} {ar : Usermem.AddrRange} {offset : ℕ} {writable : Bool} {s : MappingSet M}

/-- `AddMapping` of ranges that meet `Mappable`'s preconditions returns, keeps every segment's
invariant, adds its mapping's base at every offset of its range, and returns exactly the offsets
of the range that had no mapping. -/
theorem addMapping_spec (hw : WellFormed mappingSetFunctions s) (hs : Segs SegInv s)
    (ha : RangesOk ar offset) :
    ∃ s' mapped, s.addMapping ms ar offset writable = .ok (s', mapped) ∧
      WellFormed mappingSetFunctions s' ∧ Segs SegInv s' ∧
      (∀ x, basesAt s' x =
        sweptAt (added (mappingBase ms ar offset writable)) (mappableRange ar offset) (basesAt s) x) ∧
      ∀ x, (∃ r ∈ mapped, r.contains x) ↔ (mappableRange ar offset).contains x ∧ basesAt s x = none := by
  have hmr := ha.start_lt
  have hmax := ha.end_le_maxKey (M := M)
  obtain ⟨f, hpos, hf, hlo⟩ := Pos.find (F := mappingSetFunctions) (s := s)
    (Nat.zero_le (mappableRange ar offset).Start) (by omega)
  -- the sweep starts at `Find`, below the range, with nothing collected
  have h0 : AddInv (mappingBase ms ar offset writable) (mappableRange ar offset) (basesAt s) s f [] :=
    ⟨hw, hs, Swept.init hf, Collected.nil fun x hx hq => by
      rw [Range.contains_iff] at hq
      omega⟩
  obtain ⟨s', mapped, f', hl, h', hf'⟩ := addMappingLoop_spec (ha.subsetFits ms writable) hmr hmax
    (2 * (mappableRange ar offset).End + 2) s _ f [] h0 hpos hlo (by split_ifs <;> omega)
  unfold MappingSet.addMapping
  dsimp only
  generalize find s (mappableRange ar offset).Start = pos at hl ⊢
  obtain ⟨seg, gap⟩ := pos
  exact ⟨s', mapped, hl, h'.wellFormed, h'.segs, h'.swept.done_of_le hf', h'.mapped.done fun x hq => by
    have := Range.contains_iff.1 hq.1
    omega⟩

/-- `RemoveMapping` of ranges that meet `Mappable`'s preconditions, where every offset of the
range has a mapping, returns, keeps every segment's invariant, deletes its mapping's base at every
offset of its range, and returns exactly the offsets of the range left with no mapping. -/
theorem removeMapping_spec (hw : WellFormed mappingSetFunctions s) (hs : Segs SegInv s)
    (ha : RangesOk ar offset) (hpre : ∀ x, (mappableRange ar offset).contains x → basesAt s x ≠ none) :
    ∃ s' unmapped, s.removeMapping ms ar offset writable = .ok (s', unmapped) ∧
      WellFormed mappingSetFunctions s' ∧ Segs SegInv s' ∧
      (∀ x, basesAt s' x =
        sweptAt (removed (mappingBase ms ar offset writable)) (mappableRange ar offset) (basesAt s) x) ∧
      ∀ x, (∃ r ∈ unmapped, r.contains x) ↔ (mappableRange ar offset).contains x ∧
        sweptAt (removed (mappingBase ms ar offset writable)) (mappableRange ar offset) (basesAt s) x = none := by
  have hmr := ha.start_lt
  have hmax := ha.end_le_maxKey (M := M)
  -- `FindSegment` finds the segment of the range's first offset, which `LowerBoundSegment` finds too
  obtain ⟨hseg, hin, hlb⟩ := findSegment_of_readAt (α := basesOf) hw (Nat.zero_le _) (by omega)
    (hpre _ (Range.contains_iff.2 ⟨Nat.le_refl _, hmr⟩))
  obtain ⟨s', unmapped, hl, hw', hs', hx, hu⟩ := removeMappingLoop_spec (ha.subsetFits ms writable) hmr
    hmax hpre _ s _ [] hw hs pendingBefore_drop_lt_succ
    (fun _ hp => hw.lt_end_of_mem_drop_lowerBoundSegment (hlb ▸ hp))
    (hlb ▸ Swept.lowerBound rfl hw (Nat.zero_le _))
    (Collected.nil fun x hx hq => by
      rw [gapEnd_of_lt hseg] at hx
      have := Range.contains_iff.1 hq.1
      have := (Range.contains_iff.1 hin).1
      simp only [segStart] at hx this
      omega)
  have hm := mergeAdjacent_spec segsPreserve mergeKeeps_bases hw' hs' (mappableRange ar offset)
  refine ⟨_, unmapped, ?_, hm.wellFormed, hm.segs, fun x => (hm.readAt x).trans (hx x), hu⟩
  rw [MappingSet.removeMapping, if_pos hseg, hl]
  rfl

end Operations


section Abstraction

variable {s s' : MappingSet M} {t : M × Usermem.Addr × Bool} {x : ℕ}

theorem getD_added (o : Option (Finset (M × Usermem.Addr × Bool))) :
    (added t o).getD ∅ = insert t (o.getD ∅) := rfl

theorem getD_removed : ∀ o : Option (Finset (M × Usermem.Addr × Bool)),
    (removed t o).getD ∅ = (o.getD ∅).erase t
  | none => rfl
  | some S => by
    show (if S.erase t = ∅ then none else some (S.erase t)).getD ∅ = S.erase t
    split_ifs with h
    · exact h.symm
    · rfl

omit [DecidableEq M] in
theorem atOffset_injective (x : ℕ) : Function.Injective (atOffset (M := M) x) := by
  rintro ⟨m1, a1, w1⟩ ⟨m2, a2, w2⟩ h
  simp only [atOffset, Prod.mk.injEq, add_left_inj] at h
  rw [h.1, h.2.1, h.2.2]

omit [DecidableEq M] in
/-- The mapping that `AddMapping` of `ar` at `offset` names maps each offset `x` of its range at
`ar.Start + (x - offset)`. -/
theorem atOffset_mappingBase {ms : M} {ar : Usermem.AddrRange} {offset : ℕ} {writable : Bool}
    (hx : offset ≤ x) :
    atOffset x (mappingBase ms ar offset writable) = (ms, ar.Start + UInt64.ofNat (x - offset), writable) := by
  simp only [atOffset, mappingBase, ← add_ofNat_sub ar.Start hx, sub_add_cancel]

theorem mappingsAt_of_added (h : basesAt s' x = added t (basesAt s x)) :
    mappingsAt s' x = insert (atOffset x t) (mappingsAt s x) := by
  rw [mappingsAt_eq, mappingsAt_eq, h, getD_added, Finset.image_insert]

theorem mappingsAt_of_removed (h : basesAt s' x = removed t (basesAt s x)) :
    mappingsAt s' x = (mappingsAt s x).erase (atOffset x t) := by
  rw [mappingsAt_eq, mappingsAt_eq, h, getD_removed, Finset.image_erase (atOffset_injective x)]

theorem basesAt_ne_none_of_mem {a : M × Usermem.Addr × Bool} (h : a ∈ mappingsAt s x) :
    basesAt s x ≠ none := fun hn => by
  rw [mappingsAt_eq, hn] at h
  exact Finset.notMem_empty _ h

/-- One `AddMapping` or `RemoveMapping` call that meets `Mappable`'s preconditions and returns;
the mapping that `RemoveMapping` removes maps every offset of its range. -/
inductive Step : MappingSet M → MappingSet M → Prop
  | addMapping {s s' : MappingSet M} (ms : M) (ar : Usermem.AddrRange) (offset : ℕ) (writable : Bool)
      {mapped : List Range} : RangesOk ar offset →
      s.addMapping ms ar offset writable = .ok (s', mapped) → Step s s'
  | removeMapping {s s' : MappingSet M} (ms : M) (ar : Usermem.AddrRange) (offset : ℕ) (writable : Bool)
      {unmapped : List Range} : RangesOk ar offset →
      (∀ x, offset ≤ x ∧ x < offset + ar.length.toNat →
        (ms, ar.Start + UInt64.ofNat (x - offset), writable) ∈ mappingsAt s x) →
      s.removeMapping ms ar offset writable = .ok (s', unmapped) → Step s s'

/-- The sets that such calls reach from the empty set. -/
def Reachable (s : MappingSet M) : Prop := Transition.Reachable (· = []) Step s

theorem Reachable.inv (h : Reachable s) : WellFormed mappingSetFunctions s ∧ Segs SegInv s := by
  refine Transition.Reachable.invariant (fun s => WellFormed mappingSetFunctions s ∧ Segs SegInv s)
    (fun _ h => by subst h; exact ⟨.nil, .nil⟩) ?_ h
  rintro s s' ⟨hw, hs⟩ hstep
  cases hstep with
  | addMapping ms ar offset writable ha hadd =>
    obtain ⟨_, _, h', hw', hs', -⟩ :
        ∃ s' mapped, MappingSet.addMapping s ms ar offset writable = .ok (s', mapped) ∧ _ :=
      addMapping_spec hw hs ha
    rw [hadd] at h'
    cases h'
    exact ⟨hw', hs'⟩
  | removeMapping ms ar offset writable ha hm hrem =>
    obtain ⟨_, _, h', hw', hs', -⟩ :
        ∃ s' unmapped, MappingSet.removeMapping s ms ar offset writable = .ok (s', unmapped) ∧ _ :=
      removeMapping_spec hw hs ha fun x hx => basesAt_ne_none_of_mem (hm x (ha.contains_iff.1 hx))
    rw [hrem] at h'
    cases h'
    exact ⟨hw', hs'⟩

/-- Over the sets that `AddMapping` and `RemoveMapping` reach under `Mappable`'s preconditions, no
segment holds an empty map, and at each offset `AddMapping` and `RemoveMapping` add and remove
their mapping over their range, returning the offsets that had no mapping and those left with
none, while the calls of `Invalidate` cover, per `MappingSpace`, exactly the addresses that map its
range. -/
theorem mappingSet_abstraction (hr : Reachable s) :
    (∀ p ∈ s, p.2.Nonempty) ∧
    (∀ ms ar offset writable, RangesOk ar offset →
      ∃ s' mapped, s.addMapping ms ar offset writable = .ok (s', mapped) ∧
        (∀ x, mappingsAt s' x = if offset ≤ x ∧ x < offset + ar.length.toNat then
          insert (ms, ar.Start + UInt64.ofNat (x - offset), writable) (mappingsAt s x) else mappingsAt s x) ∧
        ∀ x, (∃ r ∈ mapped, r.contains x) ↔
          (offset ≤ x ∧ x < offset + ar.length.toNat) ∧ mappingsAt s x = ∅) ∧
    (∀ ms ar offset writable, RangesOk ar offset →
      (∀ x, offset ≤ x ∧ x < offset + ar.length.toNat →
        (ms, ar.Start + UInt64.ofNat (x - offset), writable) ∈ mappingsAt s x) →
      ∃ s' unmapped, s.removeMapping ms ar offset writable = .ok (s', unmapped) ∧
        (∀ x, mappingsAt s' x = if offset ≤ x ∧ x < offset + ar.length.toNat then
          (mappingsAt s x).erase (ms, ar.Start + UInt64.ofNat (x - offset), writable) else mappingsAt s x) ∧
        ∀ x, (∃ r ∈ unmapped, r.contains x) ↔
          (offset ≤ x ∧ x < offset + ar.length.toNat) ∧ mappingsAt s' x = ∅) ∧
    ∀ mr, ∃ calls, s.invalidate mr = .ok calls ∧ ∀ ms a,
      (∃ ar, (ms, ar) ∈ calls ∧ ar.Start ≤ a ∧ a < ar.End) ↔
        ∃ x w, mr.contains x ∧ (ms, a, w) ∈ mappingsAt s x := by
  obtain ⟨hw, hs⟩ := hr.inv
  refine ⟨fun p hp => (hs p hp).1, fun ms ar offset writable ha => ?_,
    fun ms ar offset writable ha hm => ?_, fun mr => invalidate_spec hw hs mr⟩
  · obtain ⟨s', mapped, h, -, -, hx, hmapped⟩ :
        ∃ s' mapped, s.addMapping ms ar offset writable = .ok (s', mapped) ∧ _ := addMapping_spec hw hs ha
    refine ⟨s', mapped, h, fun x => ?_, fun x => by rw [hmapped, ha.contains_iff, mappingsAt_eq_empty hs]⟩
    split_ifs with hc
    · have hb : basesAt s' x = added (mappingBase ms ar offset writable) (basesAt s x) := by
        rw [hx, sweptAt, if_pos (ha.contains_iff.2 hc)]
      rw [mappingsAt_of_added hb, atOffset_mappingBase hc.1]
    · rw [mappingsAt_eq, mappingsAt_eq, hx, sweptAt, if_neg (mt ha.contains_iff.1 hc)]
  · obtain ⟨s', unmapped, h, -, hs', hx, hun⟩ :
        ∃ s' unmapped, s.removeMapping ms ar offset writable = .ok (s', unmapped) ∧ _ :=
      removeMapping_spec hw hs ha fun x hx => basesAt_ne_none_of_mem (hm x (ha.contains_iff.1 hx))
    refine ⟨s', unmapped, h, fun x => ?_,
      fun x => by rw [hun, ha.contains_iff, ← hx, mappingsAt_eq_empty hs']⟩
    split_ifs with hc
    · have hb : basesAt s' x = removed (mappingBase ms ar offset writable) (basesAt s x) := by
        rw [hx, sweptAt, if_pos (ha.contains_iff.2 hc)]
      rw [mappingsAt_of_removed hb, atOffset_mappingBase hc.1]
    · rw [mappingsAt_eq, mappingsAt_eq, hx, sweptAt, if_neg (mt ha.contains_iff.1 hc)]

/-- Offsets `[8192, 16384)` mapped, then `[12288, 20480)`: the second call reports
`16384` as newly mapped but not `12288`, which the first call mapped. -/
theorem mappingSet_abstraction_second_add :
    ∃ (s₁ s₂ : MappingSet Unit) (mapped₁ mapped₂ : List Range),
      MappingSet.addMapping [] () ⟨4096, 12288⟩ 8192 true = .ok (s₁, mapped₁) ∧
      s₁.addMapping () ⟨20480, 28672⟩ 12288 false = .ok (s₂, mapped₂) ∧
      (∃ r ∈ mapped₂, r.contains 16384) ∧ ¬ ∃ r ∈ mapped₂, r.contains 12288 := by
  have ha₁ : RangesOk ⟨4096, 12288⟩ 8192 := ⟨by decide, by decide⟩
  have ha₂ : RangesOk ⟨20480, 28672⟩ 12288 := ⟨by decide, by decide⟩
  have hr₀ : Reachable ([] : MappingSet Unit) := Transition.Reachable.of_init rfl
  obtain ⟨s₁, mapped₁, h₁, hx₁, -⟩ := (mappingSet_abstraction hr₀).2.1 () _ _ true ha₁
  have hr₁ : Reachable s₁ := hr₀.tail (Step.addMapping () _ _ true ha₁ h₁)
  obtain ⟨s₂, mapped₂, h₂, -, hm₂⟩ := (mappingSet_abstraction hr₁).2.1 () _ _ false ha₂
  refine ⟨s₁, s₂, mapped₁, mapped₂, h₁, h₂, (hm₂ 16384).2 ⟨by decide, ?_⟩, fun h => ?_⟩
  · rw [hx₁, if_neg (by decide)]
    rfl
  · obtain ⟨-, h0⟩ := (hm₂ 12288).1 h
    rw [hx₁, if_pos (by decide)] at h0
    exact Finset.insert_ne_empty _ _ h0

end Abstraction

end Memmap
