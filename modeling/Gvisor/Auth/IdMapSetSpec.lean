import Gvisor.Auth.IdMapSet
import Gvisor.Lib.IntervalCover
import Gvisor.Lib.MachineInt
import Mathlib.Data.List.TakeWhile

/-! What an `idMapSet` means: the partial map `lookup` from IDs to IDs that
its segments define. On a well-formed set (non-empty segments in ascending,
disjoint order) `findSegment` finds the segment that `lookup` uses, `add`
extends the map by the new range exactly when it was unmapped, merging
neighbours without changing the map, and a full `spanRange` means that the
whole range is mapped. -/

namespace Auth

theorem IdMapRange.contains_iff {r : IdMapRange} {x : UInt32} :
    r.Contains x ↔ r.start.toNat ≤ x.toNat ∧ x.toNat < r.End.toNat := by
  simp [IdMapRange.Contains, UInt32.le_iff_toNat_le, UInt32.lt_iff_toNat_lt]

namespace IdMapSet

/-- The ID that `id` maps to. -/
def lookup (s : IdMapSet) (id : UInt32) : Option UInt32 :=
  (s.find? fun seg => decide (seg.range.Contains id)).map
    fun seg => seg.value + (id - seg.range.start)

@[simp] theorem lookup_nil (id : UInt32) : lookup [] id = none := rfl

theorem lookup_cons (seg : IdMapSeg) (s : IdMapSet) (id : UInt32) :
    lookup (seg :: s) id =
      if seg.range.Contains id then some (seg.value + (id - seg.range.start)) else lookup s id := by
  by_cases h : seg.range.Contains id
  · simp [lookup, h]
  · simp [lookup, h]

theorem lookup_single_eq_some {r : IdMapRange} {v a b : UInt32} :
    lookup [⟨r, v⟩] a = some b ↔ r.Contains a ∧ v + (a - r.start) = b := by
  rw [lookup_cons, lookup_nil]
  split_ifs with h <;> simp [h]

theorem toNat_noID : noID.toNat = 2 ^ 32 - 1 := rfl

theorem ne_noID_of_lt {a x : UInt32} (h : a < x) : a ≠ noID := by
  rintro rfl
  rw [UInt32.lt_iff_toNat_lt, toNat_noID] at h
  have := x.toNat_lt
  omega

theorem lookup_append (s t : IdMapSet) (id : UInt32) :
    lookup (s ++ t) id = (lookup s id).or (lookup t id) := by
  induction s with
  | nil => simp
  | cons seg s ih =>
    rw [List.cons_append, lookup_cons, lookup_cons, ih]
    split <;> simp

theorem lookup_eq_none_iff {s : IdMapSet} {id : UInt32} :
    lookup s id = none ↔ ∀ seg ∈ s, ¬ seg.range.Contains id := by
  simp only [lookup, Option.map_eq_none_iff, List.find?_eq_none, decide_eq_true_eq]

theorem ne_nil_of_lookup_eq_some {s : IdMapSet} {id x : UInt32} (h : lookup s id = some x) :
    s ≠ [] := by
  rintro rfl
  simp at h

/-- Non-empty segments in ascending order, pairwise disjoint. -/
structure WellFormed (s : IdMapSet) : Prop where
  nonempty : ∀ seg ∈ s, seg.range.start < seg.range.End
  sorted : s.Pairwise fun a b => a.range.End ≤ b.range.start

theorem wellFormed_nil : WellFormed [] := ⟨by simp, List.Pairwise.nil⟩

theorem wellFormed_cons {seg : IdMapSeg} {s : IdMapSet} :
    WellFormed (seg :: s) ↔ seg.range.start < seg.range.End ∧
      (∀ b ∈ s, seg.range.End ≤ b.range.start) ∧ WellFormed s := by
  constructor
  · rintro ⟨hne, hs⟩
    rw [List.pairwise_cons] at hs
    exact ⟨hne seg List.mem_cons_self, hs.1, fun b hb => hne b (List.mem_cons_of_mem _ hb), hs.2⟩
  · rintro ⟨h1, h2, h3, h4⟩
    refine ⟨?_, List.pairwise_cons.mpr ⟨h2, h4⟩⟩
    intro b hb
    rcases List.mem_cons.mp hb with rfl | hb
    · exact h1
    · exact h3 b hb

theorem wellFormed_append {s t : IdMapSet} :
    WellFormed (s ++ t) ↔ WellFormed s ∧ WellFormed t ∧
      ∀ a ∈ s, ∀ b ∈ t, a.range.End ≤ b.range.start := by
  constructor
  · rintro ⟨hne, hs⟩
    rw [List.pairwise_append] at hs
    exact ⟨⟨fun a ha => hne a (List.mem_append_left _ ha), hs.1⟩,
      ⟨fun b hb => hne b (List.mem_append_right _ hb), hs.2.1⟩, hs.2.2⟩
  · rintro ⟨⟨hne1, hs1⟩, ⟨hne2, hs2⟩, h⟩
    refine ⟨?_, List.pairwise_append.mpr ⟨hs1, hs2, h⟩⟩
    intro a ha
    rcases List.mem_append.mp ha with ha | ha
    · exact hne1 a ha
    · exact hne2 a ha

theorem lookup_of_mem {s : IdMapSet} {seg : IdMapSeg} {id : UInt32} (hwf : WellFormed s)
    (hseg : seg ∈ s) (hc : seg.range.Contains id) :
    lookup s id = some (seg.value + (id - seg.range.start)) := by
  induction s with
  | nil => simp at hseg
  | cons x s ih =>
    obtain ⟨-, hx, hs⟩ := wellFormed_cons.mp hwf
    rw [lookup_cons]
    rcases List.mem_cons.mp hseg with rfl | hseg
    · rw [if_pos hc]
    · have hxs := hx seg hseg
      have hnx : ¬ x.range.Contains id := by
        rw [IdMapRange.contains_iff] at hc ⊢
        rw [UInt32.le_iff_toNat_le] at hxs
        omega
      rw [if_neg hnx, ih hs hseg]

theorem before_append_after (s : IdMapSet) (key : UInt32) : s.before key ++ s.after key = s :=
  List.takeWhile_append_dropWhile

theorem end_le_of_mem_before {s : IdMapSet} {key : UInt32} {seg : IdMapSeg}
    (h : seg ∈ s.before key) : seg.range.End ≤ key := by
  simpa using List.mem_takeWhile_imp h

theorem lt_end_of_after_eq_cons {s rest : IdMapSet} {key : UInt32} {seg : IdMapSeg}
    (h : s.after key = seg :: rest) : key < seg.range.End := by
  have hne : s.after key ≠ [] := by simp [h]
  have hhead := List.head_dropWhile_not (fun seg : IdMapSeg => decide (seg.range.End ≤ key)) hne
  simp only [after] at h
  simp only [h, List.head_cons, decide_eq_false_iff_not, UInt32.not_le] at hhead
  exact hhead

theorem not_contains_of_mem_before {s : IdMapSet} {key : UInt32} {seg : IdMapSeg}
    (h : seg ∈ s.before key) : ¬ seg.range.Contains key := by
  have he := end_le_of_mem_before h
  rw [IdMapRange.contains_iff]
  rw [UInt32.le_iff_toNat_le] at he
  omega

/-- On a well-formed set, `findSegment` finds the segment containing `key`. -/
theorem findSegment_eq_find? {s : IdMapSet} (hwf : WellFormed s) (key : UInt32) :
    s.findSegment key = s.find? fun seg => decide (seg.range.Contains key) := by
  have hs := before_append_after s key
  have hbefore : (s.before key).find? (fun seg => decide (seg.range.Contains key)) = none := by
    rw [List.find?_eq_none]
    intro seg hseg
    simpa using not_contains_of_mem_before hseg
  conv_rhs => rw [← hs, List.find?_append, hbefore, Option.none_or]
  unfold findSegment
  split
  · next seg rest hafter =>
    have hlt := lt_end_of_after_eq_cons hafter
    have hwf' : WellFormed (seg :: rest) := by
      rw [← hs, hafter] at hwf
      exact (wellFormed_append.mp hwf).2.1
    have hrest : ∀ b ∈ rest, ¬ b.range.Contains key := by
      intro b hb hc
      have hle := (wellFormed_cons.mp hwf').2.1 b hb
      rw [IdMapRange.contains_iff] at hc
      rw [UInt32.le_iff_toNat_le] at hle
      rw [UInt32.lt_iff_toNat_lt] at hlt
      omega
    have hfind : rest.find? (fun seg => decide (seg.range.Contains key)) = none := by
      rw [List.find?_eq_none]
      intro b hb
      simpa using hrest b hb
    rw [hafter, List.find?_cons]
    by_cases hstart : seg.range.start ≤ key
    · have hc : seg.range.Contains key := ⟨hstart, hlt⟩
      simp [hstart, hc]
    · have hc : ¬ seg.range.Contains key := fun hc => hstart hc.1
      simp [hstart, hc, hfind]
  · next hafter => simp [hafter]

theorem lookup_before_eq_none {s : IdMapSet} {key id : UInt32} (h : key ≤ id) :
    lookup (s.before key) id = none := by
  rw [lookup_eq_none_iff]
  intro seg hseg hc
  have he := end_le_of_mem_before hseg
  rw [IdMapRange.contains_iff] at hc
  rw [UInt32.le_iff_toNat_le] at he h
  omega

theorem mapID_eq {m : IdMapSet} (hwf : WellFormed m) (id : UInt32) :
    mapID m id = if id = noID then noID else (lookup m id).getD noID := by
  unfold mapID lookup
  rw [findSegment_eq_find? hwf]
  split
  · rfl
  · cases (m.find? fun seg => decide (seg.range.Contains id)) <;> rfl

theorem merge_eq_some {r1 r2 : IdMapRange} {val1 val2 m : UInt32} :
    merge r1 val1 r2 val2 = some m ↔ val1 + r1.length = val2 ∧ m = val1 := by
  unfold merge
  split <;> simp_all [eq_comm]

/-- The segment spanning two adjacent segments `a` and `b`, with `a`'s value. -/
def join (a b : IdMapSeg) : IdMapSeg := ⟨⟨a.range.start, b.range.End⟩, a.value⟩

theorem join_contains_iff {a b : IdMapSeg} {id : UInt32} :
    (join a b).range.Contains id ↔ a.range.start.toNat ≤ id.toNat ∧ id.toNat < b.range.End.toNat :=
  IdMapRange.contains_iff

/-- Joining adjacent segments whose values are contiguous keeps the map. -/
theorem lookup_join {a b : IdMapSeg} (l : IdMapSet) (hab : a.range.End = b.range.start)
    (hv : a.value + a.range.length = b.value) (ha : a.range.start < a.range.End)
    (hb : b.range.start < b.range.End) :
    lookup (join a b :: l) = lookup (a :: b :: l) := by
  funext id
  rw [lookup_cons, lookup_cons, lookup_cons]
  rw [UInt32.lt_iff_toNat_lt] at ha hb
  have hab' := congrArg UInt32.toNat hab
  by_cases h1 : a.range.Contains id
  · have h : (join a b).range.Contains id := by
      rw [join_contains_iff]
      rw [IdMapRange.contains_iff] at h1
      omega
    rw [if_pos h, if_pos h1]
    rfl
  · by_cases h2 : b.range.Contains id
    · have h : (join a b).range.Contains id := by
        rw [join_contains_iff]
        rw [IdMapRange.contains_iff] at h2
        omega
      rw [if_pos h, if_neg h1, if_pos h2, ← hv, ← hab]
      simp only [join, IdMapRange.length]
      congr 1
      grind
    · have h : ¬ (join a b).range.Contains id := by
        rw [join_contains_iff]
        rw [IdMapRange.contains_iff] at h1 h2
        omega
      rw [if_neg h, if_neg h1, if_neg h2]

theorem wellFormed_join {pre l : IdMapSet} {a b : IdMapSeg}
    (h : WellFormed (pre ++ a :: b :: l)) : WellFormed (pre ++ join a b :: l) := by
  obtain ⟨hpre, habl, hcross⟩ := wellFormed_append.mp h
  obtain ⟨ha, hab, hbl⟩ := wellFormed_cons.mp habl
  obtain ⟨hb, hbl', hl⟩ := wellFormed_cons.mp hbl
  have hab' := hab b List.mem_cons_self
  refine wellFormed_append.mpr ⟨hpre, wellFormed_cons.mpr ⟨?_, hbl', hl⟩, ?_⟩
  · simp only [join]
    rw [UInt32.lt_iff_toNat_lt] at ha hb ⊢
    rw [UInt32.le_iff_toNat_le] at hab'
    omega
  · intro p hp q hq
    rcases List.mem_cons.mp hq with rfl | hq
    · exact hcross p hp a List.mem_cons_self
    · exact hcross p hp q (List.mem_cons_of_mem _ (List.mem_cons_of_mem _ hq))

/-- One join inside a well-formed list: still well-formed, same map. -/
theorem join_spec {pre l : IdMapSet} {a b : IdMapSeg} (h : WellFormed (pre ++ a :: b :: l))
    (hab : a.range.End = b.range.start) (hv : a.value + a.range.length = b.value) :
    WellFormed (pre ++ join a b :: l) ∧ lookup (pre ++ join a b :: l) = lookup (pre ++ a :: b :: l) := by
  obtain ⟨-, habl, -⟩ := wellFormed_append.mp h
  obtain ⟨ha, -, hbl⟩ := wellFormed_cons.mp habl
  obtain ⟨hb, -, -⟩ := wellFormed_cons.mp hbl
  refine ⟨wellFormed_join h, ?_⟩
  funext id
  rw [lookup_append, lookup_append, lookup_join l hab hv ha hb]

theorem insertNext_spec {pre post : IdMapSet} {r : IdMapRange} {val : UInt32}
    (h : WellFormed (pre ++ ⟨r, val⟩ :: post)) :
    WellFormed (pre ++ insertNext r val post) ∧
      lookup (pre ++ insertNext r val post) = lookup (pre ++ ⟨r, val⟩ :: post) := by
  unfold insertNext
  split
  · next next post =>
    split
    · next hstart =>
      split
      · next mval hm =>
        obtain ⟨hv, rfl⟩ := merge_eq_some.mp hm
        exact join_spec h hstart.symm hv
      · exact ⟨h, rfl⟩
    · exact ⟨h, rfl⟩
  · exact ⟨h, rfl⟩

/-- `insert` into the gap between `pre` and `post` is the unmerged insertion,
up to joins that keep the map. -/
theorem insert_spec {pre post : IdMapSet} {r : IdMapRange} {val : UInt32}
    (h : WellFormed (pre ++ ⟨r, val⟩ :: post)) :
    WellFormed (insert pre post r val) ∧
      lookup (insert pre post r val) = lookup (pre ++ ⟨r, val⟩ :: post) := by
  unfold insert
  dsimp only
  split
  · next prev hlast =>
    split
    · next hend =>
      split
      · next mval hm =>
        obtain ⟨hv, rfl⟩ := merge_eq_some.mp hm
        obtain ⟨init, rfl⟩ := List.getLast?_eq_some_iff.mp hlast
        rw [List.append_assoc, List.singleton_append] at h ⊢
        rw [List.dropLast_concat]
        obtain ⟨hwf₁, hl₁⟩ := join_spec h hend hv
        split
        · next next post' =>
          split
          · next hstart =>
            split
            · next mval' hm' =>
              obtain ⟨hv', rfl⟩ := merge_eq_some.mp hm'
              obtain ⟨hwf₂, hl₂⟩ := join_spec hwf₁ hstart.symm hv'
              exact ⟨hwf₂, hl₂.trans hl₁⟩
            · exact ⟨hwf₁, hl₁⟩
          · exact ⟨hwf₁, hl₁⟩
        · exact ⟨hwf₁, hl₁⟩
      · exact insertNext_spec h
    · exact insertNext_spec h
  · exact insertNext_spec h

/-- `add` of a non-empty range: the map extended by the range, which was
unmapped before. -/
theorem add_spec {s s' : IdMapSet} {r : IdMapRange} {val : UInt32} (hwf : WellFormed s)
    (hr : r.start < r.End) (h : s.add r val = some s') :
    WellFormed s' ∧ (∀ id, lookup s' id = (lookup [⟨r, val⟩] id).or (lookup s id)) ∧
      ∀ id, r.Contains id → lookup s id = none := by
  unfold add at h
  split_ifs at h with hfind hgap
  cases h
  have hs := before_append_after s r.start
  obtain ⟨hpre, hpost, hcross⟩ := wellFormed_append.mp (hs ▸ hwf)
  -- every segment after the gap starts at or after the end of `r`
  have hafter : ∀ q ∈ s.after r.start, r.End ≤ q.range.start := by
    intro q hq
    cases hp : s.after r.start with
    | nil => simp [hp] at hq
    | cons next rest =>
      rw [hp] at hq hpost
      simp only [gapEnd, hp, gt_iff_lt, UInt32.not_lt] at hgap
      obtain ⟨hnext, hrest, -⟩ := wellFormed_cons.mp hpost
      rcases List.mem_cons.mp hq with rfl | hq
      · exact hgap
      · have := hrest q hq
        rw [UInt32.le_iff_toNat_le] at hgap this ⊢
        rw [UInt32.lt_iff_toNat_lt] at hnext
        omega
  have hunmapped : ∀ id, r.Contains id → lookup s id = none := by
    intro id hc
    rw [← hs, lookup_append, lookup_before_eq_none hc.1, Option.none_or, lookup_eq_none_iff]
    intro q hq hqc
    have := hafter q hq
    rw [IdMapRange.contains_iff] at hc hqc
    rw [UInt32.le_iff_toNat_le] at this
    omega
  have hwf' : WellFormed (s.before r.start ++ ⟨r, val⟩ :: s.after r.start) := by
    refine wellFormed_append.mpr ⟨hpre, wellFormed_cons.mpr ⟨hr, hafter, hpost⟩, ?_⟩
    intro p hp q hq
    rcases List.mem_cons.mp hq with rfl | hq
    · exact end_le_of_mem_before hp
    · exact hcross p hp q hq
  obtain ⟨hwf'', hlookup⟩ := insert_spec hwf'
  refine ⟨hwf'', fun id => ?_, hunmapped⟩
  rw [hlookup, lookup_append, lookup_cons, lookup_cons, lookup_nil]
  by_cases hc : r.Contains id
  · rw [if_pos hc, if_pos hc, lookup_before_eq_none hc.1]
    rfl
  · rw [if_neg hc, if_neg hc, Option.none_or, ← lookup_append, hs]

theorem add_nil (r : IdMapRange) (val : UInt32) : IdMapSet.add [] r val = some [⟨r, val⟩] := by
  have hle : r.End ≤ noID := by
    rw [UInt32.le_iff_toNat_le]
    have := r.End.toNat_lt
    simp [noID]
    omega
  simp [add, findSegment, after, before, gapEnd, insert, insertNext, UInt32.not_lt.mpr hle]

/-- A segment as an interval of naturals. -/
def segInterval (seg : IdMapSeg) : ℕ × ℕ :=
  (seg.range.start.toNat, seg.range.End.toNat)

theorem intersect_length_toNat (r r2 : IdMapRange) :
    (r.intersect r2).length.toNat =
      IntervalCover.overlap (r.start.toNat, r.End.toNat) r2.start.toNat r2.End.toNat := by
  simp only [IdMapRange.intersect, IdMapRange.length, IntervalCover.overlap]
  have := r.start.toNat_lt
  have := r.End.toNat_lt
  have := r2.start.toNat_lt
  have := r2.End.toNat_lt
  split_ifs <;> simp only [UInt32.toNat_sub, UInt32.lt_iff_toNat_lt, gt_iff_lt] at * <;> omega

/-- A range that `allIDsMapped` accepts is mapped in full. -/
theorem lookup_ne_none_of_allIDsMapped {m : IdMapSet} {start e b : UInt32} (hwf : WellFormed m)
    (h : allIDsMapped m start e = true) (hb : (⟨start, e⟩ : IdMapRange).Contains b) :
    lookup m b ≠ none := by
  intro hnone
  rw [lookup_eq_none_iff] at hnone
  rw [IdMapRange.contains_iff] at hb
  dsimp only at hb
  simp only [allIDsMapped, spanRange, beq_iff_eq] at h
  have hlen : (e - start).toNat = e.toNat - start.toNat := by
    have := e.toNat_lt
    rw [UInt32.toNat_sub]
    omega
  have hlen0 : (⟨start, e⟩ : IdMapRange).length ≠ 0 := by
    intro h0
    have := congrArg UInt32.toNat h0
    rw [IdMapRange.length, hlen] at this
    simp at this
    omega
  rw [if_neg hlen0] at h
  have hsum := congrArg UInt32.toNat h
  rw [UInt32.toNat_foldl_add] at hsum
  simp only [intersect_length_toNat, hlen, UInt32.toNat_zero, zero_add] at hsum
  set L := (m.after start).takeWhile fun seg => seg.range.start < e
  have hsub : L.Sublist m := (List.takeWhile_sublist _).trans (List.dropWhile_sublist _)
  have hsorted : IntervalCover.Sorted (L.map segInterval) :=
    List.pairwise_map.mpr ((hwf.sorted.sublist hsub).imp fun h => UInt32.le_iff_toNat_le.mp h)
  have hcov : ∀ i ∈ L.map segInterval, ¬ (i.1 ≤ b.toNat ∧ b.toNat < i.2) := by
    simp only [List.mem_map]
    rintro _ ⟨seg, hseg, rfl⟩
    have := hnone seg (hsub.subset hseg)
    rwa [IdMapRange.contains_iff] at this
  have hlt := IntervalCover.sum_overlap_lt hsorted hb.1 hb.2 hcov
  rw [List.map_map] at hlt
  have hbound := e.toNat_lt
  rw [Nat.mod_eq_of_lt (by exact lt_of_lt_of_le hlt (by omega))] at hsum
  exact absurd hsum (Nat.ne_of_lt hlt)

end IdMapSet
end Auth
