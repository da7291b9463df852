import Gvisor.Segment.WellFormed

/-! What a segment set says about one key: the segment whose range holds it, and what
its value says there, as a reading `α` of a segment's range and value at a key. A
mutator that replaces a run of segments by another run over the same keys changes
nothing outside those keys, and `Split` and `Merge`, where they keep what `α` reads,
change nothing inside them either. From this each mutator of `Segment.Set` is described
key by key: `SetValue` and `Insert` set what the set says over their range, `Remove`
clears it, and `SplitUnchecked` and `Isolate` keep it. -/

namespace Segment

variable {V A : Type*}

/-- The segment whose range holds `x`. -/
def lookup (s : List (Range × V)) (x : ℕ) : Option (Range × V) := s.find? fun p => p.1.contains x

/-- What the set says at `x`, as `α` reads the segment that holds it. -/
def readAt (α : Range → V → ℕ → A) (s : List (Range × V)) (x : ℕ) : Option A :=
  (lookup s x).map fun p => α p.1 p.2 x

/-- Every segment of `l` lies in `[lo, hi)`. -/
def Within (lo hi : ℕ) (l : List (Range × V)) : Prop := ∀ p ∈ l, lo ≤ p.1.Start ∧ p.1.End ≤ hi

section Splice

variable {pre old mid post l : List (Range × V)} {lo hi x : ℕ}

@[simp] theorem lookup_nil : lookup ([] : List (Range × V)) x = none := rfl

theorem lookup_cons (p : Range × V) (l : List (Range × V)) :
    lookup (p :: l) x = if p.1.contains x then some p else lookup l x := by
  simp only [lookup, List.find?_cons]
  split <;> simp_all

theorem lookup_append (a b : List (Range × V)) : lookup (a ++ b) x = (lookup a x).or (lookup b x) :=
  List.find?_append

theorem lookup_eq_none (h : ∀ p ∈ l, ¬ (p.1.Start ≤ x ∧ x < p.1.End)) : lookup l x = none := by
  rw [lookup, List.find?_eq_none]
  intro p hp
  simpa [Range.contains] using h p hp

theorem lookup_eq_none_of_within (hl : Within lo hi l) (hx : ¬ (lo ≤ x ∧ x < hi)) :
    lookup l x = none :=
  lookup_eq_none fun p hp hpx => hx (by have := hl p hp; omega)

/-- Inside the keys of a run, the set says what the run says. -/
theorem lookup_splice_of_mem (hpre : ∀ p ∈ pre, p.1.End ≤ lo) (hpost : ∀ p ∈ post, hi ≤ p.1.Start)
    (hx : lo ≤ x ∧ x < hi) : lookup (pre ++ mid ++ post) x = lookup mid x := by
  have hpre' : lookup pre x = none := lookup_eq_none fun p hp hpx => by have := hpre p hp; omega
  have hpost' : lookup post x = none := lookup_eq_none fun p hp hpx => by have := hpost p hp; omega
  rw [lookup_append, lookup_append, hpre', hpost', Option.none_or, Option.or_none]

/-- Outside the keys of a run, what the run holds does not matter. -/
theorem lookup_splice_of_not_mem (hold : Within lo hi old) (hmid : Within lo hi mid)
    (hx : ¬ (lo ≤ x ∧ x < hi)) : lookup (pre ++ mid ++ post) x = lookup (pre ++ old ++ post) x := by
  rw [lookup_append, lookup_append, lookup_append, lookup_append, lookup_eq_none_of_within hold hx,
    lookup_eq_none_of_within hmid hx]

end Splice

section Positions

variable [Inhabited V] {F : Functions V} {s : List (Range × V)} {p : Range × V} {k n i gap : ℕ}

theorem exists_of_mem_drop_take (hp : p ∈ (s.drop k).take n) :
    ∃ j, k ≤ j ∧ j < k + n ∧ j < s.length ∧ p = (segRange s j, value s j) := by
  obtain ⟨i, hi, rfl⟩ := List.mem_iff_getElem.1 hp
  simp only [List.length_take, List.length_drop] at hi
  refine ⟨k + i, by omega, by omega, by omega, ?_⟩
  rw [List.getElem_take, List.getElem_drop, getElem_eq]

theorem exists_of_mem_take (hp : p ∈ s.take k) :
    ∃ j < k, j < s.length ∧ p = (segRange s j, value s j) := by
  rw [← @List.drop_zero _ s] at hp
  obtain ⟨j, -, hj, hl, rfl⟩ := exists_of_mem_drop_take hp
  exact ⟨j, by omega, hl, rfl⟩

theorem exists_of_mem_drop (hp : p ∈ s.drop k) :
    ∃ j, k ≤ j ∧ j < s.length ∧ p = (segRange s j, value s j) := by
  rw [← @List.take_length _ (s.drop k)] at hp
  obtain ⟨j, hk, -, hl, rfl⟩ := exists_of_mem_drop_take hp
  exact ⟨j, hk, hl, rfl⟩

namespace WellFormed

variable (hw : WellFormed F s)
include hw

theorem segEnd_le_gapStart (hi : i < gap) (hg : gap ≤ s.length) : segEnd s i ≤ gapStart s F gap := by
  rw [gapStart_of_pos (by omega)]
  exact hw.segEnd_le_segEnd (by omega) (by omega)

theorem gapEnd_le_segStart (hi : gap ≤ i) (hl : i < s.length) : gapEnd s F gap ≤ segStart s i := by
  rw [gapEnd_of_lt (by omega)]
  exact hw.segStart_le_segStart hi hl

theorem gapStart_le_segStart (hi : gap ≤ i) (hl : i < s.length) : gapStart s F gap ≤ segStart s i := by
  rcases Nat.eq_zero_or_pos gap with rfl | hpos
  · rw [gapStart_zero]
    exact (hw.range i hl).1
  · have := hw.segEnd_le_gapStart (show gap - 1 < gap by omega) (show gap ≤ s.length by omega)
    have := hw.end_le_start (show gap - 1 < i by omega) hl
    rw [gapStart_of_pos hpos] at *
    omega

theorem segEnd_le_gapEnd_of_lt (hi : i < gap) (hg : gap ≤ s.length) : segEnd s i ≤ gapEnd s F gap := by
  have := hw.segEnd_le_segEnd (show i ≤ gap - 1 by omega) (show gap - 1 < s.length by omega)
  have := hw.segEnd_le_gapEnd (show gap - 1 < s.length by omega)
  rw [Nat.sub_add_cancel (show 1 ≤ gap by omega)] at this
  omega

/-- The segments between the gaps `k` and `k'` lie in the keys from one to the other. -/
theorem within_drop_take {k' : ℕ} (hk : k ≤ k') (hk' : k' ≤ s.length) :
    Within (gapStart s F k) (gapEnd s F k') ((s.drop k).take (k' - k)) := by
  intro p hp
  obtain ⟨j, hkj, hjk, hl, rfl⟩ := exists_of_mem_drop_take hp
  exact ⟨hw.gapStart_le_segStart hkj hl, hw.segEnd_le_gapEnd_of_lt (by omega) hk'⟩

theorem end_le_of_mem_take (hk : k ≤ s.length) : ∀ p ∈ s.take k, p.1.End ≤ gapStart s F k := by
  intro p hp
  obtain ⟨j, hj, -, rfl⟩ := exists_of_mem_take hp
  exact hw.segEnd_le_gapStart hj hk

theorem le_start_of_mem_drop : ∀ p ∈ s.drop k, gapEnd s F k ≤ p.1.Start := by
  intro p hp
  obtain ⟨j, hkj, hl, rfl⟩ := exists_of_mem_drop hp
  exact hw.gapEnd_le_segStart hkj hl

theorem start_lt_end_of_mem (hp : p ∈ s) : p.1.Start < p.1.End := by
  obtain ⟨i, hi, rfl⟩ := List.mem_iff_getElem.1 hp
  rw [getElem_eq hi]
  exact (hw.range i hi).2.1

end WellFormed

end Positions

section Splice

variable [Inhabited V] {F : Functions V} {s mid : List (Range × V)} {α : Range → V → ℕ → A}
  {k k' x : ℕ}

/-- The segments of `s` from the gap `k` to the gap `k'`. -/
abbrev between (s : List (Range × V)) (k k' : ℕ) : List (Range × V) := (s.drop k).take (k' - k)

omit [Inhabited V] in
theorem eq_take_between_drop (hk : k ≤ k') : s = s.take k ++ between s k k' ++ s.drop k' := by
  have hd : s.drop k' = (s.drop k).drop (k' - k) := by
    rw [List.drop_drop]
    congr 1
    omega
  rw [List.append_assoc, between, hd, List.take_append_drop, List.take_append_drop]

/-- A run of segments put in place of those from the gap `k` to the gap `k'` decides what
the set says between the gaps, and nothing else. -/
theorem readAt_splice (hw : WellFormed F s) (hk : k ≤ k') (hk' : k' ≤ s.length)
    (hmid : Within (gapStart s F k) (gapEnd s F k') mid) :
    readAt α (s.take k ++ mid ++ s.drop k') x =
      if gapStart s F k ≤ x ∧ x < gapEnd s F k' then readAt α mid x else readAt α s x := by
  split_ifs with hx
  · rw [readAt, lookup_splice_of_mem (hw.end_le_of_mem_take (by omega)) hw.le_start_of_mem_drop hx]
    rfl
  · conv_rhs => rw [eq_take_between_drop (s := s) hk]
    rw [readAt, readAt, lookup_splice_of_not_mem (hw.within_drop_take hk hk') hmid hx]

/-- Between the gaps, the set says what its segments there say. -/
theorem readAt_of_between (hw : WellFormed F s) (hk : k ≤ k') (hk' : k' ≤ s.length)
    (hx : gapStart s F k ≤ x ∧ x < gapEnd s F k') : readAt α s x = readAt α (between s k k') x := by
  have h := readAt_splice (α := α) (x := x) hw hk hk' (hw.within_drop_take hk hk')
  rw [← eq_take_between_drop (s := s) hk, if_pos hx] at h
  exact h

end Splice

theorem Range.contains_iff {r : Range} {x : ℕ} : r.contains x = true ↔ r.Start ≤ x ∧ x < r.End := by
  simp [Range.contains]

section Mutators

variable [Inhabited V] {F : Functions V} {s : List (Range × V)} {α : Range → V → ℕ → A}
  {seg gap x y : ℕ} {v : V} {r : Range}

variable (F) (α) in
/-- `Merge` and `Split` keep what `α` reads at every key. -/
structure KeepsAt : Prop where
  merge : ∀ r1 v1 r2 v2 m, F.merge r1 v1 r2 v2 = some m → r1.End = r2.Start →
    (∀ x, r1.contains x → α ⟨r1.Start, r2.End⟩ m x = α r1 v1 x) ∧
      (∀ x, r2.contains x → α ⟨r1.Start, r2.End⟩ m x = α r2 v2 x)
  split : ∀ r v y, r.canSplitAt y →
    (∀ x, r.Start ≤ x → x < y → α ⟨r.Start, y⟩ (F.split r v y).1 x = α r v x) ∧
      (∀ x, y ≤ x → x < r.End → α ⟨y, r.End⟩ (F.split r v y).2 x = α r v x)

variable (F) (α) in
/-- `Split` keeps what `α` reads at every key: the part of `KeepsAt` that `Isolate` needs. -/
def SplitKeeps : Prop :=
  ∀ r v y, r.canSplitAt y →
    (∀ x, r.Start ≤ x → x < y → α ⟨r.Start, y⟩ (F.split r v y).1 x = α r v x) ∧
      (∀ x, y ≤ x → x < r.End → α ⟨y, r.End⟩ (F.split r v y).2 x = α r v x)

omit [Inhabited V] in
@[simp] theorem readAt_nil : readAt α ([] : List (Range × V)) x = none := rfl

omit [Inhabited V] in
theorem readAt_cons (p : Range × V) (l : List (Range × V)) :
    readAt α (p :: l) x = if p.1.contains x then some (α p.1 p.2 x) else readAt α l x := by
  rw [readAt, lookup_cons]
  split_ifs <;> rfl

theorem between_succ (hseg : seg < s.length) : between s seg (seg + 1) = [(segRange s seg, value s seg)] := by
  rw [between, Nat.add_sub_cancel_left, List.drop_eq_getElem_cons hseg, getElem_eq hseg]
  rfl

theorem between_succ_succ (hseg : seg + 1 < s.length) :
    between s seg (seg + 2) = [(segRange s seg, value s seg), (segRange s (seg + 1), value s (seg + 1))] := by
  rw [between, Nat.add_sub_cancel_left, List.drop_eq_getElem_cons (by omega), getElem_eq (by omega),
    List.drop_eq_getElem_cons hseg, getElem_eq hseg]
  rfl

/-- A segment lies in the keys between the gaps around it. -/
theorem WellFormed.within_seg (hw : WellFormed F s) (hseg : seg < s.length) :
    gapStart s F seg ≤ segStart s seg ∧ segEnd s seg ≤ gapEnd s F (seg + 1) :=
  ⟨hw.gapStart_le_segStart (Nat.le_refl _) hseg, hw.segEnd_le_gapEnd hseg⟩

theorem modify_eq_splice (hseg : seg < s.length) (f : Range × V → Range × V) :
    s.modify seg f = s.take seg ++ [f (segRange s seg, value s seg)] ++ s.drop (seg + 1) := by
  rw [List.modify_eq_take_cons_drop hseg, getElem_eq hseg, List.append_assoc, List.singleton_append]

/-! What a run of one or two segments says, as `Merge` and `Split` make them. -/

section Runs

variable {l : List (Range × V)} {r1 r2 : Range} {v1 v2 m : V}

omit [Inhabited V] in
/-- A segment that says over each half of its range what that half said, says what the two
halves said. -/
theorem readAt_merge_cons_of (hm1 : ∀ x, r1.contains x → α ⟨r1.Start, r2.End⟩ m x = α r1 v1 x)
    (hm2 : ∀ x, r2.contains x → α ⟨r1.Start, r2.End⟩ m x = α r2 v2 x)
    (he : r1.End = r2.Start) (h1 : r1.Start ≤ r1.End) (h2 : r2.Start ≤ r2.End) :
    readAt α ((⟨r1.Start, r2.End⟩, m) :: l) x = readAt α ((r1, v1) :: (r2, v2) :: l) x := by
  simp only [readAt_cons]
  by_cases hx1 : r1.contains x
  · rw [if_pos (by rw [Range.contains_iff] at hx1 ⊢; dsimp only; omega), if_pos hx1, hm1 x hx1]
  by_cases hx2 : r2.contains x
  · rw [if_pos (by rw [Range.contains_iff] at hx2 ⊢; dsimp only; omega), if_neg hx1, if_pos hx2,
      hm2 x hx2]
  · rw [if_neg (by rw [Range.contains_iff] at hx1 hx2 ⊢; dsimp only; omega), if_neg hx1, if_neg hx2]

omit [Inhabited V] in
/-- A segment that `Merge` made says what its two halves said. -/
theorem readAt_merge_cons (hk : KeepsAt F α) (hm : F.merge r1 v1 r2 v2 = some m)
    (he : r1.End = r2.Start) (h1 : r1.Start ≤ r1.End) (h2 : r2.Start ≤ r2.End) :
    readAt α ((⟨r1.Start, r2.End⟩, m) :: l) x = readAt α ((r1, v1) :: (r2, v2) :: l) x :=
  readAt_merge_cons_of (hk.merge r1 v1 r2 v2 m hm he).1 (hk.merge r1 v1 r2 v2 m hm he).2 he h1 h2

omit [Inhabited V] in
/-- The two halves that `Split` makes say what the segment said. -/
theorem readAt_split_cons (hk : SplitKeeps F α) (h : r.canSplitAt y) :
    readAt α ((⟨r.Start, y⟩, (F.split r v y).1) :: (⟨y, r.End⟩, (F.split r v y).2) :: l) x =
      readAt α ((r, v) :: l) x := by
  obtain ⟨hs1, hs2⟩ := hk r v y h
  rw [Range.canSplitAt_iff] at h
  simp only [readAt_cons]
  by_cases hx1 : r.Start ≤ x ∧ x < y
  · rw [if_pos (Range.contains_iff.2 hx1), if_pos (Range.contains_iff.2 (by omega)), hs1 x hx1.1 hx1.2]
  by_cases hx2 : y ≤ x ∧ x < r.End
  · rw [if_neg (by rw [Range.contains_iff]; exact hx1), if_pos (Range.contains_iff.2 hx2),
      if_pos (Range.contains_iff.2 (by omega)), hs2 x hx2.1 hx2.2]
  · rw [if_neg (by rw [Range.contains_iff]; exact hx1), if_neg (by rw [Range.contains_iff]; exact hx2),
      if_neg (by rw [Range.contains_iff]; omega)]

omit [Inhabited V] in
/-- A segment after another one says what it says over its own range. -/
theorem readAt_insert_middle {p : Range × V} (hp : p.1.End ≤ r.Start) :
    readAt α (p :: (r, v) :: l) x = if r.contains x then some (α r v x) else readAt α (p :: l) x := by
  simp only [readAt_cons]
  by_cases hx : r.contains x
  · rw [if_neg (by rw [Range.contains_iff] at hx ⊢; omega), if_pos hx, if_pos hx]
  · rw [if_neg hx, if_neg hx]

end Runs

/-- `SetValue`: the new value over the segment's range. -/
theorem readAt_setValue (hw : WellFormed F s) (hseg : seg < s.length) :
    readAt α (setValue s seg v) x =
      if (segRange s seg).contains x then some (α (segRange s seg) v x) else readAt α s x := by
  have hset : setValue s seg v = s.take seg ++ [(segRange s seg, v)] ++ s.drop (seg + 1) := by
    rw [setValue, List.modify_eq_take_cons_drop hseg, getElem_eq hseg, List.append_assoc,
      List.singleton_append]
  have hin := hw.within_seg hseg
  rw [hset, readAt_splice hw (Nat.le_add_right seg 1) hseg (fun p hp => by
    rw [List.mem_singleton] at hp
    subst hp
    exact hin)]
  split_ifs with hx hc hc
  · rw [readAt_cons, if_pos hc]
  · rw [readAt_of_between hw (Nat.le_add_right seg 1) hseg hx, between_succ hseg, readAt_cons, readAt_cons,
      if_neg hc, if_neg hc]
  · rw [Range.contains_iff] at hc
    simp only [segStart, segEnd] at hin
    omega
  · rfl

/-- `Remove`: nothing over the segment's range. -/
theorem readAt_eraseIdx (hw : WellFormed F s) (hseg : seg < s.length) :
    readAt α (s.eraseIdx seg) x = if (segRange s seg).contains x then none else readAt α s x := by
  have hin := hw.within_seg hseg
  rw [List.eraseIdx_eq_take_drop_succ, ← List.append_nil (s.take seg),
    readAt_splice hw (Nat.le_add_right seg 1) hseg (fun p hp => absurd hp List.not_mem_nil)]
  split_ifs with hx hc hc
  · rfl
  · rw [readAt_of_between hw (Nat.le_add_right seg 1) hseg hx, between_succ hseg, readAt_cons,
      if_neg hc, readAt_nil]
  · rw [Range.contains_iff] at hc
    simp only [segStart, segEnd] at hin
    omega
  · rfl

/-- `SplitUnchecked` keeps what the set says at every key. -/
theorem readAt_splitUnchecked (hw : WellFormed F s) (hk : SplitKeeps F α)
    (h : (segRange s seg).canSplitAt y) : readAt α (splitUnchecked F s seg y).1 x = readAt α s x := by
  have hseg := lt_length_of_canSplitAt h
  have hin := hw.within_seg hseg
  have hy := Range.canSplitAt_iff.1 h
  have hsplit : (splitUnchecked F s seg y).1 = s.take seg ++
      [(⟨(segRange s seg).Start, y⟩, (F.split (segRange s seg) (value s seg) y).1),
        (⟨y, (segRange s seg).End⟩, (F.split (segRange s seg) (value s seg) y).2)] ++
      s.drop (seg + 1) := by
    rw [splitUnchecked_eq]
    simp only [setValue, setEndUnchecked, List.modify_modify_eq]
    rw [List.modify_insertIdx_succ hseg, getElem_eq hseg]
    simp [segEnd]
  rw [hsplit, readAt_splice hw (Nat.le_add_right seg 1) hseg (by
    intro p hp
    simp only [List.mem_cons, List.not_mem_nil, or_false] at hp
    simp only [segStart, segEnd] at hin
    rcases hp with rfl | rfl <;> (dsimp only; omega))]
  split_ifs with hx
  · rw [readAt_of_between hw (Nat.le_add_right seg 1) hseg hx, between_succ hseg, readAt_split_cons hk h]
  · rfl

/-- `InsertWithoutMergingUnchecked` into a gap that holds the range: the new value over it. -/
theorem readAt_insertIdx (hw : WellFormed F s) (hg : InGap F s gap r) :
    readAt α (s.insertIdx gap (r, v)) x = if r.contains x then some (α r v x) else readAt α s x := by
  rw [List.insertIdx_eq_take_cons_drop hg.le_length, ← List.singleton_append, ← List.append_assoc,
    readAt_splice hw (Nat.le_refl gap) hg.le_length (by
      intro p hp
      rw [List.mem_singleton] at hp
      subst hp
      exact ⟨hg.start_le, hg.end_le⟩)]
  split_ifs with hx hc hc
  · rw [readAt_cons, if_pos hc]
  · rw [readAt_of_between hw (Nat.le_refl gap) hg.le_length hx, readAt_cons, if_neg hc]
    simp [between]
  · rw [Range.contains_iff] at hc
    have := hg.start_le
    have := hg.end_le
    omega
  · rfl

/-- `Insert` into a gap that holds the range: the new value over it, whichever of its
neighbours it merged with. -/
theorem InsertResult.readAt {res : List (Range × V) × ℕ} (h : InsertResult F s gap r v res)
    (hw : WellFormed F s) (hg : InGap F s gap r) (hk : KeepsAt F α) :
    Segment.readAt α res.1 x = if r.contains x then some (α r v x) else Segment.readAt α s x := by
  have hl := hg.le_length
  have hr := hg.start_lt
  cases h with
  | insertIdx => exact readAt_insertIdx hw hg
  | mergePrev m hpos hend hm =>
    obtain ⟨g, rfl⟩ : ∃ g, gap = g + 1 := ⟨gap - 1, by omega⟩
    simp only [Nat.add_sub_cancel] at hend hm ⊢
    have hseg : g < s.length := by omega
    have hin := hw.within_seg hseg
    have hlist : setValue (setEndUnchecked s g r.End) g m =
        s.take g ++ [(⟨(segRange s g).Start, r.End⟩, m)] ++ s.drop (g + 1) := by
      simp only [setValue, setEndUnchecked, List.modify_modify_eq]
      rw [modify_eq_splice hseg]
      rfl
    have hmid : Within (gapStart s F g) (gapEnd s F (g + 1)) [(⟨(segRange s g).Start, r.End⟩, m)] := by
      intro p hp
      rw [List.mem_singleton] at hp
      subst hp
      exact ⟨hin.1, hg.end_le⟩
    have hrun : Segment.readAt α [(⟨(segRange s g).Start, r.End⟩, m)] x =
        if r.contains x then some (α r v x) else Segment.readAt α [(segRange s g, value s g)] x :=
      (readAt_merge_cons hk hm hend (Nat.le_of_lt (hw.range g hseg).2.1) (Nat.le_of_lt hr)).trans
        (readAt_insert_middle (Nat.le_of_eq hend))
    rw [hlist, readAt_splice hw (Nat.le_add_right g 1) hl hmid]
    split_ifs with hx hc hc
    · rw [hrun, if_pos hc]
    · rw [hrun, if_neg hc, readAt_of_between hw (Nat.le_add_right g 1) hl hx, between_succ hseg]
    · rw [Range.contains_iff] at hc
      have h1 := hg.end_le
      have h2 := (hw.range g hseg).2.1
      simp only [segStart, segEnd] at hin hend h2
      omega
    · rfl
  | mergeBoth m m2 hpos hend hlt hstart hm hm2 =>
    obtain ⟨g, rfl⟩ : ∃ g, gap = g + 1 := ⟨gap - 1, by omega⟩
    simp only [Nat.add_sub_cancel] at hend hm hm2 ⊢
    have hseg : g < s.length := by omega
    have hin := hw.within_seg hseg
    have hin' : gapStart s F (g + 1) ≤ segStart s (g + 1) ∧ segEnd s (g + 1) ≤ gapEnd s F (g + 2) :=
      hw.within_seg hlt
    have hlist : (setValue (setEndUnchecked (setValue (setEndUnchecked s g r.End) g m) g
        (segEnd s (g + 1))) g m2).eraseIdx (g + 1) =
        s.take g ++ [(⟨(segRange s g).Start, (segRange s (g + 1)).End⟩, m2)] ++ s.drop (g + 2) := by
      simp only [setValue, setEndUnchecked, List.modify_modify_eq]
      rw [List.modify_eraseIdx_succ hlt, getElem_eq hseg, List.append_assoc, List.singleton_append]
      rfl
    have hmid : Within (gapStart s F g) (gapEnd s F (g + 2))
        [(⟨(segRange s g).Start, (segRange s (g + 1)).End⟩, m2)] := by
      intro p hp
      rw [List.mem_singleton] at hp
      subst hp
      exact ⟨hin.1, hin'.2⟩
    have hrun : Segment.readAt α [(⟨(segRange s g).Start, (segRange s (g + 1)).End⟩, m2)] x =
        if r.contains x then some (α r v x)
        else Segment.readAt α [(segRange s g, value s g), (segRange s (g + 1), value s (g + 1))] x :=
      calc Segment.readAt α [(⟨(segRange s g).Start, (segRange s (g + 1)).End⟩, m2)] x
          = Segment.readAt α [(⟨(segRange s g).Start, r.End⟩, m), (segRange s (g + 1), value s (g + 1))] x :=
            readAt_merge_cons hk hm2 hstart.symm (by have := (hw.range g hseg).2.1; simp only [segEnd] at hend this ⊢; omega)
              (Nat.le_of_lt (hw.range (g + 1) hlt).2.1)
        _ = Segment.readAt α [(segRange s g, value s g), (r, v), (segRange s (g + 1), value s (g + 1))] x :=
            readAt_merge_cons hk hm hend (Nat.le_of_lt (hw.range g hseg).2.1) (Nat.le_of_lt hr)
        _ = _ := readAt_insert_middle (Nat.le_of_eq hend)
    rw [hlist, readAt_splice hw (show g ≤ g + 2 by omega) hlt hmid]
    split_ifs with hx hc hc
    · rw [hrun, if_pos hc]
    · rw [hrun, if_neg hc, readAt_of_between hw (show g ≤ g + 2 by omega) hlt hx, between_succ_succ hlt]
    · rw [Range.contains_iff] at hc
      have h1 := (hw.range g hseg).2.1
      have h2 := (hw.range (g + 1) hlt).2.1
      simp only [segStart, segEnd] at hin hin' hend hstart h1 h2
      omega
    · rfl
  | mergeNext m hlt hstart hm =>
    have hin := hw.within_seg hlt
    have hlist : setValue (setStartUnchecked s gap r.Start) gap m =
        s.take gap ++ [(⟨r.Start, (segRange s gap).End⟩, m)] ++ s.drop (gap + 1) := by
      simp only [setValue, setStartUnchecked, List.modify_modify_eq]
      rw [modify_eq_splice hlt]
      rfl
    have hmid : Within (gapStart s F gap) (gapEnd s F (gap + 1)) [(⟨r.Start, (segRange s gap).End⟩, m)] := by
      intro p hp
      rw [List.mem_singleton] at hp
      subst hp
      exact ⟨hg.start_le, hin.2⟩
    have hrun : Segment.readAt α [(⟨r.Start, (segRange s gap).End⟩, m)] x =
        if r.contains x then some (α r v x) else Segment.readAt α [(segRange s gap, value s gap)] x :=
      (readAt_merge_cons hk hm hstart.symm (Nat.le_of_lt hr) (Nat.le_of_lt (hw.range gap hlt).2.1)).trans
        (readAt_cons _ _)
    rw [hlist, readAt_splice hw (Nat.le_add_right gap 1) hlt hmid]
    split_ifs with hx hc hc
    · rw [hrun, if_pos hc]
    · rw [hrun, if_neg hc, readAt_of_between hw (Nat.le_add_right gap 1) hlt hx, between_succ hlt]
    · rw [Range.contains_iff] at hc
      have h1 := hg.start_le
      have h2 := (hw.range gap hlt).2.1
      simp only [segStart, segEnd] at hin hstart h2
      omega
    · rfl

theorem readAt_insert (hw : WellFormed F s) (hg : InGap F s gap r) (hk : KeepsAt F α) :
    readAt α (insert F s gap r v).1 x = if r.contains x then some (α r v x) else readAt α s x :=
  (insert_spec F s gap r v).readAt hw hg hk

/-- `Isolate` keeps what the set says at every key. -/
theorem readAt_isolate (hw : WellFormed F s) (hk : SplitKeeps F α) :
    readAt α (isolate F s seg r).1 x = readAt α s x :=
  (isolate_induction (fun s' => WellFormed F s' ∧ readAt α s' x = readAt α s x)
    (fun _ _ _ h ⟨hw', he⟩ => ⟨hw'.splitUnchecked h, (readAt_splitUnchecked hw' hk h).trans he⟩)
    ⟨hw, rfl⟩).2

end Mutators

section Shapes

variable [Inhabited V] {F : Functions V} {s s' : List (Range × V)} {p : Range × V}
  {t : List (Range × V)} {α : Range → V → ℕ → A} {i j seg gap x : ℕ} {r : Range}

theorem segRange_of_drop (h : s.drop i = p :: t) : segRange s i = p.1 ∧ value s i = p.2 := by
  simp only [segRange, value, List.getD_eq_getElem?_getD, List.getElem?_of_drop h, Option.getD_some,
    and_self]

/-- The end of a gap is read off the segments from it on. -/
theorem gapEnd_eq_of_drop (h : s.drop i = s'.drop j) : gapEnd s F i = gapEnd s' F j := by
  cases hd : s.drop i with
  | nil =>
    rw [hd] at h
    rw [gapEnd_of_le (List.drop_eq_nil_iff.1 hd), gapEnd_of_le (List.drop_eq_nil_iff.1 h.symm)]
  | cons q t =>
    rw [hd] at h
    rw [gapEnd_of_lt (List.lt_length_of_drop hd), gapEnd_of_lt (List.lt_length_of_drop h.symm),
      segStart, segStart, (segRange_of_drop hd).1, (segRange_of_drop h.symm).1]

/-- The segment that `Isolate` returns is the part of the segment it was given inside `r`. -/
theorem segRange_isolate (hseg : seg < s.length) (hr : r.Start < r.End)
    (h1 : r.Start < segEnd s seg) (h2 : segStart s seg < r.End) :
    segRange (isolate F s seg r).1 (isolate F s seg r).2 =
        ⟨max (segStart s seg) r.Start, min (segEnd s seg) r.End⟩ ∧
      (isolate F s seg r).2 < (isolate F s seg r).1.length := by
  unfold isolate
  by_cases hs : (segRange s seg).canSplitAt r.Start
  · have hs' := Range.canSplitAt_iff.1 hs
    have hd := drop_succ_splitUnchecked (F := F) (x := r.Start) hseg
    obtain ⟨hr1, -⟩ := segRange_of_drop hd
    have hl := List.lt_length_of_drop hd
    simp only [hs, ↓reduceIte, splitUnchecked_snd]
    by_cases he : (segRange (splitUnchecked F s seg r.Start).1 (seg + 1)).canSplitAt r.End
    · simp only [he, ↓reduceIte]
      have hd' := drop_splitUnchecked (F := F) (x := r.End) hl
      obtain ⟨hr2, -⟩ := segRange_of_drop hd'
      have hst : segStart (splitUnchecked F s seg r.Start).1 (seg + 1) = r.Start := by
        rw [segStart, hr1]
      rw [hr2, hst]
      rw [hr1, Range.canSplitAt_iff] at he
      refine ⟨?_, by rw [length_splitUnchecked hl]; omega⟩
      simp only [segStart, segEnd] at hs' he h1 h2 ⊢
      congr 1 <;> omega
    · simp only [he, Bool.false_eq_true, ↓reduceIte]
      rw [hr1, Range.canSplitAt_iff] at he
      have hle : segEnd s seg ≤ r.End := by
        by_contra hlt
        exact he ⟨hr, show r.End < segEnd s seg by omega⟩
      refine ⟨?_, hl⟩
      have hge : segStart s seg ≤ r.Start := Nat.le_of_lt hs'.1
      rw [hr1, Nat.min_eq_left hle, Nat.max_eq_right hge]
  · simp only [hs, Bool.false_eq_true, ↓reduceIte]
    rw [Range.canSplitAt_iff] at hs
    by_cases he : (segRange s seg).canSplitAt r.End
    · simp only [he, ↓reduceIte, splitUnchecked_snd]
      have hd := drop_splitUnchecked (F := F) (x := r.End) hseg
      obtain ⟨hr2, -⟩ := segRange_of_drop hd
      rw [Range.canSplitAt_iff] at he
      refine ⟨?_, by rw [length_splitUnchecked hseg]; omega⟩
      rw [hr2]
      simp only [segStart, segEnd] at hs he h1 ⊢
      congr 1 <;> omega
    · simp only [he, Bool.false_eq_true, ↓reduceIte]
      rw [Range.canSplitAt_iff] at he
      refine ⟨?_, hseg⟩
      simp only [segStart, segEnd] at hs he h1 h2 ⊢
      cases hr : segRange s seg
      simp only [hr] at hs he h1 h2 ⊢
      congr 1 <;> omega

/-- Over its range, a segment says what its value says. -/
theorem readAt_of_contains (hw : WellFormed F s) (hseg : seg < s.length)
    (hx : (segRange s seg).contains x) : readAt α s x = some (α (segRange s seg) (value s seg) x) := by
  have hin := hw.within_seg hseg
  rw [Range.contains_iff] at hx
  simp only [segStart, segEnd] at hin
  rw [readAt_of_between hw (Nat.le_add_right seg 1) hseg (by omega), between_succ hseg, readAt_cons,
    if_pos (Range.contains_iff.2 hx)]

/-- Over a gap, the set says nothing. -/
theorem readAt_of_gap (hw : WellFormed F s) (hg : gap ≤ s.length)
    (hx : gapStart s F gap ≤ x ∧ x < gapEnd s F gap) : readAt α s x = none := by
  rw [readAt_of_between hw (Nat.le_refl gap) hg hx]
  simp [between]

/-- From `MaxKey` on, the set says nothing. -/
theorem readAt_of_maxKey_le (hw : WellFormed F s) (hx : F.maxKey ≤ x) : readAt α s x = none := by
  rw [readAt, lookup_eq_none]
  · rfl
  intro p hp
  obtain ⟨j, hj, rfl⟩ := List.mem_iff_getElem.1 hp
  rw [getElem_eq hj]
  have := (hw.range j hj).2.2
  exact fun h => absurd (Nat.lt_of_lt_of_le h.2 this) (Nat.not_lt.2 hx)

end Shapes

section Bounds

variable [Inhabited V] {s : List (Range × V)} {p : Range × V} {key : ℕ}

/-- `LowerBoundSegment` is the first segment that ends after the key. -/
theorem lowerBoundSegment_eq (s : List (Range × V)) (key : ℕ) :
    lowerBoundSegment s key = s.findIdx fun p => decide (key < p.1.End) := by
  unfold lowerBoundSegment find
  dsimp only
  generalize s.findIdx (fun p => decide (key < p.1.End)) = i
  by_cases h : i < s.length ∧ segStart s i ≤ key
  · rw [if_pos h, if_pos h.1]
  · rw [if_neg h, if_neg (Nat.lt_irrefl _)]

/-- Every segment that ends after the key is at or after `LowerBoundSegment`. -/
theorem mem_drop_lowerBoundSegment (hp : p ∈ s) (hk : key < p.1.End) :
    p ∈ s.drop (lowerBoundSegment s key) := by
  rw [lowerBoundSegment_eq]
  induction s with
  | nil => exact absurd hp List.not_mem_nil
  | cons q t ih =>
    rw [List.findIdx_cons]
    by_cases hq : key < q.1.End
    · rw [decide_eq_true hq, cond_true, List.drop_zero]
      exact hp
    · rw [decide_eq_false hq, cond_false, List.drop_succ_cons]
      rcases List.mem_cons.1 hp with rfl | hp
      · exact absurd hk hq
      · exact ih hp

theorem gapStart_lowerBoundSegment_le {F : Functions V} (hk : F.minKey ≤ key) :
    gapStart s F (lowerBoundSegment s key) ≤ key := by
  rw [lowerBoundSegment_eq]
  rcases Nat.eq_zero_or_pos (s.findIdx fun p => decide (key < p.1.End)) with h0 | hpos
  · rw [h0, gapStart_zero]
    exact hk
  · rw [gapStart_of_pos hpos]
    exact segEnd_le_of_lt_findIdx (by omega)

/-- Every segment from `LowerBoundSegment` on ends after the key. -/
theorem WellFormed.lt_end_of_mem_drop_lowerBoundSegment {F : Functions V} (hw : WellFormed F s)
    (hp : p ∈ s.drop (lowerBoundSegment s key)) : key < p.1.End := by
  obtain ⟨j, hj, hl, rfl⟩ := exists_of_mem_drop hp
  rw [lowerBoundSegment_eq] at hj
  exact Nat.lt_of_lt_of_le (segEnd_findIdx (by omega)) (hw.segEnd_le_segEnd hj hl)

end Bounds

/-! A loop that walks the segments of a range from the left and changes what each of them
says: below its frontier the set says what the sweep leaves, from it on what it said before. -/

section Sweeps

variable [Inhabited V] {F : Functions V} {α : Range → V → ℕ → A} {s s' : List (Range × V)}
  {f f' k seg x : ℕ}

variable (g : Option A → Option A) (r : Range) (H : ℕ → Option A)

/-- What a sweep over `r` leaves at the key `x`: `g` of what the set said there, inside `r`. -/
def sweptAt (x : ℕ) : Option A := if r.contains x then g (H x) else H x

variable (α) in
/-- A set in the middle of a sweep over `r`: below the frontier `f` it says what `sweptAt`
says, from `f` on what `H` says. -/
def Swept (s : List (Range × V)) (f : ℕ) : Prop :=
  ∀ x, readAt α s x = if x < f then sweptAt g r H x else H x

variable {g r H}

theorem sweptAt_of_none (hg : g none = none) (h : H x = none) : sweptAt g r H x = H x := by
  rw [sweptAt, h, hg]
  split_ifs <;> rfl

theorem sweptAt_of_not_contains (h : ¬(r.Start ≤ x ∧ x < r.End)) : sweptAt g r H x = H x := by
  rw [sweptAt, if_neg (by rwa [Range.contains_iff])]

namespace Swept

omit [Inhabited V] in
theorem congr (h : Swept α g r H s f) (h' : ∀ x, readAt α s' x = readAt α s x) : Swept α g r H s' f :=
  fun x => (h' x).trans (h x)

omit [Inhabited V] in
/-- The frontier moves over keys where the sweep changes nothing. -/
theorem advance (h : Swept α g r H s f) (hf : f ≤ f')
    (h' : ∀ x, f ≤ x → x < f' → sweptAt g r H x = H x) : Swept α g r H s f' := by
  intro x
  rw [h x]
  by_cases hx : x < f
  · rw [if_pos hx, if_pos (Nat.lt_of_lt_of_le hx hf)]
  by_cases hx' : x < f'
  · rw [if_neg hx, if_pos hx', h' x (Nat.le_of_not_lt hx) hx']
  · rw [if_neg hx, if_neg hx']

omit [Inhabited V] in
/-- A sweep that has not yet reached `r`. -/
theorem init (hf : f ≤ r.Start) : Swept α g r (readAt α s) s f := by
  intro x
  split_ifs with hx
  · exact (sweptAt_of_not_contains (by omega)).symm
  · rfl

omit [Inhabited V] in
/-- The frontier moves over `[f, f')`, where the set comes to say what the sweep leaves, and the
set says what it said everywhere else. -/
theorem extend (h : Swept α g r H s f) (hf : f ≤ f')
    (h' : ∀ x, readAt α s' x = if f ≤ x ∧ x < f' then sweptAt g r H x else readAt α s x) :
    Swept α g r H s' f' := by
  intro x
  rw [h' x]
  by_cases hx : f ≤ x ∧ x < f'
  · rw [if_pos hx, if_pos hx.2]
  rw [if_neg hx, h x]
  by_cases hxf : x < f
  · rw [if_pos hxf, if_pos (by omega)]
  · rw [if_neg hxf, if_neg (by omega)]

omit [Inhabited V] in
/-- From the frontier on, the set says what it said before the sweep. -/
theorem eq_of_le (h : Swept α g r H s f) (hx : f ≤ x) : readAt α s x = H x := by
  rw [h x, if_neg (Nat.not_lt.2 hx)]

/-- The frontier moves over the segment at it, which comes to say what the sweep leaves. -/
theorem extend_seg (hw : WellFormed F s) (hk : k < s.length) (h : Swept α g r H s (gapEnd s F k))
    (h' : ∀ x, readAt α s' x = if (segRange s k).contains x then sweptAt g r H x else readAt α s x) :
    Swept α g r H s' (segEnd s k) := by
  rw [gapEnd_of_lt hk] at h
  refine h.extend (Nat.le_of_lt (hw.range k hk).2.1) fun x => ?_
  rw [h' x]
  by_cases hx : (segRange s k).contains x
  · rw [if_pos hx, if_pos (show segStart s k ≤ x ∧ x < segEnd s k from Range.contains_iff.1 hx)]
  · rw [if_neg hx, if_neg (show ¬(segStart s k ≤ x ∧ x < segEnd s k) from
      fun h => hx (Range.contains_iff.2 h))]

omit [Inhabited V] in
/-- A sweep whose frontier has passed `r.End` is done. -/
theorem done_of_le (h : Swept α g r H s f) (hf : r.End ≤ f) : ∀ x, readAt α s x = sweptAt g r H x := by
  intro x
  rw [h x]
  split_ifs with hx
  · rfl
  · exact (sweptAt_of_not_contains (by omega)).symm

/-- A sweep that leaves nothing where nothing was stands at the first segment that ends after
`r.Start`: below it, the keys of `r` lie in a gap. -/
theorem lowerBound (hg : g none = none) (hw : WellFormed F s) (hmin : F.minKey ≤ r.Start) :
    Swept α g r (readAt α s) s (gapEnd s F (lowerBoundSegment s r.Start)) := by
  have hlb : lowerBoundSegment s r.Start ≤ s.length := by
    rw [lowerBoundSegment_eq]
    exact List.findIdx_le_length
  have hgs : gapStart s F (lowerBoundSegment s r.Start) ≤ r.Start := gapStart_lowerBoundSegment_le hmin
  intro x
  split_ifs with hx
  · by_cases hxs : r.Start ≤ x
    · exact (sweptAt_of_none hg (readAt_of_gap hw hlb ⟨by omega, hx⟩)).symm
    · exact (sweptAt_of_not_contains (by omega)).symm
  · rfl

/-- `Isolate` of the segment at the frontier keeps the sweep, with the frontier at the piece it
returns, which lies in `r`: the part it cut off before `r.Start` lies outside `r`. -/
theorem isolate (hw : WellFormed F s) (hk : SplitKeeps F α) (h : Swept α g r H s (gapEnd s F seg))
    (hseg : seg < s.length) (hr : r.Start < r.End) (h1 : r.Start < segEnd s seg)
    (h2 : segStart s seg < r.End) :
    Swept α g r H (Segment.isolate F s seg r).1
        (gapEnd (Segment.isolate F s seg r).1 F (Segment.isolate F s seg r).2) ∧
      ∀ x, (segRange (Segment.isolate F s seg r).1 (Segment.isolate F s seg r).2).contains x →
        r.contains x := by
  obtain ⟨hR, hk1⟩ := segRange_isolate (F := F) hseg hr h1 h2
  have h' := h.congr fun x =>
    (readAt_isolate hw hk : readAt α (Segment.isolate F s seg r).1 x = readAt α s x)
  generalize Segment.isolate F s seg r = res at hR hk1 h' ⊢
  obtain ⟨l1, k⟩ := res
  dsimp only at hR hk1 h' ⊢
  have hstart : gapEnd l1 F k = max (segStart s seg) r.Start := by
    rw [gapEnd_of_lt hk1, segStart, hR]
  refine ⟨h'.advance ?_ fun x hx hx' => ?_, fun x hx => ?_⟩
  · rw [hstart, gapEnd_of_lt hseg]
    exact Nat.le_max_left _ _
  · rw [gapEnd_of_lt hseg] at hx
    rw [hstart] at hx'
    exact sweptAt_of_not_contains (by omega)
  · rw [hR, Range.contains_iff] at hx
    rw [Range.contains_iff]
    dsimp only at hx
    omega

/-- One turn of a sweep: the segment `k` at the frontier comes to say what `g` makes of what it
said, at each of its keys inside `r` or where `g` keeps it, and the frontier moves to the gap
after it. -/
theorem visit (hg : g none = none) (hw : WellFormed F s) (h : Swept α g r H s (gapEnd s F k))
    (hk : k < s.length)
    (hin : ∀ x, (segRange s k).contains x → r.contains x ∨
      g (some (α (segRange s k) (value s k) x)) = some (α (segRange s k) (value s k) x))
    (h' : ∀ x, readAt α s' x = if (segRange s k).contains x then
      g (some (α (segRange s k) (value s k) x)) else readAt α s x) :
    Swept α g r H s' (gapEnd s F (k + 1)) := by
  have hseg := hw.within_seg hk
  have hgk : gapEnd s F k = segStart s k := gapEnd_of_lt hk
  have hlt : gapEnd s F k < gapEnd s F (k + 1) := by
    rw [hgk]
    exact Nat.lt_of_lt_of_le (hw.range k hk).2.1 hseg.2
  intro x
  rw [h' x]
  by_cases hx : (segRange s k).contains x
  · -- on the segment, the set said what it said before the sweep
    have hx' := Range.contains_iff.1 hx
    have hH : H x = some (α (segRange s k) (value s k) x) := by
      rw [← readAt_of_contains hw hk hx, h x, if_neg (by simp only [segStart] at hgk; omega)]
    simp only [segEnd] at hseg
    rw [if_pos hx, if_pos (by omega), sweptAt, hH]
    rcases hin x hx with hin | hin
    · rw [if_pos hin]
    · split_ifs <;> rw [hin]
  rw [if_neg hx, h x]
  by_cases hf : x < gapEnd s F k
  · rw [if_pos hf, if_pos (Nat.lt_trans hf hlt)]
  by_cases hf' : x < gapEnd s F (k + 1)
  · -- past the segment, in the gap after it, the set said nothing
    have hnone : readAt α s x = none := by
      refine readAt_of_gap hw hk ⟨?_, hf'⟩
      rw [Range.contains_iff] at hx
      rw [gapStart_of_pos (by omega : 0 < k + 1), Nat.add_sub_cancel]
      simp only [segStart] at hgk
      simp only [segEnd]
      omega
    rw [h x, if_neg hf] at hnone
    rw [if_neg hf, if_pos hf', sweptAt_of_none hg hnone]
  · rw [if_neg hf, if_neg hf']

/-- Where a sweep stops, at a gap that ends at or after `r.End`, every key says what `sweptAt`
says. -/
theorem done (hg : g none = none) (hw : WellFormed F s) (h : Swept α g r H s (gapEnd s F seg))
    (hs : ¬(seg < s.length ∧ segStart s seg < r.End)) : ∀ x, readAt α s x = sweptAt g r H x := by
  intro x
  rw [h x]
  split_ifs with hx
  · rfl
  by_cases hl : seg < s.length
  · rw [gapEnd_of_lt hl] at hx
    exact (sweptAt_of_not_contains (by omega)).symm
  · -- past the last segment, from `MaxKey` on, the set says nothing
    rw [gapEnd_of_le (Nat.le_of_not_lt hl)] at hx
    have hnone : readAt α s x = none := readAt_of_maxKey_le hw (Nat.le_of_not_lt hx)
    rw [h x, if_neg (by rwa [gapEnd_of_le (Nat.le_of_not_lt hl)])] at hnone
    exact (sweptAt_of_none hg hnone).symm

end Swept

end Sweeps

end Segment
