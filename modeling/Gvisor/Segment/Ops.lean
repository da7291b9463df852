import Gvisor.Segment.Lookup

/-! `Insert`, `Add` and `RemoveRange` of `segment.Set`, key by key. `Insert` into a gap that
holds a range covers the range with the new value and keeps what the set says at every other
key, through `Merge`; `Add` inserts a non-empty range exactly where no segment overlaps it.
`RemoveRange` of a non-empty range leaves nothing over it and keeps every other key, through
`Split`, and returns a gap that holds the range. An empty range strictly inside a segment is the
exception: `Isolate` cuts the segment at the range's start but not at its end, which is the same
key, and `RemoveRange` removes the part of the segment after the cut. -/

namespace Segment

variable {V A : Type*} [Inhabited V] {F : Functions V} {s : List (Range × V)} {p : Range × V}
  {gap seg k i x : ℕ} {r : Range} {val : V} {res : List (Range × V) × ℕ}

omit [Inhabited V] in
/-- A reading that only says whether a key is covered: `Merge` and `Split` keep it. -/
theorem keepsAt_const (c : A) : KeepsAt F fun _ _ _ => c :=
  ⟨fun _ _ _ _ _ _ _ => ⟨fun _ _ => rfl, fun _ _ => rfl⟩,
    fun _ _ _ _ => ⟨fun _ _ _ => rfl, fun _ _ _ => rfl⟩⟩

omit [Inhabited V] in
theorem isSome_readAt_const (c : A) : (readAt (fun _ _ _ => c) s x).isSome = (lookup s x).isSome :=
  Option.isSome_map ..

omit [Inhabited V] in
theorem lookup_isSome_of_mem (hp : p ∈ s) (hx : p.1.contains x) : (lookup s x).isSome := by
  rw [lookup, List.find?_isSome]
  exact ⟨p, hp, hx⟩

/-- No segment overlaps a range inside a gap. -/
theorem InGap.overlaps_eq_false (hg : InGap F s gap r) (hw : WellFormed F s) (hp : p ∈ s) :
    p.1.overlaps r = false := by
  have hs := hg.start_le
  have he := hg.end_le
  rw [← List.take_append_drop gap s, List.mem_append] at hp
  simp only [Range.overlaps, Bool.and_eq_false_iff, decide_eq_false_iff_not, Nat.not_lt]
  rcases hp with hp | hp
  · exact .inr (Nat.le_trans (hw.end_le_of_mem_take hg.le_length p hp) hs)
  · exact .inl (Nat.le_trans he (hw.le_start_of_mem_drop p hp))

section Insert

/-- The segment `Insert` returns holds the range it inserted. -/
theorem InsertResult.covers (h : InsertResult F s gap r val res) (hw : WellFormed F s)
    (hg : InGap F s gap r) :
    res.2 < res.1.length ∧ (segRange res.1 res.2).Start ≤ r.Start ∧
      r.End ≤ (segRange res.1 res.2).End := by
  have hl := hg.le_length
  cases h with
  | insertIdx =>
    refine ⟨by rw [List.length_insertIdx_of_le_length hl]; omega, ?_⟩
    rw [segRange_insertIdx hl, if_neg (Nat.lt_irrefl _), if_pos rfl]
    exact ⟨Nat.le_refl _, Nat.le_refl _⟩
  | mergePrev m hpos hend _ =>
    have hlt : gap - 1 < s.length := by omega
    have hs := (hw.range (gap - 1) hlt).2.1
    refine ⟨by rw [length_setValue, length_setEndUnchecked]; exact hlt, ?_⟩
    rw [segRange_setValue, segRange_setEndUnchecked, if_pos ⟨rfl, hlt⟩]
    exact ⟨by dsimp only; omega, Nat.le_refl _⟩
  | mergeBoth m m2 hpos hend hlt hstart _ _ =>
    have hlt' : gap - 1 < s.length := by omega
    have hs := (hw.range (gap - 1) hlt').2.1
    have hs' := (hw.range gap hlt).2.1
    refine ⟨?_, ?_⟩
    · rw [List.length_eraseIdx_of_lt (by simp only [length_setValue, length_setEndUnchecked]; exact hlt)]
      simp only [length_setValue, length_setEndUnchecked]
      omega
    rw [segRange_eraseIdx, if_pos (by omega : gap - 1 < gap), segRange_setValue, segRange_setEndUnchecked,
      if_pos ⟨rfl, by simp only [length_setValue, length_setEndUnchecked]; exact hlt'⟩, segStart_setValue,
      segStart_setEndUnchecked]
    exact ⟨by dsimp only; omega, by dsimp only; omega⟩
  | mergeNext m hlt hstart _ =>
    have hs := (hw.range gap hlt).2.1
    refine ⟨by rw [length_setValue, length_setStartUnchecked]; exact hlt, ?_⟩
    rw [segRange_setValue, segRange_setStartUnchecked, if_pos ⟨rfl, hlt⟩]
    exact ⟨Nat.le_refl _, by dsimp only; omega⟩

/-- Where `Merge` merges only equal values, into that value, the segment `Insert` returns has
the value it inserted. -/
theorem InsertResult.value_eq (h : InsertResult F s gap r val res) (hl : gap ≤ s.length)
    (hm : ∀ r1 v1 r2 v2 m, F.merge r1 v1 r2 v2 = some m → v1 = v2 ∧ m = v1) :
    value res.1 res.2 = val := by
  cases h with
  | insertIdx => rw [value_insertIdx hl, if_neg (Nat.lt_irrefl _), if_pos rfl]
  | mergePrev m hpos _ h1 =>
    obtain ⟨he, rfl⟩ := hm _ _ _ _ _ h1
    rw [value_setValue, if_pos ⟨rfl, by rw [length_setEndUnchecked]; omega⟩, he]
  | mergeBoth m m2 hpos _ hlt _ h1 h2 =>
    obtain ⟨he, rfl⟩ := hm _ _ _ _ _ h1
    obtain ⟨-, rfl⟩ := hm _ _ _ _ _ h2
    rw [value_eraseIdx, if_pos (by omega), value_setValue,
      if_pos ⟨rfl, by simp only [length_setValue, length_setEndUnchecked]; omega⟩, he]
  | mergeNext m hlt _ h1 =>
    obtain ⟨-, rfl⟩ := hm _ _ _ _ _ h1
    rw [value_setValue, if_pos ⟨rfl, by rw [length_setStartUnchecked]; exact hlt⟩]

/-- `Insert` covers what the set covered, and the range. -/
theorem lookup_insert (hw : WellFormed F s) (hg : InGap F s gap r) :
    (lookup (insert F s gap r val).1 x).isSome = (r.contains x || (lookup s x).isSome) := by
  rw [← isSome_readAt_const (), ← isSome_readAt_const (),
    readAt_insert hw hg (keepsAt_const ())]
  split_ifs with hx <;> simp [hx]

/-- `Add` of a non-empty range of keys: where no segment overlaps it, it goes into the gap
`FindGap` finds, which holds it; where one does, the set stays as it was. -/
theorem add_spec (hw : WellFormed F s) (hr : r.Start < r.End) (hmin : F.minKey ≤ r.Start)
    (hmax : r.End ≤ F.maxKey) :
    ((∀ p ∈ s, p.1.overlaps r = false) →
        ∃ gap, InGap F s gap r ∧ add F s r val = some (true, (insert F s gap r val).1)) ∧
      ((∃ p ∈ s, p.1.overlaps r = true) → add F s r val = some (false, s)) := by
  unfold add
  rw [if_neg (Nat.ne_of_lt hr)]
  -- a segment that overlaps `r` makes `Add` return false
  have hfalse : ∀ i < s.length, (segRange s i).overlaps r = true →
      ((∀ p ∈ s, p.1.overlaps r = false) →
        ∃ gap, InGap F s gap r ∧ some (false, s) = some (true, (insert F s gap r val).1)) ∧
      ((∃ p ∈ s, p.1.overlaps r = true) → some (false, s) = some (false, s)) := by
    intro i hi hov
    refine ⟨fun hno => ?_, fun _ => rfl⟩
    have := hno _ (mem_of_lt_length hi)
    rw [show (segRange s i, value s i).1 = segRange s i from rfl, hov] at this
    cases this
  rcases find_cases (s := s) hmin (Nat.lt_of_lt_of_le hr hmax) with
    ⟨seg, hf, hseg, h1, h2⟩ | ⟨g, hf, hg, h1, h2⟩
  · -- `r.Start` lies in a segment
    rw [hf]
    dsimp only
    rw [if_pos (Nat.lt_succ_self _)]
    refine hfalse seg hseg ?_
    simp only [Range.overlaps, Bool.and_eq_true, decide_eq_true_eq]
    simp only [segStart, segEnd] at h1 h2
    omega
  rw [hf]
  dsimp only
  rw [if_neg (Nat.not_lt.2 hg)]
  by_cases he : r.End > gapEnd s F g
  · -- `r` runs past the gap into the segment after it
    rw [if_pos he]
    have hlt : g < s.length := by
      by_contra hn
      rw [gapEnd_of_le (Nat.le_of_not_lt hn)] at he
      omega
    rw [gapEnd_of_lt hlt] at h2 he
    refine hfalse g hlt ?_
    have := (hw.range g hlt).2.1
    simp only [Range.overlaps, Bool.and_eq_true, decide_eq_true_eq]
    simp only [segStart, segEnd] at h2 he this
    omega
  rw [if_neg he]
  have hin : InGap F s g r := ⟨hg, h1, hr, Nat.le_of_not_lt he⟩
  rw [insertChecked_of_inGap hin]
  refine ⟨fun _ => ⟨g, hin, rfl⟩, fun hex => ?_⟩
  obtain ⟨p, hp, hov⟩ := hex
  rw [hin.overlaps_eq_false hw hp] at hov
  cases hov

/-- In a well-formed set, `Insert` of a value on a non-empty range inside a gap does not panic;
it leaves a well-formed set, so no two segments overlap, that covers the old keys and the range;
every reading that `Merge` and `Split` keep says the new value over the range and what it said
before at every other key; and the segment it returns holds the range. `Add` of a non-empty range
of keys makes that insertion, into the gap `FindGap` finds, exactly where no segment overlaps
the range, and otherwise returns false with the set as it was. -/
theorem insert_add_spec (hw : WellFormed F s) (val : V) :
    (∀ gap r, InGap F s gap r → ∃ res, insertChecked F s gap r val = some res ∧
      WellFormed F res.1 ∧
      (∀ x, (lookup res.1 x).isSome = (r.contains x || (lookup s x).isSome)) ∧
      (∀ (A : Type) (α : Range → V → ℕ → A), KeepsAt F α →
        ∀ x, readAt α res.1 x = if r.contains x then some (α r val x) else readAt α s x) ∧
      res.2 < res.1.length ∧ (segRange res.1 res.2).Start ≤ r.Start ∧
        r.End ≤ (segRange res.1 res.2).End) ∧
    ∀ r, r.Start < r.End → F.minKey ≤ r.Start → r.End ≤ F.maxKey →
      ((∀ p ∈ s, p.1.overlaps r = false) →
        ∃ gap, InGap F s gap r ∧ add F s r val = some (true, (insert F s gap r val).1)) ∧
      ((∃ p ∈ s, p.1.overlaps r = true) → add F s r val = some (false, s)) := by
  refine ⟨fun gap r hg => ⟨insert F s gap r val, insertChecked_of_inGap hg, hw.insert hg,
    fun x => lookup_insert hw hg, fun _ α hk x => readAt_insert hw hg hk,
    (insert_spec F s gap r val).covers hw hg⟩, fun r hr hmin hmax => add_spec hw hr hmin hmax⟩

theorem insert_add_spec_merge :
    ∃ gap, InGap (⟨0, 100, fun _ _ _ _ => some (), fun _ v _ => (v, v)⟩ : Functions Unit)
        [(⟨0, 1⟩, ())] gap ⟨1, 5⟩ ∧
      add (⟨0, 100, fun _ _ _ _ => some (), fun _ v _ => (v, v)⟩ : Functions Unit) [(⟨0, 1⟩, ())]
          ⟨1, 5⟩ () =
        some (true, (insert (⟨0, 100, fun _ _ _ _ => some (), fun _ v _ => (v, v)⟩ : Functions Unit)
          [(⟨0, 1⟩, ())] gap ⟨1, 5⟩ ()).1) :=
  ((insert_add_spec ⟨by decide, fun _ hi => absurd hi (by simp)⟩ ()).2 ⟨1, 5⟩ (by decide)
    (by decide) (by decide)).1 (by decide)

end Insert

section Merge

variable {α : Range → V → ℕ → A} {next : ℕ} {m : V}

/-- What `MergeUnchecked` does where it merges: the first segment takes the second's end and the
merged value, and the second goes. -/
theorem mergeUnchecked_spec (h : mergeUnchecked F s seg next = some res) :
    ∃ m, segEnd s seg = segStart s next ∧
      F.merge (segRange s seg) (value s seg) (segRange s next) (value s next) = some m ∧
      res = ((setValue (setEndUnchecked s seg (segEnd s next)) seg m).eraseIdx next, next - 1) := by
  unfold mergeUnchecked at h
  split_ifs at h with he
  cases hm : F.merge (segRange s seg) (value s seg) (segRange s next) (value s next) with
  | none =>
    rw [hm] at h
    cases h
  | some m =>
    rw [hm] at h
    simp only [remove, Option.some.injEq] at h
    exact ⟨m, he, rfl, h.symm⟩

theorem merged_eq (hl : seg + 1 < s.length) :
    (setValue (setEndUnchecked s seg (segEnd s (seg + 1))) seg m).eraseIdx (seg + 1) =
      s.take seg ++ [(⟨segStart s seg, segEnd s (seg + 1)⟩, m)] ++ s.drop (seg + 2) := by
  rw [setValue, setEndUnchecked, List.modify_modify_eq, List.modify_eraseIdx_succ hl,
    getElem_eq (by omega), List.append_assoc, List.singleton_append]
  rfl

theorem WellFormed.merged (hw : WellFormed F s) (hl : seg + 1 < s.length)
    (he : segEnd s seg = segStart s (seg + 1)) :
    WellFormed F ((Segment.setValue (Segment.setEndUnchecked s seg (segEnd s (seg + 1))) seg m).eraseIdx
      (seg + 1)) := by
  have h1 := (hw.range seg (by omega)).2.1
  have h2 := (hw.range (seg + 1) hl).2.1
  rw [eraseIdx_setValue (Nat.lt_succ_self seg), eraseIdx_setEndUnchecked (Nat.lt_succ_self seg)]
  refine (hw.eraseIdx.setEndUnchecked ?_ (hw.segEnd_le_gapEnd_eraseIdx hl)).setValue
  rw [segStart_eraseIdx, if_pos (Nat.lt_succ_self seg)]
  omega

/-- A segment made of two that says over each one's range what it said, says what they said. -/
theorem readAt_merged_of (hw : WellFormed F s) (hl : seg + 1 < s.length)
    (he : segEnd s seg = segStart s (seg + 1))
    (hm1 : ∀ x, (segRange s seg).contains x →
      α ⟨segStart s seg, segEnd s (seg + 1)⟩ m x = α (segRange s seg) (value s seg) x)
    (hm2 : ∀ x, (segRange s (seg + 1)).contains x →
      α ⟨segStart s seg, segEnd s (seg + 1)⟩ m x = α (segRange s (seg + 1)) (value s (seg + 1)) x) :
    readAt α ((setValue (setEndUnchecked s seg (segEnd s (seg + 1))) seg m).eraseIdx (seg + 1)) x =
      readAt α s x := by
  have h1 := hw.within_seg (show seg < s.length by omega)
  have h2 := hw.within_seg hl
  have hr1 := (hw.range seg (by omega)).2.1
  have hr2 := (hw.range (seg + 1) hl).2.1
  have hg : segEnd s (seg + 1) ≤ gapEnd s F (seg + 2) := h2.2
  rw [merged_eq hl, readAt_splice hw (show seg ≤ seg + 2 by omega) hl fun p hp => by
    rw [List.mem_singleton] at hp
    subst hp
    exact ⟨h1.1, hg⟩]
  split_ifs with hx
  · rw [readAt_of_between hw (show seg ≤ seg + 2 by omega) hl hx, between_succ_succ hl]
    exact readAt_merge_cons_of hm1 hm2 he (Nat.le_of_lt hr1) (Nat.le_of_lt hr2)
  · rfl

/-- A segment that `Merge` made of two says what they said. -/
theorem readAt_merged (hw : WellFormed F s) (hk : KeepsAt F α) (hl : seg + 1 < s.length)
    (he : segEnd s seg = segStart s (seg + 1))
    (hm : F.merge (segRange s seg) (value s seg) (segRange s (seg + 1)) (value s (seg + 1)) = some m) :
    readAt α ((setValue (setEndUnchecked s seg (segEnd s (seg + 1))) seg m).eraseIdx (seg + 1)) x =
      readAt α s x :=
  readAt_merged_of hw hl he (hk.merge _ _ _ _ _ hm he).1 (hk.merge _ _ _ _ _ hm he).2

/-- The loop of `MergeRange` returns, and keeps the set well formed and what it says. -/
theorem mergeRangeLoop_spec (hk : KeepsAt F α) :
    ∀ (fuel : ℕ) (s : List (Range × V)) (seg : ℕ), WellFormed F s → s.length - (seg + 1) < fuel →
      ∃ s', mergeRangeLoop F r fuel s seg (seg + 1) = some s' ∧ WellFormed F s' ∧
        ∀ x, readAt α s' x = readAt α s x
  | 0, _, _, _, hf => absurd hf (Nat.not_lt_zero _)
  | fuel + 1, s, seg, hw, hf => by
    rw [mergeRangeLoop]
    split_ifs with hn
    · cases hmu : mergeUnchecked F s seg (seg + 1) with
      | none =>
        -- no merge: the next pair
        exact mergeRangeLoop_spec hk fuel s (seg + 1) hw (by omega)
      | some res =>
        obtain ⟨m, he, hm, rfl⟩ := mergeUnchecked_spec hmu
        simp only [Nat.add_sub_cancel]
        have hlen := List.length_eraseIdx_of_lt
          (show seg + 1 < (setValue (setEndUnchecked s seg (segEnd s (seg + 1))) seg m).length by
            rw [length_setValue, length_setEndUnchecked]
            exact hn.1)
        rw [length_setValue, length_setEndUnchecked] at hlen
        obtain ⟨s', h, hw', hx⟩ := mergeRangeLoop_spec hk fuel
          ((setValue (setEndUnchecked s seg (segEnd s (seg + 1))) seg m).eraseIdx (seg + 1)) seg
          (hw.merged hn.1 he) (by omega)
        exact ⟨s', h, hw', fun x => (hx x).trans (readAt_merged hw hk hn.1 he hm)⟩
    · exact ⟨s, rfl, hw, fun _ => rfl⟩

/-- `MergeRange` returns, and keeps the set well formed and what it says. -/
theorem mergeRange_spec (hw : WellFormed F s) (hk : KeepsAt F α) :
    ∃ s', mergeRange F s r = some s' ∧ WellFormed F s' ∧ ∀ x, readAt α s' x = readAt α s x := by
  unfold mergeRange
  dsimp only
  split_ifs with h
  · exact mergeRangeLoop_spec hk _ s _ hw (by omega)
  · exact ⟨s, rfl, hw, fun _ => rfl⟩

end Merge

section RemoveRange

/-- The segments of `xs` that start before `e`: the turns a loop over a range that ends at `e`
has still to take. -/
def pendingBefore (e : ℕ) (xs : List (Range × V)) : ℕ := xs.countP fun p => p.1.Start < e

omit [Inhabited V] in
theorem pendingBefore_cons_of_lt (h : p.1.Start < r.End) {xs : List (Range × V)} :
    pendingBefore r.End (p :: xs) = pendingBefore r.End xs + 1 :=
  List.countP_cons_of_pos (by simpa using h)

omit [Inhabited V] in
theorem pendingBefore_cons_end {e : ℕ} {v : V} {xs : List (Range × V)} :
    pendingBefore r.End ((⟨r.End, e⟩, v) :: xs) = pendingBefore r.End xs :=
  List.countP_cons_of_neg (by simp)

omit [Inhabited V] in
theorem pendingBefore_le_length {e : ℕ} {xs : List (Range × V)} : pendingBefore e xs ≤ xs.length :=
  List.countP_le_length

omit [Inhabited V] in
theorem pendingBefore_drop_lt_succ {e : ℕ} : pendingBefore e (s.drop k) < s.length + 1 :=
  Nat.lt_succ_of_le (Nat.le_trans pendingBefore_le_length (List.drop_sublist _ _).length_le)

/-- After `Isolate` of a segment, the segments after the piece it returns are those after the
segment, behind a piece cut off at `r.End`: as many of them start before `r.End`, and they end
after `r.Start` where those did. -/
theorem pendingBefore_drop_isolate (hw : WellFormed F s) (hseg : seg < s.length)
    (hr : r.Start < r.End) (hlb : ∀ p ∈ s.drop (seg + 1), r.Start < p.1.End) :
    pendingBefore r.End ((isolate F s seg r).1.drop ((isolate F s seg r).2 + 1)) =
        pendingBefore r.End (s.drop (seg + 1)) ∧
      ∀ p ∈ (isolate F s seg r).1.drop ((isolate F s seg r).2 + 1), r.Start < p.1.End := by
  rcases drop_isolate (F := F) (r := r) hseg with hd | ⟨e, v, hd⟩
  · rw [hd]
    exact ⟨rfl, hlb⟩
  rw [hd, pendingBefore_cons_end]
  refine ⟨rfl, fun p hp => ?_⟩
  rcases List.mem_cons.1 hp with rfl | hp
  · -- the piece cut off at `r.End` ends after it
    have := hw.isolate.start_lt_end_of_mem (List.mem_of_mem_drop (hd ▸ List.mem_cons_self))
    dsimp only at this ⊢
    omega
  · exact hlb p hp

theorem segRange_splitUnchecked_of_lt (hseg : seg < s.length) (hi : i < seg) :
    segRange (splitUnchecked F s seg x).1 i = segRange s i := by
  have hl : seg + 1 ≤ (setValue (setEndUnchecked s seg x) seg
      (F.split (segRange s seg) (value s seg) x).1).length := by
    rw [length_setValue, length_setEndUnchecked]
    omega
  rw [splitUnchecked_eq, segRange_insertIdx hl, if_pos (by omega), segRange_setValue,
    segRange_setEndUnchecked, if_neg (by omega)]

/-- `Isolate` of a segment that starts in the range cuts it at the range's end only. -/
theorem isolate_of_le (h : r.Start ≤ segStart s seg) :
    isolate F s seg r = if (segRange s seg).canSplitAt r.End then
      ((splitUnchecked F s seg r.End).1, seg) else (s, seg) := by
  unfold isolate
  rw [if_neg (by rw [Range.canSplitAt_iff]; simp only [segStart] at h; omega)]
  dsimp only
  split_ifs <;> simp only [splitUnchecked_snd]

theorem isolate_snd_of_le (h : r.Start ≤ segStart s seg) : (isolate F s seg r).2 = seg := by
  rw [isolate_of_le h]
  split_ifs <;> rfl

theorem gapStart_isolate_of_le (hseg : seg < s.length) (h : r.Start ≤ segStart s seg) :
    gapStart (isolate F s seg r).1 F seg = gapStart s F seg := by
  rw [isolate_of_le h]
  split_ifs
  · rcases Nat.eq_zero_or_pos seg with rfl | hpos
    · rw [gapStart_zero, gapStart_zero]
    · rw [gapStart_of_pos hpos, gapStart_of_pos hpos, segEnd, segEnd,
        segRange_splitUnchecked_of_lt hseg (by omega)]
  · rfl

/-- `Isolate` of a segment that `r.Start` cuts is `Isolate` of the part after the cut. -/
theorem isolate_of_canSplitAt (hseg : seg < s.length) (h : (segRange s seg).canSplitAt r.Start) :
    isolate F s seg r = isolate F (splitUnchecked F s seg r.Start).1 (seg + 1) r := by
  have hst : segStart (splitUnchecked F s seg r.Start).1 (seg + 1) = r.Start := by
    rw [segStart, (segRange_of_drop (drop_succ_splitUnchecked hseg)).1]
  rw [isolate_of_le (Nat.le_of_eq hst.symm)]
  unfold isolate
  simp only [h, ↓reduceIte, splitUnchecked_snd]

theorem gapStart_eraseIdx_self : gapStart (s.eraseIdx k) F k = gapStart s F k := by
  rcases Nat.eq_zero_or_pos k with rfl | hpos
  · rw [gapStart_zero, gapStart_zero]
  · rw [gapStart_of_pos hpos, gapStart_of_pos hpos, segEnd_eraseIdx, if_pos (by omega)]

/-- Where `r.Start` lies in a segment, the segment `Isolate` returns comes after a gap that
starts by `r.Start`: the part of the segment before `r.Start`, if any, ends there. -/
theorem gapStart_isolate_le (hseg : seg < s.length) (hw : WellFormed F s)
    (h1 : segStart s seg ≤ r.Start) (h2 : r.Start < segEnd s seg) :
    gapStart (isolate F s seg r).1 F (isolate F s seg r).2 ≤ r.Start := by
  by_cases hs : (segRange s seg).canSplitAt r.Start
  · have hst : segStart (splitUnchecked F s seg r.Start).1 (seg + 1) = r.Start := by
      rw [segStart, (segRange_of_drop (drop_succ_splitUnchecked hseg)).1]
    have he : segEnd (splitUnchecked F s seg r.Start).1 seg = r.Start := by
      rw [segEnd, (segRange_of_drop (drop_splitUnchecked hseg)).1]
    have hl : seg + 1 < (splitUnchecked F s seg r.Start).1.length := by
      rw [length_splitUnchecked hseg]
      omega
    rw [isolate_of_canSplitAt hseg hs, isolate_snd_of_le (Nat.le_of_eq hst.symm),
      gapStart_isolate_of_le hl (Nat.le_of_eq hst.symm), gapStart_of_pos (by omega : 0 < seg + 1),
      Nat.add_sub_cancel, he]
  · -- no cut: the segment starts at `r.Start`
    have hst : segStart s seg = r.Start := by
      rw [Range.canSplitAt_iff] at hs
      simp only [segStart, segEnd] at h1 h2 hs ⊢
      omega
    rw [isolate_snd_of_le (Nat.le_of_eq hst.symm), gapStart_isolate_of_le hseg (Nat.le_of_eq hst.symm)]
    exact Nat.le_trans (hw.gapStart_le_segStart (Nat.le_refl seg) hseg) (Nat.le_of_eq hst)

section Loop

variable {α : Range → V → ℕ → A} {H : ℕ → Option A}

/-- The loop of `RemoveRange` is the sweep of `r` that leaves nothing: from a set in the middle
of it, at a gap that starts by `r.Start` and ends at or after it, the loop returns a set that
says nothing over `r` and what `H` says elsewhere, at a gap that holds `r`. -/
theorem removeRangeLoop_spec (hk : KeepsAt F α) (hr : r.Start < r.End) (hmax : r.End ≤ F.maxKey) :
    ∀ (fuel : ℕ) (s : List (Range × V)) (gap : ℕ), WellFormed F s → gap ≤ s.length →
      gapStart s F gap ≤ r.Start → r.Start ≤ gapEnd s F gap →
      pendingBefore r.End (s.drop gap) < fuel → Swept α (fun _ => none) r H s (gapEnd s F gap) →
      ∃ s' gap', removeRangeLoop F r fuel s gap = some (s', gap') ∧ WellFormed F s' ∧
        gap' ≤ s'.length ∧ gapStart s' F gap' ≤ r.Start ∧ r.End ≤ gapEnd s' F gap' ∧
        ∀ x, readAt α s' x = sweptAt (fun _ => none) r H x
  | 0, _, _, _, _, _, _, hp, _ => absurd hp (Nat.not_lt_zero _)
  | fuel + 1, s, gap, hw, hl, hgs, hge, hp, hsw => by
    rw [removeRangeLoop]
    by_cases hs : gap < s.length ∧ segStart s gap < r.End
    swap
    · -- no segment left that starts before `r.End`: the gap holds `r`
      rw [if_neg hs]
      refine ⟨s, gap, rfl, hw, hl, hgs, ?_, hsw.done rfl hw hs⟩
      by_cases hlt : gap < s.length
      · rw [gapEnd_of_lt hlt]
        exact Nat.le_of_not_lt fun h => hs ⟨hlt, h⟩
      · rw [gapEnd_of_le (Nat.le_of_not_lt hlt)]
        exact hmax
    rw [if_pos hs]
    have hst : r.Start ≤ segStart s gap := by rwa [gapEnd_of_lt hs.1] at hge
    have hend : r.Start < segEnd s gap := Nat.lt_of_le_of_lt hst (hw.range gap hs.1).2.1
    rw [drop_eq_cons hs.1,
      pendingBefore_cons_of_lt (show (segRange s gap, value s gap).1.Start < r.End from hs.2)] at hp
    obtain ⟨hR, hk1⟩ := segRange_isolate (F := F) hs.1 hr hend hs.2
    have hd := @drop_isolate _ _ F s gap r hs.1
    have hgs1 := gapStart_isolate_of_le (F := F) hs.1 hst
    have hw1 : WellFormed F (isolate F s gap r).1 := hw.isolate
    have hsw1 := hsw.congr fun x =>
      (readAt_isolate hw hk.split : readAt α (isolate F s gap r).1 x = readAt α s x)
    rw [isolate_snd_of_le hst] at hR hk1 hd
    rw [show isolate F s gap r = ((isolate F s gap r).1, gap) from Prod.ext rfl (isolate_snd_of_le hst)]
    generalize (isolate F s gap r).1 = l1 at hR hk1 hd hgs1 hw1 hsw1 ⊢
    dsimp only [remove]
    -- the frontier is the start of the segment, which `Isolate` did not move
    have hf : gapEnd l1 F gap = gapEnd s F gap := by
      rw [gapEnd_of_lt hk1, gapEnd_of_lt hs.1, segStart, hR]
      exact Nat.max_eq_left hst
    rw [← hf] at hsw1
    have hin : ∀ x, (segRange l1 gap).contains x → r.contains x := by
      intro x hx
      rw [hR, Range.contains_iff] at hx
      rw [Range.contains_iff]
      dsimp only at hx
      omega
    have hsw2 := hsw1.visit rfl hw1 hk1 (fun x hx => .inl (hin x hx)) fun x => readAt_eraseIdx hw1 hk1
    have hdrop : (l1.eraseIdx gap).drop gap = l1.drop (gap + 1) := List.drop_eraseIdx_self l1 gap
    have hseg1 := hw1.segEnd_le_gapEnd hk1
    rw [segEnd, hR] at hseg1
    dsimp only at hseg1
    refine removeRangeLoop_spec hk hr hmax fuel _ gap hw1.eraseIdx ?_ ?_ ?_ ?_ ?_
    · rw [List.length_eraseIdx_of_lt hk1]
      omega
    · rwa [gapStart_eraseIdx_self, hgs1]
    · rw [gapEnd_eq_of_drop hdrop]
      omega
    · rw [hdrop]
      rcases hd with hd | ⟨e, v, hd⟩
      · rw [hd]
        omega
      · rw [hd, pendingBefore_cons_end]
        omega
    · rwa [gapEnd_eq_of_drop hdrop]

end Loop

/-- `RemoveRange` of a non-empty range of keys returns a well-formed set that says nothing over
the range and what the set said at every other key, through `Split`, and a gap that holds the
range. -/
theorem removeRange_spec {α : Range → V → ℕ → A} (hw : WellFormed F s) (hk : KeepsAt F α)
    (hr : r.Start < r.End) (hmin : F.minKey ≤ r.Start) (hmax : r.End ≤ F.maxKey) :
    ∃ s' gap, removeRange F s r = some (s', gap) ∧ WellFormed F s' ∧ gap ≤ s'.length ∧
      gapStart s' F gap ≤ r.Start ∧ r.End ≤ gapEnd s' F gap ∧
      ∀ x, readAt α s' x = if r.contains x then none else readAt α s x := by
  unfold removeRange
  rcases find_cases (s := s) hmin (Nat.lt_of_lt_of_le hr hmax) with
    ⟨seg, hf, hseg, h1, h2⟩ | ⟨g, hf, hg, h1, h2⟩
  · -- `r.Start` lies in a segment: it goes first, cut to `r`
    rw [hf]
    dsimp only
    rw [if_pos hseg]
    obtain ⟨hR, hk1⟩ := segRange_isolate (F := F) hseg hr h2 (by omega)
    have hgs := gapStart_isolate_le hseg hw h1 h2
    have hw1 : WellFormed F (isolate F s seg r).1 := hw.isolate
    have hsw0 : Swept α (fun _ => none) r (readAt α s) (isolate F s seg r).1 0 := fun x => by
      rw [if_neg (Nat.not_lt_zero x)]
      exact readAt_isolate hw hk.split
    generalize isolate F s seg r = res at hR hk1 hgs hw1 hsw0 ⊢
    obtain ⟨l1, k⟩ := res
    dsimp only [remove] at hR hk1 hgs hw1 hsw0 ⊢
    -- below the segment, only keys before `r.Start`
    have hsw1 : Swept α (fun _ => none) r (readAt α s) l1 (gapEnd l1 F k) := by
      refine hsw0.advance (Nat.zero_le _) fun x _ hx => sweptAt_of_not_contains ?_
      rw [gapEnd_of_lt hk1, segStart, hR] at hx
      dsimp only at hx
      omega
    have hin : ∀ x, (segRange l1 k).contains x → r.contains x := by
      intro x hx
      rw [hR, Range.contains_iff] at hx
      rw [Range.contains_iff]
      dsimp only at hx
      omega
    have hsw2 := hsw1.visit rfl hw1 hk1 (fun x hx => .inl (hin x hx)) fun x => readAt_eraseIdx hw1 hk1
    have hdrop : (l1.eraseIdx k).drop k = l1.drop (k + 1) := List.drop_eraseIdx_self l1 k
    have hseg1 := hw1.segEnd_le_gapEnd hk1
    rw [segEnd, hR] at hseg1
    dsimp only at hseg1
    obtain ⟨s', gap', h, hw', hl', hgs', hge', hx⟩ := removeRangeLoop_spec hk hr hmax
      ((l1.eraseIdx k).length + 1) (l1.eraseIdx k) k hw1.eraseIdx
      (by rw [List.length_eraseIdx_of_lt hk1]; omega) (by rwa [gapStart_eraseIdx_self])
      (by rw [gapEnd_eq_of_drop hdrop]; omega) pendingBefore_drop_lt_succ
      (by rwa [gapEnd_eq_of_drop hdrop])
    exact ⟨s', gap', h, hw', hl', hgs', hge', hx⟩
  · -- `r.Start` lies in a gap: the loop starts from it
    rw [hf]
    dsimp only
    rw [if_neg (Nat.lt_irrefl _)]
    dsimp only
    have hsw : Swept α (fun _ => none) r (readAt α s) s (gapEnd s F g) := by
      intro x
      split_ifs with hx
      · by_cases hxs : r.Start ≤ x
        · exact (sweptAt_of_none rfl (readAt_of_gap hw hg ⟨by omega, hx⟩)).symm
        · exact (sweptAt_of_not_contains (by omega)).symm
      · rfl
    obtain ⟨s', gap', h, hw', hl', hgs', hge', hx⟩ := removeRangeLoop_spec hk hr hmax
      (s.length + 1) s g hw hg h1 (Nat.le_of_lt h2) pendingBefore_drop_lt_succ hsw
    exact ⟨s', gap', h, hw', hl', hgs', hge', hx⟩

/-- `RemoveRange` of the empty range `[5, 5)`, strictly inside the one segment `[0, 10)` of a
well-formed set, removes `[5, 10)`: `Isolate` cuts the segment at `5` and not again, since `5`
does not lie strictly inside `[5, 10)`, and the part it returns is removed. Key `7`, outside the
range, was covered and is not. -/
theorem removeRange_empty_range_removes_tail :
    WellFormed (⟨0, 100, fun _ _ _ _ => some (), fun _ v _ => (v, v)⟩ : Functions Unit)
        [(⟨0, 10⟩, ())] ∧
      removeRange (⟨0, 100, fun _ _ _ _ => some (), fun _ v _ => (v, v)⟩ : Functions Unit)
        [(⟨0, 10⟩, ())] ⟨5, 5⟩ = some ([(⟨0, 5⟩, ())], 1) ∧
      (lookup [(⟨0, 10⟩, ())] 7).isSome = true ∧ (lookup [(⟨0, 5⟩, ())] 7).isSome = false :=
  ⟨⟨by decide, fun _ hi => absurd hi (by simp)⟩, by decide, by decide, by decide⟩

end RemoveRange

section Positions

variable (F) (s) in
/-- The end of the segment or the gap that a pair of iterators from `Find` or `NextNonEmpty`
is at. -/
def posEnd (pos : ℕ × ℕ) : ℕ := if pos.1 < s.length then segEnd s pos.1 else gapEnd s F pos.2

variable (F) (s) in
/-- A segment and a gap of which one is terminal, as `Find` and `NextNonEmpty` return them, at
the key `f`: the segment `seg` (or past the last one) with the gap terminal, or a non-empty gap
with the segment terminal. -/
inductive Pos : ℕ × ℕ → ℕ → Prop
  | seg {seg : ℕ} : seg ≤ s.length → Pos (seg, s.length + 1) (gapEnd s F seg)
  | gap {gap : ℕ} : gap ≤ s.length → gapStart s F gap < gapEnd s F gap →
      Pos (s.length, gap) (gapStart s F gap)

namespace Pos

variable {pos : ℕ × ℕ} {f e : ℕ}

/-- `Find` is at a key by the one it looks for, at a segment or a gap that ends after it. -/
theorem find (hk : F.minKey ≤ x) (hk' : x < F.maxKey) :
    ∃ f, Pos F s (find s x) f ∧ f ≤ x ∧ x < posEnd F s (find s x) := by
  rcases find_cases (F := F) (s := s) hk hk' with ⟨seg, hf, hseg, h1, h2⟩ | ⟨gap, hf, hg, h1, h2⟩
  · rw [hf]
    refine ⟨_, .seg (Nat.le_of_lt hseg), ?_, ?_⟩
    · rwa [gapEnd_of_lt hseg]
    · rwa [posEnd, if_pos hseg]
  · rw [hf]
    refine ⟨_, .gap hg (Nat.lt_of_le_of_lt h1 h2), h1, ?_⟩
    rwa [posEnd, if_neg (Nat.lt_irrefl _)]

/-- `NextNonEmpty` is at the end of the segment it was given. -/
theorem nextNonEmpty (hw : WellFormed F s) (hk : k < s.length) :
    Pos F s (Segment.nextNonEmpty F s k) (segEnd s k) := by
  have hgs : gapStart s F (k + 1) = segEnd s k := by
    rw [gapStart_of_pos (by omega : 0 < k + 1), Nat.add_sub_cancel]
  have hle := hw.segEnd_le_gapEnd hk
  unfold Segment.nextNonEmpty
  split_ifs with hne
  · -- the gap after the segment is not empty
    simp only [gapRange, Range.length] at hne
    rw [← hgs]
    exact .gap (by omega) (by omega)
  · -- the segment after it is adjacent
    simp only [gapRange, Range.length, ne_eq, not_not] at hne
    rw [show segEnd s k = gapEnd s F (k + 1) by omega]
    exact .seg (by omega)

/-- A pair is at a key by the end of what it is at. -/
theorem le_posEnd (hw : WellFormed F s) (h : Pos F s pos f) : f ≤ posEnd F s pos := by
  cases h with
  | @seg seg hseg =>
    unfold posEnd
    split_ifs with hlt
    · rw [gapEnd_of_lt hlt]
      exact Nat.le_of_lt (hw.range seg hlt).2.1
    · rw [gapEnd_of_le (Nat.le_of_not_lt hlt), gapEnd_of_le (by omega)]
  | gap _ hne =>
    rw [posEnd, if_neg (Nat.lt_irrefl _)]
    exact Nat.le_of_lt hne

/-- Where neither the segment nor the gap of a pair starts before `e`, the pair is at a key from
`e` on. -/
theorem le_of_not (h : Pos F s pos f) (he : e ≤ F.maxKey)
    (hseg : ¬(pos.1 < s.length ∧ segStart s pos.1 < e)) (hgap : ¬(pos.2 ≤ s.length ∧ gapStart s F pos.2 < e)) :
    e ≤ f := by
  cases h with
  | @seg seg hseg' =>
    by_cases hlt : seg < s.length
    · rw [gapEnd_of_lt hlt]
      exact Nat.le_of_not_lt fun h => hseg ⟨hlt, h⟩
    · rwa [gapEnd_of_le (Nat.le_of_not_lt hlt)]
  | gap hg _ => exact Nat.le_of_not_lt fun h => hgap ⟨hg, h⟩

end Pos

end Positions

end Segment
