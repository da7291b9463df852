import Gvisor.Segment.Set

/-! The invariant of a segment set's in-order sequence: every segment is a
non-empty range between `MinKey` and `MaxKey`, and the segments are in order
without overlap. Each mutator keeps it under the precondition its doc comment
states (`Insert` into a gap that holds the range, a split strictly inside a
segment), and keeps every property of the values that `Merge` and `Split`
keep. `Find` is characterised on every list, and the suffixes of the list
after each mutator are described for the loops that walk it. -/

namespace Segment

variable {V : Type*} [Inhabited V] (F : Functions V)

structure WellFormed (s : List (Range × V)) : Prop where
  range : ∀ i < s.length,
    F.minKey ≤ segStart s i ∧ segStart s i < segEnd s i ∧ segEnd s i ≤ F.maxKey
  sorted : ∀ i, i + 1 < s.length → segEnd s i ≤ segStart s (i + 1)

/-- The precondition of `Insert`: `r` is non-empty and lies in the gap. -/
structure InGap (s : List (Range × V)) (gap : ℕ) (r : Range) : Prop where
  le_length : gap ≤ s.length
  start_le : gapStart s F gap ≤ r.Start
  start_lt : r.Start < r.End
  end_le : r.End ≤ gapEnd s F gap

variable {F} {s : List (Range × V)} {seg gap i j e x : ℕ} {r : Range} {v val : V}

namespace WellFormed

theorem nil : WellFormed F ([] : List (Range × V)) where
  range _ h := absurd h (Nat.not_lt_zero _)
  sorted _ h := absurd h (Nat.not_lt_zero _)

theorem end_le_start (hw : WellFormed F s) (hij : i < j) (hj : j < s.length) :
    segEnd s i ≤ segStart s j := by
  induction j with
  | zero => omega
  | succ j ih =>
    rcases Nat.lt_succ_iff_lt_or_eq.1 hij with hlt | rfl
    · have h1 := ih hlt (by omega)
      have h2 := (hw.range j (by omega)).2.1
      have h3 := hw.sorted j hj
      omega
    · exact hw.sorted i hj

theorem minKey_le_gapStart (hw : WellFormed F s) (hg : gap ≤ s.length) : F.minKey ≤ gapStart s F gap := by
  rcases Nat.eq_zero_or_pos gap with rfl | hpos
  · simp
  · rw [gapStart_of_pos hpos]
    have := hw.range (gap - 1) (by omega)
    omega

theorem gapEnd_le_maxKey (hw : WellFormed F s) : gapEnd s F gap ≤ F.maxKey := by
  by_cases hg : gap < s.length
  · rw [gapEnd_of_lt hg]
    have := hw.range gap hg
    omega
  · exact Nat.le_of_eq (gapEnd_of_le (Nat.le_of_not_lt hg))

theorem setValue (hw : WellFormed F s) : WellFormed F (setValue s seg v) where
  range i hi := by simpa using hw.range i (by simpa using hi)
  sorted i hi := by simpa using hw.sorted i (by simpa using hi)

theorem setEndUnchecked (hw : WellFormed F s) (hs : segStart s seg < e)
    (he : e ≤ gapEnd s F (seg + 1)) : WellFormed F (setEndUnchecked s seg e) where
  range i hi := by
    rw [length_setEndUnchecked] at hi
    rw [segStart_setEndUnchecked, segEnd_setEndUnchecked]
    split_ifs with h
    · obtain ⟨rfl, -⟩ := h
      exact ⟨(hw.range i hi).1, hs, Nat.le_trans he hw.gapEnd_le_maxKey⟩
    · exact hw.range i hi
  sorted i hi := by
    rw [length_setEndUnchecked] at hi
    rw [segStart_setEndUnchecked, segEnd_setEndUnchecked]
    split_ifs with h
    · obtain ⟨rfl, -⟩ := h
      rwa [gapEnd_of_lt hi] at he
    · exact hw.sorted i hi

theorem setStartUnchecked (hw : WellFormed F s) (hs : gapStart s F seg ≤ e)
    (he : e < segEnd s seg) : WellFormed F (setStartUnchecked s seg e) where
  range i hi := by
    rw [length_setStartUnchecked] at hi
    rw [segStart_setStartUnchecked, segEnd_setStartUnchecked]
    split_ifs with h
    · obtain ⟨rfl, -⟩ := h
      exact ⟨Nat.le_trans (hw.minKey_le_gapStart (Nat.le_of_lt hi)) hs, he, (hw.range i hi).2.2⟩
    · exact hw.range i hi
  sorted i hi := by
    rw [length_setStartUnchecked] at hi
    rw [segStart_setStartUnchecked, segEnd_setStartUnchecked]
    split_ifs with h
    · obtain ⟨rfl, -⟩ := h
      rwa [gapStart_of_pos (by omega), Nat.add_sub_cancel] at hs
    · exact hw.sorted i hi

theorem insertIdx (hw : WellFormed F s) (hg : InGap F s gap r) :
    WellFormed F (s.insertIdx gap (r, v)) where
  range i hi := by
    rw [List.length_insertIdx_of_le_length hg.le_length] at hi
    have hg' := hg.le_length
    rw [segStart_insertIdx hg', segEnd_insertIdx hg']
    split_ifs with h1 h2
    · exact hw.range i (by omega)
    · exact ⟨Nat.le_trans (hw.minKey_le_gapStart hg') hg.start_le, hg.start_lt,
        Nat.le_trans hg.end_le hw.gapEnd_le_maxKey⟩
    · exact hw.range (i - 1) (by omega)
  sorted i hi := by
    have hg' := hg.le_length
    have hs := hg.start_le
    have he := hg.end_le
    rw [List.length_insertIdx_of_le_length hg'] at hi
    rw [segStart_insertIdx hg', segEnd_insertIdx hg']
    rcases Nat.lt_trichotomy (i + 1) gap with hlt | heq | hgt
    · rw [if_pos (show i < gap by omega), if_pos hlt]
      exact hw.sorted i (by omega)
    · rw [if_pos (show i < gap by omega), if_neg (show ¬i + 1 < gap by omega), if_pos heq]
      rwa [gapStart_of_pos (show 0 < gap by omega), ← heq, Nat.add_sub_cancel] at hs
    · rw [if_neg (show ¬i < gap by omega), if_neg (show ¬i + 1 < gap by omega),
        if_neg (show ¬i + 1 = gap by omega), Nat.add_sub_cancel]
      by_cases hi' : i = gap
      · subst hi'
        rw [if_pos rfl]
        rwa [gapEnd_of_lt (show i < s.length by omega)] at he
      · rw [if_neg hi']
        have := hw.sorted (i - 1) (by omega)
        rwa [Nat.sub_add_cancel (by omega)] at this

theorem eraseIdx (hw : WellFormed F s) : WellFormed F (s.eraseIdx seg) where
  range i hi := by
    have hlen := List.length_eraseIdx_le s seg
    rw [segStart_eraseIdx, segEnd_eraseIdx]
    split_ifs with h
    · exact hw.range i (by omega)
    · by_cases hseg : seg < s.length
      · exact hw.range (i + 1) (by rw [List.length_eraseIdx_of_lt hseg] at hi; omega)
      · rw [List.eraseIdx_of_length_le (by omega)] at hi
        omega
  sorted i hi := by
    by_cases hseg : seg < s.length
    · rw [List.length_eraseIdx_of_lt hseg] at hi
      rw [segStart_eraseIdx, segEnd_eraseIdx]
      split_ifs with h1 h2 h2
      · exact hw.sorted i (by omega)
      · obtain rfl : seg = i + 1 := by omega
        have h3 := hw.sorted i (by omega)
        have h4 := (hw.range (i + 1) (by omega)).2.1
        have h5 := hw.sorted (i + 1) (by omega)
        omega
      · omega
      · exact hw.sorted (i + 1) (by omega)
    · rw [List.eraseIdx_of_length_le (by omega)]
      rw [List.eraseIdx_of_length_le (by omega)] at hi
      exact hw.sorted i hi

theorem segEnd_le_gapEnd (hw : WellFormed F s) (h : seg < s.length) :
    segEnd s seg ≤ gapEnd s F (seg + 1) := by
  by_cases h' : seg + 1 < s.length
  · rw [gapEnd_of_lt h']
    exact hw.sorted seg h'
  · rw [gapEnd_of_le (by omega)]
    exact (hw.range seg h).2.2

theorem segEnd_le_gapEnd_eraseIdx (hw : WellFormed F s) (h : seg < s.length) :
    segEnd s seg ≤ gapEnd (s.eraseIdx seg) F seg := by
  have hlen := List.length_eraseIdx_of_lt h
  by_cases h' : seg < (s.eraseIdx seg).length
  · rw [gapEnd_of_lt h', segStart_eraseIdx, if_neg (Nat.lt_irrefl _)]
    exact hw.sorted seg (by omega)
  · rw [gapEnd_of_le (by omega)]
    exact (hw.range seg h).2.2

theorem segStart_le_segStart (hw : WellFormed F s) (hij : i ≤ j) (hj : j < s.length) :
    segStart s i ≤ segStart s j := by
  rcases Nat.lt_or_ge i j with h | h
  · have := hw.end_le_start h hj
    have := (hw.range i (by omega)).2.1
    omega
  · rw [Nat.le_antisymm hij h]

theorem segEnd_le_segEnd (hw : WellFormed F s) (hij : i ≤ j) (hj : j < s.length) :
    segEnd s i ≤ segEnd s j := by
  rcases Nat.lt_or_ge i j with h | h
  · have := hw.end_le_start h hj
    have := (hw.range j hj).2.1
    omega
  · rw [Nat.le_antisymm hij h]

/-- Each gap of a well-formed set starts by its end. -/
theorem gapStart_le_gapEnd (hw : WellFormed F s) (hF : F.minKey ≤ F.maxKey) (hg : gap ≤ s.length) :
    gapStart s F gap ≤ gapEnd s F gap := by
  rcases Nat.eq_zero_or_pos gap with rfl | hpos
  · rw [gapStart_zero]
    by_cases h0 : 0 < s.length
    · rw [gapEnd_of_lt h0]
      exact (hw.range 0 h0).1
    · rw [gapEnd_of_le (by omega)]
      exact hF
  · rw [gapStart_of_pos hpos]
    have := hw.segEnd_le_gapEnd (show gap - 1 < s.length by omega)
    rwa [Nat.sub_add_cancel hpos] at this

/-- A gap ends by the start of every later gap. -/
theorem gapEnd_le_gapStart (hw : WellFormed F s) (hij : i < j) (hj : j ≤ s.length) :
    gapEnd s F i ≤ gapStart s F j := by
  rw [gapStart_of_pos (by omega), gapEnd_of_lt (by omega)]
  have := hw.segStart_le_segStart (i := i) (j := j - 1) (by omega) (by omega)
  have := (hw.range (j - 1) (by omega)).2.1
  omega

theorem gapStart_le_gapStart (hw : WellFormed F s) (hF : F.minKey ≤ F.maxKey) (hij : i ≤ j)
    (hj : j ≤ s.length) : gapStart s F i ≤ gapStart s F j := by
  rcases Nat.lt_or_ge i j with h | h
  · exact Nat.le_trans (hw.gapStart_le_gapEnd hF (by omega)) (hw.gapEnd_le_gapStart h hj)
  · rw [Nat.le_antisymm hij h]

theorem gapEnd_le_gapEnd (hw : WellFormed F s) (hF : F.minKey ≤ F.maxKey) (hij : i ≤ j)
    (hj : j ≤ s.length) : gapEnd s F i ≤ gapEnd s F j := by
  rcases Nat.lt_or_ge i j with h | h
  · exact Nat.le_trans (hw.gapEnd_le_gapStart h hj) (hw.gapStart_le_gapEnd hF hj)
  · rw [Nat.le_antisymm hij h]

/-- A gap lies apart from every segment. -/
theorem apart_gap (hw : WellFormed F s) (hg : gap ≤ s.length) (hi : i < s.length) :
    segEnd s i ≤ gapStart s F gap ∨ gapEnd s F gap ≤ segStart s i := by
  rcases Nat.lt_or_ge i gap with h | h
  · left
    rw [gapStart_of_pos (by omega)]
    rcases Nat.lt_or_ge i (gap - 1) with h' | h'
    · have := hw.end_le_start h' (by omega)
      have := (hw.range (gap - 1) (by omega)).2.1
      omega
    · rw [show i = gap - 1 by omega]
  · right
    rw [gapEnd_of_lt (by omega)]
    exact hw.segStart_le_segStart h hi

end WellFormed

/-- The part of a gap that a range covers, where it is not empty, can be inserted. -/
theorem inGap_intersect (hg : gap ≤ s.length) (h : 0 < ((gapRange s F gap).intersect r).length) :
    InGap F s gap ((gapRange s F gap).intersect r) := by
  obtain ⟨h1, h2, h3, -, -⟩ := Range.length_intersect_pos h
  exact ⟨hg, h1, h2, h3⟩

theorem lt_length_of_canSplitAt (h : (segRange s seg).canSplitAt x) : seg < s.length := by
  by_contra hs
  rw [segRange, List.getD_eq_getElem?_getD, List.getElem?_eq_none (by omega), Option.getD_none,
    Range.canSplitAt_iff] at h
  exact absurd h.2 (Nat.not_lt_zero _)

section Insert

variable (F) (s) (gap) (r) (val)

/-- What `Insert` can do: insert the segment, or merge it into the previous
segment, into both neighbours, or into the next one. -/
inductive InsertResult : List (Range × V) × ℕ → Prop
  | insertIdx : InsertResult (s.insertIdx gap (r, val), gap)
  | mergePrev (m : V) : 0 < gap → segEnd s (gap - 1) = r.Start →
      F.merge (segRange s (gap - 1)) (value s (gap - 1)) r val = some m →
      InsertResult (setValue (setEndUnchecked s (gap - 1) r.End) (gap - 1) m, gap - 1)
  | mergeBoth (m m2 : V) : 0 < gap → segEnd s (gap - 1) = r.Start → gap < s.length →
      segStart s gap = r.End →
      F.merge (segRange s (gap - 1)) (value s (gap - 1)) r val = some m →
      F.merge ⟨segStart s (gap - 1), r.End⟩ m (segRange s gap) (value s gap) = some m2 →
      InsertResult ((setValue (setEndUnchecked (setValue (setEndUnchecked s (gap - 1) r.End)
        (gap - 1) m) (gap - 1) (segEnd s gap)) (gap - 1) m2).eraseIdx gap, gap - 1)
  | mergeNext (m : V) : gap < s.length → segStart s gap = r.End →
      F.merge r val (segRange s gap) (value s gap) = some m →
      InsertResult (setValue (setStartUnchecked s gap r.Start) gap m, gap)

theorem insertMergeNext_spec : InsertResult F s gap r val (insertMergeNext F s gap r val) := by
  unfold insertMergeNext
  split_ifs with h
  · cases hm : F.merge r val (segRange s gap) (value s gap) with
    | none => exact .insertIdx
    | some m => exact .mergeNext m h.1 h.2 hm
  · exact .insertIdx

theorem insert_spec : InsertResult F s gap r val (insert F s gap r val) := by
  unfold insert
  split_ifs with hp
  · cases hm : F.merge (segRange s (gap - 1)) (value s (gap - 1)) r val with
    | none => exact insertMergeNext_spec F s gap r val
    | some m =>
      have hne : gap ≠ gap - 1 := by omega
      simp only [length_setValue, length_setEndUnchecked, segStart_setValue, segStart_setEndUnchecked]
      split_ifs with hn
      · have hlt : gap - 1 < s.length := by omega
        simp only [segRange_setValue, segRange_setEndUnchecked, value_setValue, value_setEndUnchecked,
          segEnd_setValue, segEnd_setEndUnchecked, hne, hlt, false_and, and_self, if_true, if_false]
        cases hm2 : F.merge ⟨segStart s (gap - 1), r.End⟩ m (segRange s gap) (value s gap) with
        | none => exact .mergePrev m hp.1 hp.2 hm
        | some m2 => exact .mergeBoth m m2 hp.1 hp.2 hn.1 hn.2 hm hm2
      · exact .mergePrev m hp.1 hp.2 hm
  · exact insertMergeNext_spec F s gap r val

end Insert

variable {res : List (Range × V) × ℕ}

theorem InsertResult.wellFormed (h : InsertResult F s gap r val res) (hw : WellFormed F s)
    (hg : InGap F s gap r) : WellFormed F res.1 := by
  have hl := hg.le_length
  have hr := hg.start_lt
  cases h with
  | insertIdx => exact hw.insertIdx hg
  | mergePrev m hpos hend hm =>
    have hs := (hw.range (gap - 1) (by omega)).2.1
    refine (hw.setEndUnchecked (by omega) ?_).setValue
    rw [Nat.sub_add_cancel hpos]
    exact hg.end_le
  | mergeBoth m m2 hpos hend hlt hstart hm hm2 =>
    have hs := (hw.range (gap - 1) (by omega)).2.1
    have hg1 := (hw.range gap hlt).2.1
    have hge := hw.segEnd_le_gapEnd_eraseIdx hlt
    have hne : gap - 1 < gap := by omega
    rw [eraseIdx_setValue hne, eraseIdx_setEndUnchecked hne, eraseIdx_setValue hne,
      eraseIdx_setEndUnchecked hne]
    refine ((hw.eraseIdx.setEndUnchecked ?_ ?_).setValue.setEndUnchecked ?_ ?_).setValue
    · rw [segStart_eraseIdx, if_pos hne]
      omega
    · rw [Nat.sub_add_cancel hpos]
      omega
    · rw [segStart_setValue, segStart_setEndUnchecked, segStart_eraseIdx, if_pos hne]
      omega
    · rw [gapEnd_setValue, gapEnd_setEndUnchecked, Nat.sub_add_cancel hpos]
      exact hge
  | mergeNext m hlt hstart hm =>
    have hg1 := (hw.range gap hlt).2.1
    exact (hw.setStartUnchecked hg.start_le (by omega)).setValue

theorem WellFormed.insert (hw : WellFormed F s) (hg : InGap F s gap r) :
    WellFormed F (insert F s gap r val).1 :=
  (insert_spec F s gap r val).wellFormed hw hg

/-- `Insert`'s assertions hold of a range inside a gap. -/
theorem insertChecked_of_inGap (hg : InGap F s gap r) :
    insertChecked F s gap r val = some (insert F s gap r val) := by
  have hs := hg.start_le
  have he := hg.end_le
  unfold insertChecked
  rw [if_neg (Nat.ne_of_lt hg.start_lt), if_neg, if_neg]
  · rintro ⟨hlt, hlt'⟩
    rw [gapEnd_of_lt hlt] at he
    omega
  · rintro ⟨hpos, hgt⟩
    rw [gapStart_of_pos hpos] at hs
    omega

theorem split_of_canSplitAt (h : (segRange s seg).canSplitAt x) :
    split F s seg x = some (splitUnchecked F s seg x) :=
  if_pos h

theorem WellFormed.splitUnchecked (hw : WellFormed F s) (h : (segRange s seg).canSplitAt x) :
    WellFormed F (splitUnchecked F s seg x).1 := by
  have hseg := lt_length_of_canSplitAt h
  rw [Range.canSplitAt_iff] at h
  have hge := hw.segEnd_le_gapEnd hseg
  have hend : segEnd (Segment.setValue (Segment.setEndUnchecked s seg x) seg
      (F.split (segRange s seg) (value s seg) x).1) seg = x := by
    rw [segEnd_setValue, segEnd_setEndUnchecked, if_pos ⟨rfl, hseg⟩]
  rw [splitUnchecked_eq]
  refine (hw.setEndUnchecked h.1 (by exact Nat.le_trans (Nat.le_of_lt h.2) hge)).setValue.insertIdx
    ⟨by simp only [length_setValue, length_setEndUnchecked]; omega, ?_, h.2, ?_⟩
  · exact Nat.le_of_eq (by rw [gapStart_of_pos (show 0 < seg + 1 by omega), Nat.add_sub_cancel, hend])
  · rw [gapEnd_setValue, gapEnd_setEndUnchecked]
    exact hge

/-- A property of sets that every split strictly inside a segment keeps holds
after `Isolate`. -/
theorem isolate_induction (Q : List (Range × V) → Prop)
    (hq : ∀ s seg x, (segRange s seg).canSplitAt x → Q s → Q (splitUnchecked F s seg x).1)
    (h : Q s) : Q (isolate F s seg r).1 := by
  unfold isolate
  split_ifs with h1
  · dsimp only
    split_ifs with h2
    · exact hq (splitUnchecked F s seg r.Start).1 (seg + 1) r.End h2 (hq s seg r.Start h1 h)
    · exact hq s seg r.Start h1 h
  · dsimp only
    split_ifs with h2
    · exact hq s seg r.End h2 h
    · exact h

theorem WellFormed.isolate (hw : WellFormed F s) : WellFormed F (isolate F s seg r).1 :=
  isolate_induction (WellFormed F) (fun _ _ _ h hw => hw.splitUnchecked h) hw

section Values

/-- Every value of the set has property `P`. -/
def Vals (P : V → Prop) (s : List (Range × V)) : Prop := ∀ p ∈ s, P p.2

variable (F) in
/-- `Merge` and `Split` keep property `P` of values. -/
structure Preserves (P : V → Prop) : Prop where
  merge : ∀ r1 v1 r2 v2 m, F.merge r1 v1 r2 v2 = some m → P v1 → P v2 → P m
  split_fst : ∀ r v x, P v → P (F.split r v x).1
  split_snd : ∀ r v x, P v → P (F.split r v x).2

variable {P : V → Prop}

namespace Vals

omit [Inhabited V] in
theorem nil : Vals P ([] : List (Range × V)) := fun _ h => absurd h List.not_mem_nil

theorem value (hv : Vals P s) (h : i < s.length) : P (value s i) := hv _ (mem_of_lt_length h)

omit [Inhabited V] in
theorem setValue (hv : Vals P s) (h : P v) : Vals P (setValue s seg v) :=
  List.forall_mem_modify hv fun _ _ => h

omit [Inhabited V] in
theorem setEndUnchecked (hv : Vals P s) : Vals P (setEndUnchecked s seg e) :=
  List.forall_mem_modify hv hv

omit [Inhabited V] in
theorem setStartUnchecked (hv : Vals P s) : Vals P (setStartUnchecked s seg e) :=
  List.forall_mem_modify hv hv

omit [Inhabited V] in
theorem insertIdx (hv : Vals P s) (h : P v) : Vals P (s.insertIdx gap (r, v)) :=
  List.forall_mem_insertIdx hv h

omit [Inhabited V] in
theorem eraseIdx (hv : Vals P s) : Vals P (s.eraseIdx seg) := List.forall_mem_eraseIdx hv

end Vals

theorem InsertResult.vals (h : InsertResult F s gap r val res) (hv : Vals P s) (hp : Preserves F P)
    (hval : P val) (hl : gap ≤ s.length) : Vals P res.1 := by
  cases h with
  | insertIdx => exact hv.insertIdx hval
  | mergePrev m hpos _ hm =>
    exact hv.setEndUnchecked.setValue (hp.merge _ _ _ _ _ hm (hv.value (by omega)) hval)
  | mergeBoth m m2 hpos _ hlt _ hm hm2 =>
    have hm' := hp.merge _ _ _ _ _ hm (hv.value (by omega)) hval
    exact ((hv.setEndUnchecked.setValue hm').setEndUnchecked.setValue
      (hp.merge _ _ _ _ _ hm2 hm' (hv.value hlt))).eraseIdx
  | mergeNext m hlt _ hm =>
    exact hv.setStartUnchecked.setValue (hp.merge _ _ _ _ _ hm hval (hv.value hlt))

theorem Vals.insert (hv : Vals P s) (hp : Preserves F P) (hval : P val) (hl : gap ≤ s.length) :
    Vals P (insert F s gap r val).1 :=
  (insert_spec F s gap r val).vals hv hp hval hl

theorem Vals.splitUnchecked (hv : Vals P s) (hp : Preserves F P) (h : seg < s.length) :
    Vals P (splitUnchecked F s seg x).1 := by
  rw [splitUnchecked_eq]
  exact (hv.setEndUnchecked.setValue (hp.split_fst _ _ _ (hv.value h))).insertIdx
    (hp.split_snd _ _ _ (hv.value h))

theorem Vals.isolate (hv : Vals P s) (hp : Preserves F P) : Vals P (isolate F s seg r).1 :=
  isolate_induction (Vals P) (fun _ _ _ h hv => hv.splitUnchecked hp (lt_length_of_canSplitAt h)) hv

end Values

section Suffixes

@[simp] theorem splitUnchecked_snd : (splitUnchecked F s seg x).2 = (seg, seg + 1) := rfl

theorem length_splitUnchecked (h : seg < s.length) :
    (splitUnchecked F s seg x).1.length = s.length + 1 := by
  have hl : seg + 1 ≤ (Segment.setValue (Segment.setEndUnchecked s seg x) seg
      (F.split (segRange s seg) (value s seg) x).1).length := by
    simp only [length_setValue, length_setEndUnchecked]
    omega
  rw [splitUnchecked_eq, List.length_insertIdx_of_le_length hl, length_setValue,
    length_setEndUnchecked]

theorem drop_splitUnchecked (h : seg < s.length) :
    (splitUnchecked F s seg x).1.drop seg =
      (⟨segStart s seg, x⟩, (F.split (segRange s seg) (value s seg) x).1) ::
        (⟨x, segEnd s seg⟩, (F.split (segRange s seg) (value s seg) x).2) :: s.drop (seg + 1) := by
  have hl : seg + 1 ≤ (Segment.setValue (Segment.setEndUnchecked s seg x) seg
      (F.split (segRange s seg) (value s seg) x).1).length := by
    simp only [length_setValue, length_setEndUnchecked]
    omega
  rw [splitUnchecked_eq, drop_eq_cons (by rw [List.length_insertIdx_of_le_length hl]; omega),
    segRange_insertIdx hl, value_insertIdx hl, if_pos (Nat.lt_succ_self seg),
    if_pos (Nat.lt_succ_self seg), List.drop_insertIdx_self hl,
    drop_setValue_of_lt (Nat.lt_succ_self seg), drop_setEndUnchecked_of_lt (Nat.lt_succ_self seg),
    segRange_setValue, segRange_setEndUnchecked, if_pos ⟨rfl, h⟩, value_setValue,
    if_pos ⟨rfl, by rw [length_setEndUnchecked]; exact h⟩]

theorem value_splitUnchecked_self (h : seg < s.length) :
    value (splitUnchecked F s seg x).1 seg = (F.split (segRange s seg) (value s seg) x).1 := by
  have hl : seg + 1 ≤ (Segment.setValue (Segment.setEndUnchecked s seg x) seg
      (F.split (segRange s seg) (value s seg) x).1).length := by
    simp only [length_setValue, length_setEndUnchecked]
    omega
  rw [splitUnchecked_eq, value_insertIdx hl, if_pos (Nat.lt_succ_self seg), value_setValue,
    if_pos ⟨rfl, by rw [length_setEndUnchecked]; exact h⟩]

theorem drop_succ_splitUnchecked (h : seg < s.length) :
    (splitUnchecked F s seg x).1.drop (seg + 1) =
      (⟨x, segEnd s seg⟩, (F.split (segRange s seg) (value s seg) x).2) :: s.drop (seg + 1) := by
  rw [List.drop_add_one_eq_tail_drop, drop_splitUnchecked h, List.tail_cons]

theorem drop_succ_succ_splitUnchecked (h : seg < s.length) :
    (splitUnchecked F s seg x).1.drop (seg + 1 + 1) = s.drop (seg + 1) := by
  rw [List.drop_add_one_eq_tail_drop, drop_succ_splitUnchecked h, List.tail_cons]

/-- After `Insert`, the segments after the one it returns are those after the
gap, or after the next segment where that one was merged. -/
theorem InsertResult.drop (h : InsertResult F s gap r val res) (hl : gap ≤ s.length) :
    ∃ n ≤ 1, res.1.drop (res.2 + 1) = s.drop (gap + n) := by
  cases h with
  | insertIdx =>
    refine ⟨0, Nat.zero_le 1, ?_⟩
    rw [List.drop_add_one_eq_tail_drop, List.drop_insertIdx_self hl, List.tail_cons, Nat.add_zero]
  | mergePrev m hpos _ _ =>
    refine ⟨0, Nat.zero_le 1, ?_⟩
    rw [Nat.sub_add_cancel hpos, drop_setValue_of_lt (by omega), drop_setEndUnchecked_of_lt (by omega),
      Nat.add_zero]
  | mergeBoth m m2 hpos _ _ _ _ _ =>
    refine ⟨1, Nat.le_refl 1, ?_⟩
    rw [Nat.sub_add_cancel hpos, List.drop_eraseIdx_self, drop_setValue_of_lt (by omega),
      drop_setEndUnchecked_of_lt (by omega), drop_setValue_of_lt (by omega),
      drop_setEndUnchecked_of_lt (by omega)]
  | mergeNext m _ _ _ =>
    refine ⟨1, Nat.le_refl 1, ?_⟩
    rw [drop_setValue_of_lt (by omega), drop_setStartUnchecked_of_lt (by omega)]

theorem drop_insert (hl : gap ≤ s.length) :
    ∃ n ≤ 1, (insert F s gap r val).1.drop ((insert F s gap r val).2 + 1) = s.drop (gap + n) :=
  (insert_spec F s gap r val).drop hl

/-- After `Isolate`, the segments after the one it returns are those after the
segment it was given, behind the piece cut off at `r.End` if there was one. -/
theorem drop_isolate (h : seg < s.length) :
    (isolate F s seg r).1.drop ((isolate F s seg r).2 + 1) = s.drop (seg + 1) ∨
      ∃ e v, (isolate F s seg r).1.drop ((isolate F s seg r).2 + 1) = (⟨r.End, e⟩, v) :: s.drop (seg + 1) := by
  unfold isolate
  split_ifs with h1
  · dsimp only
    simp only [splitUnchecked_snd]
    have hl : seg + 1 < (splitUnchecked F s seg r.Start).1.length := by
      rw [length_splitUnchecked h]
      omega
    by_cases h2 : (segRange (splitUnchecked F s seg r.Start).1 (seg + 1)).canSplitAt r.End
    · simp only [h2, if_true]
      exact .inr ⟨_, _, by rw [drop_succ_splitUnchecked hl, drop_succ_succ_splitUnchecked h]⟩
    · simp only [h2]
      exact .inl (drop_succ_succ_splitUnchecked h)
  · dsimp only
    by_cases h2 : (segRange s seg).canSplitAt r.End
    · simp only [h2, if_true, splitUnchecked_snd]
      exact .inr ⟨_, _, drop_succ_splitUnchecked h⟩
    · simp only [h2]
      exact .inl rfl

end Suffixes

section Find

theorem segEnd_findIdx {key : ℕ}
    (h : s.findIdx (fun p : Range × V => decide (key < p.1.End)) < s.length) :
    key < segEnd s (s.findIdx (fun p : Range × V => decide (key < p.1.End))) := by
  have := @List.findIdx_getElem _ (fun p : Range × V => decide (key < p.1.End)) s h
  rw [getElem_eq h] at this
  simpa [segEnd] using this

theorem segEnd_le_of_lt_findIdx {key : ℕ}
    (h : i < s.findIdx (fun p : Range × V => decide (key < p.1.End))) : segEnd s i ≤ key := by
  have := List.not_of_lt_findIdx h
  rw [getElem_eq (Nat.lt_of_lt_of_le h List.findIdx_le_length)] at this
  simpa [segEnd] using this

/-- `Find` at a key from `MinKey` on: the segment that contains it, or a gap that
starts by it and holds it, unless that gap is the last one. -/
theorem find_cases_of_le {key : ℕ} (hk : F.minKey ≤ key) :
    (∃ seg, find s key = (seg, s.length + 1) ∧ seg < s.length ∧ segStart s seg ≤ key ∧
      key < segEnd s seg) ∨
    (∃ gap, find s key = (s.length, gap) ∧ gap ≤ s.length ∧ gapStart s F gap ≤ key ∧
      (key < gapEnd s F gap ∨ gap = s.length)) := by
  have hle : s.findIdx (fun p : Range × V => decide (key < p.1.End)) ≤ s.length :=
    List.findIdx_le_length
  dsimp only [find]
  split_ifs with h
  · exact .inl ⟨_, rfl, h.1, h.2, segEnd_findIdx h.1⟩
  · refine .inr ⟨_, rfl, hle, ?_, ?_⟩
    · rcases Nat.eq_zero_or_pos (s.findIdx fun p : Range × V => decide (key < p.1.End)) with
        h0 | hpos
      · rw [h0, gapStart_zero]
        exact hk
      · rw [gapStart_of_pos hpos]
        exact segEnd_le_of_lt_findIdx (by omega)
    · by_cases hlt : s.findIdx (fun p : Range × V => decide (key < p.1.End)) < s.length
      · rw [gapEnd_of_lt hlt]
        exact .inl (Nat.lt_of_not_le fun h' => h ⟨hlt, h'⟩)
      · exact .inr (by omega)

/-- `Find` returns the segment that contains `key`, or the gap that does. -/
theorem find_cases {key : ℕ} (hk : F.minKey ≤ key) (hk' : key < F.maxKey) :
    (∃ seg, find s key = (seg, s.length + 1) ∧ seg < s.length ∧ segStart s seg ≤ key ∧
      key < segEnd s seg) ∨
    (∃ gap, find s key = (s.length, gap) ∧ gap ≤ s.length ∧ gapStart s F gap ≤ key ∧
      key < gapEnd s F gap) := by
  rcases find_cases_of_le (F := F) (s := s) hk with hseg | ⟨gap, hf, hg, hs, he⟩
  · exact .inl hseg
  · refine .inr ⟨gap, hf, hg, hs, ?_⟩
    rcases he with he | rfl
    · exact he
    · rw [gapEnd_of_le (Nat.le_refl _)]
      exact hk'

end Find

theorem WellFormed.pairwise_start (hw : WellFormed F s) :
    s.Pairwise fun p q => p.1.Start ≤ q.1.Start := by
  rw [List.pairwise_iff_getElem]
  intro i j hi hj hij
  rw [getElem_eq hi, getElem_eq hj]
  exact Nat.le_trans (Nat.le_of_lt (hw.range i hi).2.1) (hw.end_le_start hij hj)

/-- No two segments of a well-formed set contain the same key. -/
theorem WellFormed.eq_of_contains {p q : Range × V} (hw : WellFormed F s) (hp : p ∈ s) (hq : q ∈ s)
    (hpx : p.1.contains x) (hqx : q.1.contains x) : p = q := by
  obtain ⟨i, hi, rfl⟩ := List.mem_iff_getElem.1 hp
  obtain ⟨j, hj, rfl⟩ := List.mem_iff_getElem.1 hq
  rw [getElem_eq hi] at hpx ⊢
  rw [getElem_eq hj] at hqx ⊢
  simp only [Range.contains, Bool.and_eq_true, decide_eq_true_eq] at hpx hqx
  rcases Nat.lt_trichotomy i j with hij | rfl | hij
  · have := hw.end_le_start hij hj
    simp only [segStart, segEnd] at this
    omega
  · rfl
  · have := hw.end_le_start hij hi
    simp only [segStart, segEnd] at this
    omega

end Segment
