import Gvisor.Segment.Ops

/-! Properties of a segment's range and value together, such as a value whose entries are sized
by the range it maps: each mutator keeps one where `Merge` and `Split` keep it, and a merge keeps
what a reading says where it does so for segments that have it. `Insert` merges with neither
neighbour where `Merge` refuses both, and `MergeAdjacent` keeps the set well formed, such a
property, and what the reading says. -/

namespace Segment

variable {V A : Type*} [Inhabited V] {F : Functions V} {s : List (Range × V)} {α : Range → V → ℕ → A}
  {P : Range → V → Prop} {seg gap x : ℕ} {r : Range} {v m : V}

/-- Every segment of the set has property `P` of its range and value. -/
def Segs (P : Range → V → Prop) (s : List (Range × V)) : Prop := ∀ p ∈ s, P p.1 p.2

variable (F) in
/-- `Merge` of two adjacent segments and `Split` strictly inside one keep `P`. -/
structure SegsPreserve (P : Range → V → Prop) : Prop where
  merge : ∀ r1 v1 r2 v2 m, r1.Start < r1.End → r1.End = r2.Start → r2.Start < r2.End →
    P r1 v1 → P r2 v2 → F.merge r1 v1 r2 v2 = some m → P ⟨r1.Start, r2.End⟩ m
  split : ∀ r v y, r.canSplitAt y → P r v →
    P ⟨r.Start, y⟩ (F.split r v y).1 ∧ P ⟨y, r.End⟩ (F.split r v y).2

variable (F) (α) in
/-- `Merge` keeps what `α` reads at every key of two adjacent segments that have `P`. -/
def MergeKeeps (P : Range → V → Prop) : Prop :=
  ∀ r1 v1 r2 v2 m, r1.Start < r1.End → r1.End = r2.Start → r2.Start < r2.End →
    P r1 v1 → P r2 v2 → F.merge r1 v1 r2 v2 = some m →
    (∀ x, r1.contains x → α ⟨r1.Start, r2.End⟩ m x = α r1 v1 x) ∧
      (∀ x, r2.contains x → α ⟨r1.Start, r2.End⟩ m x = α r2 v2 x)

namespace Segs

omit [Inhabited V] in
theorem nil : Segs P ([] : List (Range × V)) := fun _ h => absurd h List.not_mem_nil

theorem get (hs : Segs P s) (h : seg < s.length) : P (segRange s seg) (value s seg) :=
  hs _ (mem_of_lt_length h)

theorem setValue (hs : Segs P s) (h : seg < s.length → P (segRange s seg) v) :
    Segs P (setValue s seg v) :=
  List.forall_mem_modify_at hs fun hl => by
    rw [getElem_eq hl]
    exact h hl

omit [Inhabited V] in
theorem insertIdx (hs : Segs P s) (h : P r v) : Segs P (s.insertIdx gap (r, v)) :=
  List.forall_mem_insertIdx hs h

omit [Inhabited V] in
theorem eraseIdx (hs : Segs P s) : Segs P (s.eraseIdx seg) := List.forall_mem_eraseIdx hs

theorem splitUnchecked (hs : Segs P s) (hp : SegsPreserve F P) (h : (segRange s seg).canSplitAt x) :
    Segs P (Segment.splitUnchecked F s seg x).1 := by
  have hseg := lt_length_of_canSplitAt h
  obtain ⟨h1, h2⟩ := hp.split _ _ x h (hs.get hseg)
  -- the first half is the segment with its end and value changed in one update
  have hfirst : Segment.setValue (setEndUnchecked s seg x) seg (F.split (segRange s seg) (value s seg) x).1 =
      s.modify seg fun p => (⟨p.1.Start, x⟩, (F.split (segRange s seg) (value s seg) x).1) := by
    rw [Segment.setValue, setEndUnchecked, List.modify_modify_eq]
    rfl
  rw [splitUnchecked_eq, hfirst]
  refine insertIdx (List.forall_mem_modify_at hs fun hl => ?_) h2
  rw [getElem_eq hl]
  exact h1

theorem isolate (hs : Segs P s) (hp : SegsPreserve F P) : Segs P (Segment.isolate F s seg r).1 :=
  isolate_induction (Segs P) (fun _ _ _ h hs => hs.splitUnchecked hp h) hs

/-- The segment that `MergeUnchecked` makes of two has `P`. -/
theorem merged (hs : Segs P s) (hp : SegsPreserve F P) (hw : WellFormed F s) (hl : seg + 1 < s.length)
    (he : segEnd s seg = segStart s (seg + 1))
    (hm : F.merge (segRange s seg) (value s seg) (segRange s (seg + 1)) (value s (seg + 1)) = some m) :
    Segs P ((Segment.setValue (setEndUnchecked s seg (segEnd s (seg + 1))) seg m).eraseIdx (seg + 1)) := by
  have hnew : P ⟨segStart s seg, segEnd s (seg + 1)⟩ m :=
    hp.merge _ _ _ _ _ (hw.range seg (by omega)).2.1 he (hw.range (seg + 1) hl).2.1
      (hs.get (by omega)) (hs.get hl) hm
  rw [merged_eq hl]
  intro p hp'
  simp only [List.mem_append, List.mem_singleton] at hp'
  rcases hp' with (hp' | rfl) | hp'
  · exact hs p (List.mem_of_mem_take hp')
  · exact hnew
  · exact hs p (List.mem_of_mem_drop hp')

end Segs

/-- `Insert` where `Merge` refuses both neighbours inserts the segment as it is. -/
theorem insert_eq_insertIdx (hprev : 0 < gap → F.merge (segRange s (gap - 1)) (value s (gap - 1)) r v = none)
    (hnext : gap < s.length → F.merge r v (segRange s gap) (value s gap) = none) :
    insert F s gap r v = (s.insertIdx gap (r, v), gap) := by
  have hmn : insertMergeNext F s gap r v = (s.insertIdx gap (r, v), gap) := by
    unfold insertMergeNext
    split_ifs with h
    · rw [hnext h.1]
      rfl
    · rfl
  unfold insert
  split_ifs with h
  · rw [hprev h.1]
    exact hmn
  · exact hmn

/-- `Isolate` of a segment inside the range leaves it as it is. -/
theorem isolate_of_within (h1 : r.Start ≤ segStart s seg) (h2 : segEnd s seg ≤ r.End) :
    isolate F s seg r = (s, seg) := by
  rw [isolate_of_le h1, if_neg]
  rw [Range.canSplitAt_iff]
  simp only [segEnd] at h2
  omega

omit [Inhabited V] in
/-- `SetValue` of a segment just inserted is the insertion of the new value. -/
theorem setValue_insertIdx_self (hl : gap ≤ s.length) (v' : V) :
    setValue (s.insertIdx gap (r, v)) gap v' = s.insertIdx gap (r, v') :=
  List.modify_insertIdx_self hl _ _

section Collect

/-- The ranges `rs` that a sweep collected cover exactly the keys below its frontier `f` that
have property `Q`. -/
def Collected (rs : List Range) (Q : ℕ → Prop) (f : ℕ) : Prop :=
  ∀ x, (∃ r ∈ rs, r.contains x) ↔ x < f ∧ Q x

namespace Collected

variable {rs : List Range} {Q : ℕ → Prop} {f f' : ℕ}

theorem nil (h : ∀ x, x < f → ¬Q x) : Collected [] Q f := by
  intro x
  simp only [List.not_mem_nil, false_and, exists_false, false_iff, not_and]
  exact h x

/-- The frontier moves over keys without `Q`. -/
theorem advance (h : Collected rs Q f) (hf : f ≤ f') (h' : ∀ x, f ≤ x → x < f' → ¬Q x) :
    Collected rs Q f' := by
  intro x
  rw [h x]
  constructor
  · rintro ⟨hx, hq⟩
    exact ⟨by omega, hq⟩
  · rintro ⟨hx, hq⟩
    refine ⟨Nat.lt_of_not_le fun hx' => h' x hx' hx hq, hq⟩

/-- The frontier moves over `[f, f')`, where `r` holds exactly the keys with `Q`. -/
theorem append (h : Collected rs Q f) (hf : f ≤ f') (hr : ∀ x, r.contains x → f ≤ x ∧ x < f')
    (h' : ∀ x, f ≤ x → x < f' → (r.contains x ↔ Q x)) : Collected (rs ++ [r]) Q f' := by
  intro x
  simp only [List.mem_append, List.mem_singleton]
  constructor
  · rintro ⟨r', hr' | rfl, hx⟩
    · obtain ⟨hx1, hq⟩ := (h x).1 ⟨r', hr', hx⟩
      exact ⟨by omega, hq⟩
    · obtain ⟨h1, h2⟩ := hr x hx
      exact ⟨h2, (h' x h1 h2).1 hx⟩
  · rintro ⟨hx, hq⟩
    by_cases hxf : x < f
    · obtain ⟨r', hr', hx'⟩ := (h x).2 ⟨hxf, hq⟩
      exact ⟨r', .inl hr', hx'⟩
    · exact ⟨r, .inr rfl, (h' x (by omega) hx).2 hq⟩

/-- Past the last key with `Q`, the ranges cover exactly the keys with `Q`. -/
theorem done (h : Collected rs Q f) (hf : ∀ x, Q x → x < f) :
    ∀ x, (∃ r ∈ rs, r.contains x) ↔ Q x :=
  fun x => (h x).trans ⟨fun h => h.2, fun hq => ⟨hf x hq, hq⟩⟩

/-- `Isolate` of the segment at the frontier moves it over keys outside the range. -/
theorem isolate {F : Functions V} {s : List (Range × V)} {seg : ℕ} {r : Range}
    (h : Collected rs Q (gapEnd s F seg)) (hQ : ∀ x, Q x → r.contains x) (hseg : seg < s.length)
    (hr : r.Start < r.End) (h1 : r.Start < segEnd s seg) (h2 : segStart s seg < r.End) :
    Collected rs Q (gapEnd (Segment.isolate F s seg r).1 F (Segment.isolate F s seg r).2) := by
  obtain ⟨hR, hk⟩ := segRange_isolate (F := F) hseg hr h1 h2
  have hf : gapEnd (Segment.isolate F s seg r).1 F (Segment.isolate F s seg r).2 =
      max (segStart s seg) r.Start := by
    rw [gapEnd_of_lt hk, segStart, hR]
  rw [hf]
  refine h.advance (by rw [gapEnd_of_lt hseg]; exact Nat.le_max_left _ _) fun x hx1 hx hq => ?_
  rw [gapEnd_of_lt hseg] at hx1
  have := Range.contains_iff.1 (hQ x hq)
  omega

end Collected

end Collect

/-- A key where the set says something is in a segment, which `FindSegment` and
`LowerBoundSegment` both return. -/
theorem findSegment_of_readAt (hw : WellFormed F s) (hk : F.minKey ≤ x) (hk' : x < F.maxKey)
    (h : readAt α s x ≠ none) :
    findSegment s x < s.length ∧ (segRange s (findSegment s x)).contains x ∧
      lowerBoundSegment s x = findSegment s x := by
  rcases find_cases (F := F) (s := s) hk hk' with ⟨seg, hf, hseg, h1, h2⟩ | ⟨gap, -, hg, h1, h2⟩
  · have hfs : findSegment s x = seg := by rw [findSegment, hf]
    refine ⟨hfs ▸ hseg, hfs ▸ Range.contains_iff.2 ⟨h1, h2⟩, ?_⟩
    rw [lowerBoundSegment, hf, hfs]
    exact if_pos hseg
  · exact absurd (readAt_of_gap hw hg ⟨h1, h2⟩) h

omit [Inhabited V] in
/-- What the set says at a key, it says by the segment that holds the key. -/
theorem exists_of_readAt_eq_some {a : A} (h : readAt α s x = some a) :
    ∃ p ∈ s, p.1.contains x ∧ a = α p.1 p.2 x := by
  unfold readAt lookup at h
  cases hf : s.find? fun p => p.1.contains x with
  | none =>
    rw [hf] at h
    cases h
  | some p =>
    rw [hf, Option.map_some, Option.some.injEq] at h
    exact ⟨p, List.mem_of_find?_eq_some hf, List.find?_some (p := fun p : Range × V => p.1.contains x) hf,
      h.symm⟩

section Merge

variable (F) (P) (α) in
/-- `s'` is `s` with some adjacent segments merged: well formed, with `P` on every segment, and
reading as `s` does. -/
structure MergedFrom (s s' : List (Range × V)) : Prop where
  wellFormed : WellFormed F s'
  segs : Segs P s'
  readAt : ∀ x, readAt α s' x = readAt α s x

theorem MergedFrom.refl (hw : WellFormed F s) (hs : Segs P s) : MergedFrom F α P s s :=
  ⟨hw, hs, fun _ => rfl⟩

theorem MergedFrom.trans {s1 s2 : List (Range × V)} (h1 : MergedFrom F α P s s1)
    (h2 : MergedFrom F α P s1 s2) : MergedFrom F α P s s2 :=
  ⟨h2.wellFormed, h2.segs, fun x => (h2.readAt x).trans (h1.readAt x)⟩

variable (hp : SegsPreserve F P) (hk : MergeKeeps F α P)
include hp hk

/-- `MergeUnchecked` of a segment and the next, where it merges or not. -/
theorem mergeUnchecked_next (hw : WellFormed F s) (hs : Segs P s) (hl : seg + 1 < s.length) :
    MergedFrom F α P s (((mergeUnchecked F s seg (seg + 1)).map Prod.fst).getD s) := by
  cases hmu : mergeUnchecked F s seg (seg + 1) with
  | none => exact .refl hw hs
  | some res =>
    obtain ⟨m, he, hm, rfl⟩ := mergeUnchecked_spec hmu
    obtain ⟨hm1, hm2⟩ := hk _ _ _ _ _ (hw.range seg (by omega)).2.1 he (hw.range (seg + 1) hl).2.1
      (hs.get (by omega)) (hs.get hl) hm
    exact ⟨hw.merged hl he, hs.merged hp hw hl he hm, fun _ => readAt_merged_of hw hl he hm1 hm2⟩

/-- `MergeAdjacent` keeps the set well formed, `P`, and what `α` reads. -/
theorem mergeAdjacent_spec (hw : WellFormed F s) (hs : Segs P s) (r : Range) :
    MergedFrom F α P s (mergeAdjacent F s r) := by
  -- the merge at `r.End - 1`, on whatever the merge at `r.Start` left; any key will do
  have hlast : ∀ s1 key, MergedFrom F α P s s1 → MergedFrom F α P s
      (if findSegment s1 key < s1.length ∧ findSegment s1 key + 1 < s1.length then
        ((mergeUnchecked F s1 (findSegment s1 key) (findSegment s1 key + 1)).map Prod.fst).getD s1
      else s1) := by
    intro s1 key h1
    split_ifs with h
    · exact h1.trans (mergeUnchecked_next hp hk h1.wellFormed h1.segs h.2)
    · exact h1
  unfold mergeAdjacent
  apply hlast
  split_ifs with h
  · have h1 := mergeUnchecked_next hp hk hw hs (by omega : findSegment s r.Start - 1 + 1 < s.length)
    rwa [Nat.sub_add_cancel h.2] at h1
  · exact .refl hw hs

end Merge

end Segment
