import Mathlib

/-! Facts of every element of a list after an update in place, the form in
which an invariant over the cells of an array is carried through a write, the
invariant rule of a loop that can fail with an error, and sums over a list of
handles into a store after one entry of the store changes; what `dropWhile`
leaves of an ordered list; a running maximum only grows. -/

namespace List

variable {α : Type*} {P : α → Prop}

theorem forall_mem_set {l : List α} {i : ℕ} {a : α} (hl : ∀ x ∈ l, P x) (ha : P a) :
    ∀ x ∈ l.set i a, P x := by
  intro x hx
  rcases mem_or_eq_of_mem_set hx with hx | rfl
  · exact hl x hx
  · exact ha

theorem forall_mem_modify {l : List α} {i : ℕ} {f : α → α} (hl : ∀ x ∈ l, P x)
    (hf : ∀ x ∈ l, P (f x)) : ∀ x ∈ l.modify i f, P x := by
  intro x hx
  obtain ⟨j, hj⟩ := mem_iff_getElem?.mp hx
  rw [getElem?_modify] at hj
  obtain ⟨y, hy, rfl⟩ := Option.map_eq_some_iff.mp hj
  have hmem := mem_of_getElem? hy
  split
  · exact hf y hmem
  · exact hl y hmem

/-- The update at `i` keeps `P` where it makes an element with `P` of the one at `i`. -/
theorem forall_mem_modify_at {l : List α} {i : ℕ} {f : α → α} (hl : ∀ x ∈ l, P x)
    (hf : ∀ h : i < l.length, P (f l[i])) : ∀ x ∈ l.modify i f, P x := by
  intro x hx
  obtain ⟨j, hj⟩ := mem_iff_getElem?.mp hx
  rw [getElem?_modify] at hj
  obtain ⟨y, hy, rfl⟩ := Option.map_eq_some_iff.mp hj
  split
  · rename_i hij
    subst hij
    obtain ⟨h, rfl⟩ := getElem?_eq_some_iff.1 hy
    exact hf h
  · exact hl y (mem_of_getElem? hy)

theorem getD_mem_or_eq (l : List α) (i : ℕ) (d : α) : l.getD i d ∈ l ∨ l.getD i d = d := by
  rw [getD_eq_getElem?_getD]
  cases h : l[i]? with
  | none => exact .inr rfl
  | some x => exact .inl (mem_of_getElem? h)

theorem getD_set (l : List α) (i j : ℕ) (a d : α) :
    (l.set i a).getD j d = if j = i ∧ i < l.length then a else l.getD j d := by
  grind

theorem getD_modify (l : List α) (f : α → α) (i j : ℕ) (d : α) :
    (l.modify i f).getD j d = if j = i ∧ i < l.length then f (l.getD i d) else l.getD j d := by
  grind

theorem getD_insertIdx {l : List α} {i : ℕ} (h : i ≤ l.length) (a : α) (j : ℕ) (d : α) :
    (l.insertIdx i a).getD j d =
      if j < i then l.getD j d else if j = i then a else l.getD (j - 1) d := by
  grind

theorem getD_eraseIdx (l : List α) (i j : ℕ) (d : α) :
    (l.eraseIdx i).getD j d = if j < i then l.getD j d else l.getD (j + 1) d := by
  grind

theorem forall_mem_insertIdx {l : List α} {i : ℕ} {a : α} (hl : ∀ x ∈ l, P x) (ha : P a) :
    ∀ x ∈ l.insertIdx i a, P x := by
  intro x hx
  by_cases hi : i ≤ l.length
  · rcases (mem_insertIdx hi).1 hx with rfl | hx
    · exact ha
    · exact hl x hx
  · rw [insertIdx_of_length_lt (by omega)] at hx
    exact hl x hx

theorem drop_insertIdx_self {l : List α} {i : ℕ} (h : i ≤ l.length) (a : α) :
    (l.insertIdx i a).drop i = a :: l.drop i := by
  induction l generalizing i with
  | nil =>
    obtain rfl : i = 0 := by simpa using h
    rfl
  | cons b l ih =>
    cases i with
    | zero => rfl
    | succ i =>
      rw [insertIdx_succ_cons, drop_succ_cons, drop_succ_cons]
      exact ih (by simpa using h)

theorem modify_insertIdx_self {l : List α} {i : ℕ} (h : i ≤ l.length) (a : α) (f : α → α) :
    (l.insertIdx i a).modify i f = l.insertIdx i (f a) := by
  induction l generalizing i with
  | nil =>
    obtain rfl : i = 0 := by simpa using h
    rfl
  | cons b l ih =>
    cases i with
    | zero => rfl
    | succ i =>
      rw [insertIdx_succ_cons, modify_succ_cons, insertIdx_succ_cons, ih (by simpa using h)]

theorem drop_eraseIdx_self (l : List α) (i : ℕ) : (l.eraseIdx i).drop i = l.drop (i + 1) := by
  induction l generalizing i with
  | nil => simp
  | cons b l ih =>
    cases i with
    | zero => rfl
    | succ i => simpa using ih i

theorem forall_mem_eraseIdx {l : List α} {i : ℕ} (hl : ∀ x ∈ l, P x) : ∀ x ∈ l.eraseIdx i, P x :=
  fun x hx => hl x (mem_of_mem_eraseIdx hx)

/-- What each turn of a failing loop keeps holds of its result. -/
theorem foldlM_except_invariant {ε β : Type*} {f : β → α → Except ε β} (P : β → Prop)
    (hf : ∀ b a b', P b → f b a = .ok b' → P b') :
    ∀ {l : List α} {b b' : β}, P b → l.foldlM f b = .ok b' → P b'
  | [], b, b', hb, h => by
    cases h
    exact hb
  | a :: l, b, b', hb, h => by
    rw [foldlM_cons] at h
    cases hfa : f b a with
    | error e =>
      rw [hfa] at h
      cases h
    | ok b₁ =>
      rw [hfa] at h
      exact foldlM_except_invariant P hf (hf b a b₁ hb hfa) h

section Drop

variable {l p rest : List α} {i : ℕ}

theorem getElem?_of_drop {a : α} (h : l.drop i = a :: rest) : l[i]? = some a := by
  rw [← Nat.add_zero i, ← getElem?_drop, h, getElem?_cons_zero]

theorem lt_length_of_drop {a : α} (h : l.drop i = a :: rest) : i < l.length := by
  have := congrArg length h
  rw [length_drop, length_cons] at this
  omega

end Drop

/-- Writing element `j` over element `j + 1` and then taking out element `j` takes out element
`j + 1`. -/
theorem eraseIdx_set_getD (d : α) : ∀ (l : List α) (j : ℕ), j + 1 < l.length →
    (l.set (j + 1) (l.getD j d)).eraseIdx j = l.eraseIdx (j + 1)
  | [], _, h => absurd h (by simp)
  | [_], _, h => absurd h (by simp)
  | a :: b :: l, 0, _ => by simp
  | a :: b :: l, j + 1, h => by
    have ih := eraseIdx_set_getD d (b :: l) j (by simpa using h)
    simp only [List.set_cons_succ, List.getD_cons_succ, List.eraseIdx_cons_succ] at ih ⊢
    rw [ih]

section Split

variable {l : List α} {i : ℕ} {a : α}

/-- A list around its element at `i`. -/
theorem eq_take_cons_drop (h : l[i]? = some a) : l = l.take i ++ a :: l.drop (i + 1) := by
  obtain ⟨hi, rfl⟩ := List.getElem?_eq_some_iff.1 h
  rw [← List.drop_eq_getElem_cons hi, List.take_append_drop]

/-- The element at `i` replaced, and another inserted after it. -/
theorem insertIdx_succ_set (h : l[i]? = some a) (b c : α) :
    (l.set i b).insertIdx (i + 1) c = l.take i ++ b :: c :: l.drop (i + 1) := by
  induction l generalizing i with
  | nil => simp at h
  | cons x l ih =>
    cases i with
    | zero => simp
    | succ i =>
      simp only [List.getElem?_cons_succ] at h
      simp [ih h]

/-- A list with an element inserted at `i`, around the insertion. -/
theorem insertIdx_eq_take_cons_drop (h : i ≤ l.length) (b : α) :
    l.insertIdx i b = l.take i ++ b :: l.drop i := by
  induction l generalizing i with
  | nil =>
    rw [List.length_nil, Nat.le_zero] at h
    subst h
    rfl
  | cons x l ih =>
    cases i with
    | zero => rfl
    | succ i =>
      simp only [List.length_cons, Nat.add_le_add_iff_right] at h
      simp [ih h]

/-- The element at `i` updated, and another inserted after it. -/
theorem modify_insertIdx_succ (h : i < l.length) (f : α → α) (c : α) :
    (l.modify i f).insertIdx (i + 1) c = l.take i ++ f l[i] :: c :: l.drop (i + 1) := by
  induction l generalizing i with
  | nil => simp at h
  | cons x l ih =>
    cases i with
    | zero => simp
    | succ i =>
      simp only [List.length_cons, Nat.add_lt_add_iff_right] at h
      simp [ih h]

/-- The element at `i` updated, and the one after it removed. -/
theorem modify_eraseIdx_succ (h : i + 1 < l.length) (f : α → α) :
    (l.modify i f).eraseIdx (i + 1) = l.take i ++ f l[i] :: l.drop (i + 2) := by
  induction l generalizing i with
  | nil => simp at h
  | cons x l ih =>
    cases i with
    | zero =>
      cases l with
      | nil => simp at h
      | cons y l => simp
    | succ i =>
      simp only [List.length_cons, Nat.add_lt_add_iff_right] at h
      simp [ih h]

end Split

section Store

variable {β : Type*} [DecidableEq α] {l : List α} {a : α} (st : α → β) (v : β) (g : β → ℕ)

theorem map_update_of_not_mem (ha : a ∉ l) :
    (l.map fun x => g (Function.update st a v x)) = l.map fun x => g (st x) :=
  map_congr_left fun _ hx => by rw [Function.update_of_ne (ne_of_mem_of_not_mem hx ha)]

/-- Over a list without repeats, replacing one listed entry of the store
changes the sum by the difference of the two values. -/
theorem sum_map_update (hl : l.Nodup) (ha : a ∈ l) :
    (l.map fun x => g (Function.update st a v x)).sum + g (st a) =
      (l.map fun x => g (st x)).sum + g v := by
  have herase : ((l.erase a).map fun x => g (Function.update st a v x)) =
      (l.erase a).map fun x => g (st x) :=
    map_update_of_not_mem st v g (hl.not_mem_erase)
  rw [← sum_map_erase _ ha, ← sum_map_erase (fun x => g (st x)) ha, herase, Function.update_self]
  omega

end Store

/-- Changing the element right after a prefix. -/
theorem modify_append_cons (f : α → α) (a : α) (l₂ : List α) :
    ∀ l₁ : List α, (l₁ ++ a :: l₂).modify l₁.length f = l₁ ++ f a :: l₂
  | [] => by rw [nil_append, length_nil, modify_zero_cons, nil_append]
  | b :: l₁ => by
    rw [cons_append, length_cons, modify_succ_cons, modify_append_cons f a l₂ l₁, cons_append]

/-- A change in place that a view does not see leaves the view of the list. -/
theorem map_modify_of_comp {β : Type*} (f : α → β) {g : α → α} (hg : ∀ x, f (g x) = f x) :
    ∀ (l : List α) (n : ℕ), (l.modify n g).map f = l.map f
  | [], _ => by rw [modify_nil]
  | a :: l, 0 => by rw [modify_zero_cons, map_cons, map_cons, hg]
  | a :: l, n + 1 => by rw [modify_succ_cons, map_cons, map_cons, map_modify_of_comp f hg l n]

/-- Over a list ordered by `R`, where a test that fails on one element fails on
every later one, what `dropWhile` leaves all fail the test. -/
theorem forall_mem_dropWhile {p : α → Bool} {R : α → α → Prop}
    (hp : ∀ a b, R a b → p a = false → p b = false) :
    ∀ {l : List α}, l.Pairwise R → ∀ x ∈ l.dropWhile p, p x = false
  | [], _, _, hx => absurd hx (not_mem_nil)
  | a :: l, hl, x, hx => by
    rw [pairwise_cons] at hl
    cases ha : p a with
    | true =>
      rw [dropWhile_cons_of_pos ha] at hx
      exact forall_mem_dropWhile hp hl.2 x hx
    | false =>
      rw [dropWhile_cons_of_neg (by simp [ha])] at hx
      rcases mem_cons.1 hx with rfl | hx
      · exact ha
      · exact hp a x (hl.1 x hx) ha

/-- Where every element `dropWhile` leaves fails the test, it leaves those
that fail it. -/
theorem dropWhile_eq_filter {p : α → Bool} {l : List α}
    (h : ∀ x ∈ l.dropWhile p, p x = false) : l.dropWhile p = l.filter fun x => !p x := by
  conv_rhs => rw [← takeWhile_append_dropWhile (p := p) (l := l)]
  rw [filter_append, filter_eq_nil_iff.2 fun x hx => by simp [mem_takeWhile_imp hx], nil_append,
    filter_eq_self.2 fun x hx => by simp [h x hx]]

/-- Filtering out, from a list without repeats, the elements of its first part
leaves the rest. -/
theorem filter_not_mem_of_prefix [DecidableEq α] {A B A' : List α} (hnd : (A ++ B).Nodup)
    (hA : ∀ x, x ∈ A' ↔ x ∈ A) : (A ++ B).filter (fun x => x ∉ A') = B := by
  rw [filter_append, filter_eq_nil_iff.2 fun x hx => by simp [(hA x).2 hx], nil_append,
    filter_eq_self.2]
  intro x hx
  have hxA : x ∉ A := fun h => (nodup_append.1 hnd).2.2 x h x hx rfl
  simpa [hA x] using hxA

/-- A running maximum only grows. -/
theorem le_foldl_max (f : α → ℕ) : ∀ (l : List α) (c : ℕ), c ≤ l.foldl (fun c a => max c (f a)) c
  | [], _ => Nat.le_refl _
  | a :: l, c => Nat.le_trans (Nat.le_max_left c (f a)) (le_foldl_max f l (max c (f a)))

end List
