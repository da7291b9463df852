import Mathlib.Data.List.Basic
import Mathlib.Data.List.Perm.Basic

/-! The binary heap of Go's `container/heap` over a slice, with the order
given by a `Less` test on the elements. `Push` appends and sifts the new
element up, `Pop` swaps the root with the last element, sifts it down over the
others and removes the last. Each sift is a loop of at most as many turns as
the slice has elements, which is the fuel it is given here. Whatever `Less` is
(a strict order or not), both keep the elements of the heap. When `Less` is a
strict weak order (`WeakOrder`), both keep the heap order (`IsHeap`), and `Pop`
returns a least element. -/

namespace Heap

variable {α : Type*} (lt : α → α → Bool)

/-- `h.Swap(i, j)`. -/
def swap (h : List α) (i j : ℕ) : List α :=
  match h[i]?, h[j]? with
  | some a, some b => (h.set i b).set j a
  | _, _ => h

/-- `h.Less(i, j)`. -/
def less (h : List α) (i j : ℕ) : Bool :=
  match h[i]?, h[j]? with
  | some a, some b => lt a b
  | _, _ => false

/-- The loop of `up`: move the element at `j` towards the root while it is
less than its parent. -/
def upLoop : ℕ → List α → ℕ → List α
  | 0, h, _ => h
  | fuel + 1, h, j =>
    let i := (j - 1) / 2
    if i = j ∨ !less lt h j i then h
    else upLoop fuel (swap h i j) i

/-- The loop of `down` over the first `n` elements: move the element at `i`
towards the leaves while a child is less than it. -/
def downLoop (n : ℕ) : ℕ → List α → ℕ → List α
  | 0, h, _ => h
  | fuel + 1, h, i =>
    let j1 := 2 * i + 1
    if n ≤ j1 then h
    else
      let j := if j1 + 1 < n ∧ less lt h (j1 + 1) j1 then j1 + 1 else j1
      if !less lt h j i then h
      else downLoop n fuel (swap h i j) j

/-- `heap.Push(h, x)`. -/
def push (h : List α) (x : α) : List α := upLoop lt (h.length + 1) (h ++ [x]) h.length

/-- `heap.Pop(h)`: the least element and the heap without it, `none` on an
empty heap, where the source panics. -/
def pop (h : List α) : Option (α × List α) :=
  match h with
  | [] => none
  | _ :: _ =>
    let n := h.length - 1
    let h := downLoop lt n n (swap h 0 n) 0
    h.getLast?.map fun x => (x, h.dropLast)

variable {lt} {h : List α} {i j : ℕ}

@[simp] theorem length_swap : (swap h i j).length = h.length := by
  unfold swap
  split <;> simp

theorem length_upLoop : ∀ (fuel : ℕ) (h : List α) (j : ℕ), (upLoop lt fuel h j).length = h.length
  | 0, _, _ => rfl
  | fuel + 1, h, j => by
    rw [upLoop]
    split_ifs
    · rfl
    · rw [length_upLoop fuel, length_swap]

theorem length_downLoop (n : ℕ) :
    ∀ (fuel : ℕ) (h : List α) (i : ℕ), (downLoop lt n fuel h i).length = h.length
  | 0, _, _ => rfl
  | fuel + 1, h, i => by
    rw [downLoop]
    dsimp only
    split_ifs <;> simp only [length_downLoop n fuel, length_swap]

@[simp] theorem length_push (h : List α) (x : α) : (push lt h x).length = h.length + 1 := by
  rw [push, length_upLoop, List.length_append, List.length_singleton]

/-- `Pop` returns on every heap that is not empty. -/
theorem isSome_pop (hne : h ≠ []) : (pop lt h).isSome := by
  cases h with
  | nil => exact absurd rfl hne
  | cons a t =>
    have hlen : (downLoop lt (t.length) t.length (swap (a :: t) 0 t.length) 0).length = t.length + 1 := by
      rw [length_downLoop, length_swap, List.length_cons]
    simp only [pop, List.length_cons, Nat.add_sub_cancel, Option.isSome_map]
    cases hl : (downLoop lt t.length t.length (swap (a :: t) 0 t.length) 0).getLast? with
    | none =>
      rw [List.getLast?_eq_none_iff] at hl
      rw [hl] at hlen
      cases hlen
    | some x => rfl

theorem pop_eq_none_iff : pop lt h = none ↔ h = [] := by
  constructor
  · intro hp
    by_contra hne
    have : (pop lt h).isSome := isSome_pop hne
    rw [hp] at this
    cases this
  · rintro rfl
    rfl

section Order

variable {lt : α → α → Bool}

/-- What `container/heap` asks of `Less`: it is asymmetric, and "not less" is
transitive. The `<` of a key is such an order. -/
structure WeakOrder (lt : α → α → Bool) : Prop where
  asymm : ∀ a b, lt a b = true → lt b a = false
  not_trans : ∀ a b c, lt a b = false → lt b c = false → lt a c = false

theorem WeakOrder.irrefl (hw : WeakOrder lt) (a : α) : lt a a = false := by
  cases h : lt a a
  · rfl
  · have := hw.asymm a a h
    rw [h] at this
    exact this

/-- The order of a heap on its first `n` elements: none is less than its
parent. -/
def IsHeapOn (lt : α → α → Bool) (n : ℕ) (h : List α) : Prop :=
  ∀ k a b, 0 < k → k < n → h[k]? = some a → h[(k - 1) / 2]? = some b → lt a b = false

/-- The order of a heap. -/
def IsHeap (lt : α → α → Bool) (h : List α) : Prop := IsHeapOn lt h.length h

theorem getElem?_swap (hi : i < h.length) (hj : j < h.length) (k : ℕ) :
    (swap h i j)[k]? = if k = j then h[i]? else if k = i then h[j]? else h[k]? := by
  unfold swap
  rw [List.getElem?_eq_getElem hi, List.getElem?_eq_getElem hj]
  dsimp only
  rw [List.getElem?_set, List.getElem?_set, List.length_set]
  by_cases hkj : k = j
  · subst hkj
    simp [hj]
  · by_cases hki : k = i
    · subst hki
      simp [Ne.symm hkj, hkj, hi]
    · simp [Ne.symm hkj, Ne.symm hki, hki, hkj]

theorem getElem?_swap_of_ne {k : ℕ} (hki : k ≠ i) (hkj : k ≠ j) : (swap h i j)[k]? = h[k]? := by
  unfold swap
  split
  · rw [List.getElem?_set_ne (Ne.symm hkj), List.getElem?_set_ne (Ne.symm hki)]
  · rfl

theorem swap_perm (h : List α) (i j : ℕ) : (swap h i j).Perm h := by
  unfold swap
  split
  · rename_i a b ha hb
    obtain ⟨hi, rfl⟩ := List.getElem?_eq_some_iff.1 ha
    obtain ⟨hj, rfl⟩ := List.getElem?_eq_some_iff.1 hb
    rw [← List.swap_eq_of_lt hi hj]
    exact List.swap_perm h i j
  · exact List.Perm.refl h

theorem less_eq_true {i j : ℕ} (hl : less lt h i j = true) :
    ∃ a b, h[i]? = some a ∧ h[j]? = some b ∧ lt a b = true := by
  unfold less at hl
  split at hl
  · exact ⟨_, _, ‹_›, ‹_›, hl⟩
  · cases hl

theorem less_eq_false {i j : ℕ} {a b : α} (hl : less lt h i j = false) (ha : h[i]? = some a)
    (hb : h[j]? = some b) : lt a b = false := by
  unfold less at hl
  rw [ha, hb] at hl
  exact hl

/-- In a heap, no element is less than the root. -/
theorem IsHeapOn.root_min (hw : WeakOrder lt) {n : ℕ} (hh : IsHeapOn lt n h) {r : α}
    (hr : h[0]? = some r) : ∀ k a, k < n → h[k]? = some a → lt a r = false := by
  intro k
  induction k using Nat.strongRecOn with
  | ind k ih =>
    intro a hk ha
    rcases Nat.eq_zero_or_pos k with rfl | hk0
    · rw [hr] at ha
      cases ha
      exact hw.irrefl _
    · -- through the parent of `k`, which is nearer the root
      have hp : (k - 1) / 2 < k := by omega
      have hpl : (k - 1) / 2 < h.length := by
        have := (List.getElem?_eq_some_iff.1 ha).1
        omega
      obtain ⟨b, hb⟩ : ∃ b, h[(k - 1) / 2]? = some b := ⟨_, List.getElem?_eq_getElem hpl⟩
      exact hw.not_trans a b r (hh k a b hk0 hk ha hb) (ih _ hp b (by omega) hb)

section Up

/-- What the loop of `up` keeps while the element it moves is at `j`: every
other element is in order with its parent, and the children of `j` are in
order with the parent of `j`. -/
structure UpOrder (lt : α → α → Bool) (h : List α) (j : ℕ) : Prop where
  except : ∀ k a b, 0 < k → k ≠ j → h[k]? = some a → h[(k - 1) / 2]? = some b → lt a b = false
  grand : 0 < j → ∀ c a b, 0 < c → (c - 1) / 2 = j → h[c]? = some a →
    h[(j - 1) / 2]? = some b → lt a b = false

/-- A turn of `up` that swaps the element at `j` with its parent, which it is
less than. -/
theorem UpOrder.move (hw : WeakOrder lt) (o : UpOrder lt h j) (hj0 : 0 < j) {a b : α}
    (ha : h[j]? = some a) (hb : h[(j - 1) / 2]? = some b) (hab : lt a b = true) :
    UpOrder lt (swap h ((j - 1) / 2) j) ((j - 1) / 2) := by
  have hjl : j < h.length := (List.getElem?_eq_some_iff.1 ha).1
  have hij : (j - 1) / 2 < j := by omega
  have hs := getElem?_swap (h := h) (i := (j - 1) / 2) (j := j) (by omega) hjl
  have hba : lt b a = false := hw.asymm a b hab
  constructor
  · intro k x y hk hki hx hy
    by_cases hkj : k = j
    · -- the parent, moved down to `j`, against the element moved up
      subst hkj
      rw [hs, if_pos rfl, hb] at hx
      rw [hs, if_neg (by omega), if_pos rfl, ha] at hy
      cases hx
      cases hy
      exact hba
    · rw [hs, if_neg hkj, if_neg hki] at hx
      by_cases hpj : (k - 1) / 2 = j
      · rw [hs, if_pos hpj, hb] at hy
        cases hy
        exact o.grand hj0 k x b hk hpj hx hb
      · by_cases hpi : (k - 1) / 2 = (j - 1) / 2
        · -- a sibling of `j`: it was not less than `b`, which is not less than `a`
          rw [hs, if_neg hpj, if_pos hpi, ha] at hy
          cases hy
          rw [← hpi] at hb
          exact hw.not_trans x b a (o.except k x b hk hkj hx hb) hba
        · rw [hs, if_neg hpj, if_neg hpi] at hy
          exact o.except k x y hk hkj hx hy
  · intro hi0 c x y hc hpc hx hy
    have hgp : ((j - 1) / 2 - 1) / 2 < (j - 1) / 2 := by omega
    rw [hs, if_neg (by omega), if_neg (by omega)] at hy
    have hby : lt b y = false := o.except _ b y hi0 (by omega) hb hy
    by_cases hcj : c = j
    · subst hcj
      rw [hs, if_pos rfl, hb] at hx
      cases hx
      exact hby
    · rw [hs, if_neg hcj, if_neg (by omega)] at hx
      rw [← hpc] at hb
      exact hw.not_trans x b y (o.except c x b hc hcj hx hb) hby

/-- The turn of `up` that stops: the element at `j` is not less than its
parent, or is the root. -/
theorem UpOrder.finish (o : UpOrder lt h j)
    (hstop : 0 < j → ∀ a b, h[j]? = some a → h[(j - 1) / 2]? = some b → lt a b = false) :
    IsHeap lt h := by
  intro k a b hk _ ha hb
  by_cases hkj : k = j
  · subst hkj
    exact hstop hk a b ha hb
  · exact o.except k a b hk hkj ha hb

/-- `up` from a position below its fuel ends in a heap. -/
theorem upLoop_isHeap (hw : WeakOrder lt) :
    ∀ (fuel : ℕ) (h : List α) (j : ℕ), j < fuel → UpOrder lt h j → IsHeap lt (upLoop lt fuel h j)
  | 0, _, _, hj, _ => absurd hj (Nat.not_lt_zero _)
  | fuel + 1, h, j, hj, o => by
    rw [upLoop]
    split_ifs with hstop
    · refine o.finish fun hj0 a b ha hb => ?_
      have hne : (j - 1) / 2 ≠ j := by omega
      simp only [hne, false_or, Bool.not_eq_eq_eq_not, Bool.not_true] at hstop
      exact less_eq_false hstop ha hb
    · have hj0 : 0 < j := by
        by_contra h0
        exact hstop (.inl (by omega))
      have hl : less lt h j ((j - 1) / 2) = true := by
        simp only [not_or] at hstop
        simpa using hstop.2
      obtain ⟨a, b, ha, hb, hab⟩ := less_eq_true hl
      exact upLoop_isHeap hw fuel _ _ (by omega) (o.move hw hj0 ha hb hab)

theorem upLoop_perm : ∀ (fuel : ℕ) (h : List α) (j : ℕ), (upLoop lt fuel h j).Perm h
  | 0, _, _ => List.Perm.refl _
  | fuel + 1, h, j => by
    rw [upLoop]
    split_ifs
    · exact List.Perm.refl h
    · exact (upLoop_perm fuel _ _).trans (swap_perm h _ j)

theorem push_perm (h : List α) (x : α) : (push lt h x).Perm (h ++ [x]) := upLoop_perm _ _ _

/-- `Push` keeps the heap order and adds its element. -/
theorem push_isHeap (hw : WeakOrder lt) (hh : IsHeap lt h) (x : α) :
    IsHeap lt (push lt h x) ∧ (push lt h x).Perm (h ++ [x]) := by
  refine ⟨upLoop_isHeap hw _ _ _ (Nat.lt_succ_self _) ⟨?_, ?_⟩, push_perm h x⟩
  · -- the old elements, all before the new one, are in order
    intro k a b hk hkj ha hb
    have hkl : k < h.length := by
      have := (List.getElem?_eq_some_iff.1 ha).1
      rw [List.length_append, List.length_singleton] at this
      omega
    rw [List.getElem?_append_left hkl] at ha
    rw [List.getElem?_append_left (by omega)] at hb
    exact hh k a b hk hkl ha hb
  · -- the new element has no children
    intro _ c a _ _ hpc ha _
    have := (List.getElem?_eq_some_iff.1 ha).1
    rw [List.length_append, List.length_singleton] at this
    omega

end Up

section Down

/-- The child of `i` that `down` compares with it: the right one when it is
among the first `n` and less than the left one. -/
def minChild (lt : α → α → Bool) (n : ℕ) (h : List α) (i : ℕ) : ℕ :=
  if 2 * i + 1 + 1 < n ∧ less lt h (2 * i + 1 + 1) (2 * i + 1) then 2 * i + 1 + 1 else 2 * i + 1

theorem downLoop_succ (n fuel : ℕ) (h : List α) (i : ℕ) :
    downLoop lt n (fuel + 1) h i =
      if n ≤ 2 * i + 1 then h
      else if !less lt h (minChild lt n h i) i then h
      else downLoop lt n fuel (swap h i (minChild lt n h i)) (minChild lt n h i) := rfl

theorem minChild_spec (lt : α → α → Bool) (n : ℕ) (h : List α) (i : ℕ) :
    (minChild lt n h i - 1) / 2 = i ∧ 2 * i + 1 ≤ minChild lt n h i ∧
      (2 * i + 1 < n → minChild lt n h i < n) := by
  unfold minChild
  split_ifs with hc
  · omega
  · omega

/-- No child of `i` among the first `n` is less than the one `down` picks. -/
theorem minChild_min (hw : WeakOrder lt) {n : ℕ} {c : ℕ} {x a : α} (hc : c < n)
    (hpc : (c - 1) / 2 = i) (hc0 : 0 < c) (hx : h[c]? = some x)
    (ha : h[minChild lt n h i]? = some a) : lt x a = false := by
  have hcs : c = 2 * i + 1 ∨ c = 2 * i + 1 + 1 := by omega
  unfold minChild at ha
  split_ifs at ha with hr
  · rcases hcs with rfl | rfl
    · -- the right child was picked because it is less than the left one
      obtain ⟨a', x', ha', hx', hl⟩ := less_eq_true hr.2
      rw [ha] at ha'
      rw [hx] at hx'
      cases ha'
      cases hx'
      exact hw.asymm a x hl
    · rw [hx] at ha
      cases ha
      exact hw.irrefl x
  · rcases hcs with rfl | rfl
    · rw [hx] at ha
      cases ha
      exact hw.irrefl x
    · have hl : less lt h (2 * i + 1 + 1) (2 * i + 1) = false := by
        simpa [hc] using hr
      exact less_eq_false hl hx ha

/-- What the loop of `down` over the first `n` elements keeps while the
element it moves is at `i`: every element whose parent is not `i` is in order
with its parent, and the children of `i` are in order with the parent of `i`. -/
structure DownOrder (lt : α → α → Bool) (n : ℕ) (h : List α) (i : ℕ) : Prop where
  except : ∀ k a b, 0 < k → k < n → (k - 1) / 2 ≠ i → h[k]? = some a →
    h[(k - 1) / 2]? = some b → lt a b = false
  grand : 0 < i → ∀ c a b, c < n → (c - 1) / 2 = i → h[c]? = some a →
    h[(i - 1) / 2]? = some b → lt a b = false

/-- A turn of `down` that swaps the element at `i` with its least child `j`,
which is less than it. -/
theorem DownOrder.move (hw : WeakOrder lt) {n : ℕ} (o : DownOrder lt n h i) {j : ℕ}
    (hpj : (j - 1) / 2 = i) (hj0 : 0 < j) (hjn : j < n) {a b : α} (ha : h[j]? = some a)
    (hb : h[i]? = some b) (hab : lt a b = true)
    (hmin : ∀ c x, c < n → (c - 1) / 2 = i → 0 < c → h[c]? = some x → lt x a = false) :
    DownOrder lt n (swap h i j) j := by
  have hjl : j < h.length := (List.getElem?_eq_some_iff.1 ha).1
  have hij : i < j := by omega
  have hs := getElem?_swap (h := h) (i := i) (j := j) (by omega) hjl
  constructor
  · intro k x y hk hkn hpk hx hy
    by_cases hkj : k = j
    · -- the element moved down, against the child moved up
      subst hkj
      rw [hs, if_pos rfl, hb] at hx
      rw [hpj, hs, if_neg (by omega), if_pos rfl, ha] at hy
      cases hx
      cases hy
      exact hw.asymm a b hab
    · by_cases hki : k = i
      · -- the child moved up, against the parent of `i`
        subst hki
        rw [hs, if_neg (by omega), if_pos rfl, ha] at hx
        rw [hs, if_neg (by omega), if_neg (by omega)] at hy
        cases hx
        exact o.grand hk j a y hjn hpj ha hy
      · rw [hs, if_neg hkj, if_neg hki] at hx
        by_cases hpi : (k - 1) / 2 = i
        · rw [hpi, hs, if_neg (by omega), if_pos rfl, ha] at hy
          cases hy
          exact hmin k x hkn hpi hk hx
        · rw [hs, if_neg hpk, if_neg hpi] at hy
          exact o.except k x y hk hkn hpi hx hy
  · intro _ c x y hcn hpc hx hy
    rw [hpj, hs, if_neg (by omega), if_pos rfl, ha] at hy
    rw [hs, if_neg (by omega), if_neg (by omega)] at hx
    cases hy
    rw [← hpc] at ha
    exact o.except c x a (by omega) hcn (by omega) hx ha

/-- The turn of `down` that stops: no child of `i` among the first `n` is less
than it. -/
theorem DownOrder.finish {n : ℕ} (o : DownOrder lt n h i)
    (hstop : ∀ c a b, c < n → (c - 1) / 2 = i → 0 < c → h[c]? = some a → h[i]? = some b →
      lt a b = false) :
    IsHeapOn lt n h := by
  intro k a b hk hkn ha hb
  by_cases hpk : (k - 1) / 2 = i
  · rw [hpk] at hb
    exact hstop k a b hkn hpk hk ha hb
  · exact o.except k a b hk hkn hpk ha hb

/-- `down` over the first `n` elements, with enough fuel, ends in a heap on
them. -/
theorem downLoop_isHeapOn (hw : WeakOrder lt) (n : ℕ) :
    ∀ (fuel : ℕ) (h : List α) (i : ℕ), n ≤ fuel + i → n ≤ h.length → DownOrder lt n h i →
      IsHeapOn lt n (downLoop lt n fuel h i)
  | 0, h, i, hfi, _, o => o.finish fun c _ _ hcn hpc _ _ _ => by omega
  | fuel + 1, h, i, hfi, hn, o => by
    rw [downLoop_succ]
    obtain ⟨hpj, hj1, hjn⟩ := minChild_spec lt n h i
    split_ifs with hleaf hstop
    · exact o.finish fun c _ _ hcn hpc _ _ _ => by omega
    · -- the least child is not less than `i`, and no child is less than it
      have hjl : minChild lt n h i < h.length := by
        have := hjn (by omega)
        omega
      obtain ⟨a, ha⟩ : ∃ a, h[minChild lt n h i]? = some a := ⟨_, List.getElem?_eq_getElem hjl⟩
      have hl : less lt h (minChild lt n h i) i = false := by simpa using hstop
      refine o.finish fun c x b hcn hpc hc0 hx hb => ?_
      exact hw.not_trans x a b (minChild_min hw hcn hpc hc0 hx ha) (less_eq_false hl ha hb)
    · have hl : less lt h (minChild lt n h i) i = true := by simpa using hstop
      obtain ⟨a, b, ha, hb, hab⟩ := less_eq_true hl
      refine downLoop_isHeapOn hw n fuel _ _ (by omega) (by rw [length_swap]; exact hn) ?_
      exact o.move hw hpj (by omega) (hjn (by omega)) ha hb hab
        fun c x hcn hpc hc0 hx => minChild_min hw hcn hpc hc0 hx ha

theorem downLoop_perm (n : ℕ) :
    ∀ (fuel : ℕ) (h : List α) (i : ℕ), (downLoop lt n fuel h i).Perm h
  | 0, _, _ => List.Perm.refl _
  | fuel + 1, h, i => by
    rw [downLoop_succ]
    split_ifs
    · exact List.Perm.refl h
    · exact List.Perm.refl h
    · exact (downLoop_perm n fuel _ _).trans (swap_perm h i _)

/-- `down` over the first `n` elements leaves the others where they are. -/
theorem getElem?_downLoop_of_le (n : ℕ) {k : ℕ} (hk : n ≤ k) :
    ∀ (fuel : ℕ) (h : List α) (i : ℕ), (downLoop lt n fuel h i)[k]? = h[k]?
  | 0, _, _ => rfl
  | fuel + 1, h, i => by
    rw [downLoop_succ]
    obtain ⟨_, hj1, hjn⟩ := minChild_spec lt n h i
    split_ifs with hleaf
    · rfl
    · rfl
    · have := hjn (by omega)
      rw [getElem?_downLoop_of_le n hk fuel, getElem?_swap_of_ne (by omega) (by omega)]

/-- After the root is swapped with the last element, `down` starts from a heap
on the others with only the root out of place. -/
theorem downOrder_swap_root (hh : IsHeap lt (r :: t)) :
    DownOrder lt t.length (swap (r :: t) 0 t.length) 0 := by
  have hs := getElem?_swap (h := r :: t) (i := 0) (j := t.length) (by simp) (by simp)
  constructor
  · intro k a b hk hkn hpk ha hb
    rw [hs, if_neg (by omega), if_neg (by omega)] at ha
    rw [hs, if_neg (by omega), if_neg hpk] at hb
    exact hh k a b hk (by simp; omega) ha hb
  · intro h0
    exact absurd h0 (Nat.lt_irrefl 0)

/-- Whatever `Less` is, `Pop` returns an element and the others. -/
theorem pop_perm {x : α} {h' : List α} (hp : pop lt h = some (x, h')) : (x :: h').Perm h := by
  cases h with
  | nil => cases hp
  | cons r t =>
    have hd : (downLoop lt t.length t.length (swap (r :: t) 0 t.length) 0).Perm _ :=
      downLoop_perm t.length t.length _ 0
    simp only [pop, List.length_cons, Nat.add_sub_cancel] at hp
    generalize downLoop lt t.length t.length (swap (r :: t) 0 t.length) 0 = d at hd hp
    obtain ⟨y, hy, hxy⟩ := Option.map_eq_some_iff.1 hp
    cases hxy
    have hcat : d.dropLast ++ [x] = d := List.dropLast_append_getLast? x hy
    rw [← hcat] at hd
    exact (List.perm_append_singleton x _).symm.trans (hd.trans (swap_perm _ _ _))

/-- `Pop` of a heap returns a least element, and the rest is a heap. -/
theorem pop_isHeap (hw : WeakOrder lt) (hh : IsHeap lt h) {x : α} {h' : List α}
    (hp : pop lt h = some (x, h')) :
    (∀ y ∈ h, lt y x = false) ∧ IsHeap lt h' ∧ (x :: h').Perm h := by
  have hperm := pop_perm hp
  cases h with
  | nil => cases hp
  | cons r t =>
    -- the root, swapped with the last element, which `down` leaves alone
    have hs := getElem?_swap (h := r :: t) (i := 0) (j := t.length) (by simp) (by simp)
    have hd : (downLoop lt t.length t.length (swap (r :: t) 0 t.length) 0).Perm _ :=
      downLoop_perm t.length t.length _ 0
    generalize hd_def : downLoop lt t.length t.length (swap (r :: t) 0 t.length) 0 = d at hd
    have hlen : d.length = t.length + 1 := by rw [hd.length_eq, length_swap, List.length_cons]
    have hlast : d[t.length]? = some r := by
      rw [← hd_def, getElem?_downLoop_of_le _ (Nat.le_refl _), hs, if_pos rfl]
      rfl
    have hget : d.getLast? = some r := by
      rw [List.getLast?_eq_getElem?, hlen, Nat.add_sub_cancel]
      exact hlast
    simp only [pop, List.length_cons, Nat.add_sub_cancel, hd_def, hget, Option.map_some,
      Option.some.injEq, Prod.mk.injEq] at hp
    obtain ⟨hx, hh'⟩ := hp
    subst hx
    subst hh'
    have hon : IsHeapOn lt t.length d := by
      rw [← hd_def]
      exact downLoop_isHeapOn hw _ _ _ _ (by omega) (by rw [length_swap]; simp)
        (downOrder_swap_root hh)
    refine ⟨?_, ?_, ?_⟩
    · intro y hy
      obtain ⟨k, hk, hky⟩ := List.getElem_of_mem hy
      exact IsHeapOn.root_min hw hh rfl k y hk (by rw [List.getElem?_eq_getElem hk, hky])
    · intro k a b hk hkn ha hb
      rw [List.length_dropLast, hlen, Nat.add_sub_cancel] at hkn
      rw [List.getElem?_dropLast, hlen, Nat.add_sub_cancel, if_pos hkn] at ha
      rw [List.getElem?_dropLast, hlen, Nat.add_sub_cancel, if_pos (by omega)] at hb
      exact hon k a b hk hkn ha hb
    · exact hperm

end Down

end Order

end Heap
