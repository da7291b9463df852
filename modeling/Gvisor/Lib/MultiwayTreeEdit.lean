import Mathlib
import Gvisor.Lib.MultiwayTree
import Gvisor.Lib.List

/-! Edits of a multiway tree at one node that keep its sequence, and where a position moves
under them. A position is a gap of a leaf, reached along a path, and `upTo` is the sequence
before it. Splitting a node at entry `m` leaves the entries and children before it in one half
(`take m` and `take (m + 1)`) and those after it in the other (`drop (m + 1)`); a position under
child or at index `k` stays in the first half where `k ≤ m` and moves into the second, at
`k - (m + 1)`, where `k > m`. The entry goes up into the parent between the two halves. The
lemmas about the parent are stated on a window of its lists, `cs₁ ++ c :: cs₂` with the child
at `cs₁.length`, which is how the code moves its arrays. -/

namespace MultiwayTree

universe u

variable {α : Type u}

namespace Node

/-! ## The sequence before a position -/

/-- The sequence before position `i` of the node at path `p`. -/
def upTo (n : Node α) (p : List ℕ) (i : ℕ) : List α := n.before p ++ (n.subtree p).slot i

@[simp] theorem upTo_nil (n : Node α) (i : ℕ) : n.upTo [] i = n.slot i := by
  rw [upTo, before_nil, subtree_of_get? (get?_nil n), List.nil_append]

theorem upTo_cons {es : List α} {cs : List (Node α)} {j : ℕ} (hj : j < cs.length) (p : List ℕ)
    (i : ℕ) : (mk es cs).upTo (j :: p) i = interleave (es.take j) (cs.take j) ++ cs[j].upTo p i := by
  rw [upTo, upTo, before_cons hj, subtree_cons hj, List.append_assoc]

/-- In front of a gap of a leaf come the sequence before the gap, then the rest of the leaf and
what follows it. -/
theorem flatten_eq_upTo {n l : Node α} {p : List ℕ} (hl : n.get? p = some l)
    (hleaf : l.children = []) (i : ℕ) :
    n.flatten = n.upTo p i ++ (l.entries.drop i ++ n.after p) := by
  rw [flatten_eq_of_get? hl, flatten_leaf l hleaf, upTo, subtree_of_get? hl, slot_leaf hleaf]
  simp only [List.append_assoc]
  rw [← List.append_assoc (l.entries.take i), List.take_append_drop]

/-- Inserting `x` at a gap of a leaf puts it right after the sequence before the gap. -/
theorem flatten_insert_leaf {n l : Node α} {p : List ℕ} (hl : n.get? p = some l)
    (hleaf : l.children = []) (i : ℕ) (x : α) :
    (n.modify (fun c => mk (c.entries.take i ++ x :: c.entries.drop i) c.children) p).flatten =
      n.upTo p i ++ x :: (l.entries.drop i ++ n.after p) := by
  rw [flatten_modify _ hl, flatten_mk, hleaf, interleave_nil, upTo, subtree_of_get? hl,
    slot_leaf hleaf]
  simp

/-- Taking entry `i` out of a leaf takes it out right after the sequence before it. -/
theorem flatten_erase_leaf {n l : Node α} {p : List ℕ} (hl : n.get? p = some l)
    (hleaf : l.children = []) (i : ℕ) :
    (n.modify (fun c => mk (c.entries.take i ++ c.entries.drop (i + 1)) c.children) p).flatten =
      n.upTo p i ++ (l.entries.drop (i + 1) ++ n.after p) := by
  rw [flatten_modify _ hl, flatten_mk, hleaf, interleave_nil, upTo, subtree_of_get? hl,
    slot_leaf hleaf]
  simp

/-! ## Splitting a node -/

section Split

variable {es : List α} {cs : List (Node α)} {m k : ℕ}

/-- Under child `k ≤ m`, the first half of a split at `m` holds what the node held. -/
theorem get?_take_succ (hk : k ≤ m) (q : List ℕ) :
    (mk (es.take m) (cs.take (m + 1))).get? (k :: q) = (mk es cs).get? (k :: q) := by
  rw [get?_cons, get?_cons, children_mk, children_mk, List.getElem?_take_of_lt (by omega)]

theorem upTo_take_succ (hk : k ≤ m) (q : List ℕ) (i : ℕ) :
    (mk (es.take m) (cs.take (m + 1))).upTo (k :: q) i = (mk es cs).upTo (k :: q) i := by
  have hchild : (cs.take (m + 1)).getD k default = cs.getD k default := by
    rw [List.getD_eq_getElem?_getD, List.getD_eq_getElem?_getD,
      List.getElem?_take_of_lt (by omega)]
  rw [upTo, upTo, subtree, subtree, get?_take_succ hk, before, before, List.take_take,
    List.take_take, Nat.min_eq_left hk, Nat.min_eq_left (by omega), hchild]

/-- Under child `k > m`, the second half holds what the node held, at `k - (m + 1)`. -/
theorem get?_drop_succ (hk : m < k) (q : List ℕ) :
    (mk (es.drop (m + 1)) (cs.drop (m + 1))).get? ((k - (m + 1)) :: q) =
      (mk es cs).get? (k :: q) := by
  rw [get?_cons, get?_cons, children_mk, children_mk, List.getElem?_drop,
    Nat.add_sub_cancel' (by omega)]

/-- Under child `k > m`, the sequence before a position is the first half, entry `m`, and the
sequence before the position in the second half. -/
theorem upTo_drop_succ (hc : cs.length = es.length + 1) (hm : m < es.length) (hk : m < k)
    (q : List ℕ) (i : ℕ) :
    (mk es cs).upTo (k :: q) i = (mk (es.take m) (cs.take (m + 1))).flatten ++
      es[m] :: (mk (es.drop (m + 1)) (cs.drop (m + 1))).upTo ((k - (m + 1)) :: q) i := by
  have hk' : k = m + 1 + (k - (m + 1)) := by omega
  have hlen : (cs.take (m + 1)).length = m + 1 := by simp; omega
  have hes : (es.take k).take (m + 1) = es.take m ++ [es[m]] := by
    rw [List.take_take, Nat.min_eq_left (by omega), List.take_succ_eq_append_getElem hm]
  have hchild : (cs.drop (m + 1)).getD (k - (m + 1)) default = cs.getD k default := by
    rw [List.getD_eq_getElem?_getD, List.getD_eq_getElem?_getD, List.getElem?_drop, ← hk']
  have htake : cs.take k = cs.take (m + 1) ++ (cs.drop (m + 1)).take (k - (m + 1)) := by
    rw [← List.take_add, ← hk']
  rw [upTo, upTo, subtree, subtree, ← get?_drop_succ hk, before, before, hchild, htake,
    interleave_append, hlen, hes, interleave_append_entries (by simp; omega), List.drop_take]
  simp

/-- A gap at index `i ≤ m` of a leaf stays in the first half. -/
theorem upTo_nil_take_succ (hc : cs = []) {i : ℕ} (hi : i ≤ m) :
    (mk (es.take m) (cs.take (m + 1))).upTo [] i = (mk es cs).upTo [] i := by
  subst hc
  rw [upTo_nil, upTo_nil, slot_leaf rfl, slot_leaf rfl, entries_mk, entries_mk, List.take_take,
    Nat.min_eq_left hi]

/-- A gap at index `i > m` of a leaf moves into the second half, at `i - (m + 1)`. -/
theorem upTo_nil_drop_succ (hc : cs = []) (hm : m < es.length) {i : ℕ} (hi : m < i) :
    (mk es cs).upTo [] i = (mk (es.take m) (cs.take (m + 1))).flatten ++
      es[m] :: (mk (es.drop (m + 1)) (cs.drop (m + 1))).upTo [] (i - (m + 1)) := by
  subst hc
  have htake : es.take i = es.take (m + 1) ++ (es.drop (m + 1)).take (i - (m + 1)) := by
    rw [← List.take_add, Nat.add_sub_cancel' (by omega)]
  rw [upTo_nil, upTo_nil, slot_leaf rfl, slot_leaf rfl, List.take_nil, List.drop_nil,
    flatten_leaf _ rfl, entries_mk, entries_mk, entries_mk, htake,
    List.take_succ_eq_append_getElem hm, List.append_assoc, List.singleton_append]

variable {lo hi h : ℕ}

/-- The first half of a node of a B-tree split at an entry has the node's height. -/
theorem Shape.take_succ (hs : (mk es cs).Shape lo hi h) (hm : m < es.length) :
    (mk (es.take m) (cs.take (m + 1))).Shape lo hi h := by
  cases h with
  | zero =>
    rw [shape_zero, children_mk, show cs = [] from hs.1, entries_mk, List.length_take]
    exact ⟨List.take_nil, le_trans (Nat.min_le_right _ _) hs.2⟩
  | succ h =>
    obtain ⟨hc, hle, hcs⟩ := hs
    simp only [children_mk, entries_mk] at hc hle hcs
    refine ⟨by simp; omega, by simp; omega, fun c hc' => hcs c (List.mem_of_mem_take hc')⟩

/-- So does the second half. -/
theorem Shape.drop_succ (hs : (mk es cs).Shape lo hi h) (hm : m < es.length) :
    (mk (es.drop (m + 1)) (cs.drop (m + 1))).Shape lo hi h := by
  cases h with
  | zero =>
    rw [shape_zero, children_mk, show cs = [] from hs.1, entries_mk, List.length_drop]
    exact ⟨List.drop_nil, le_trans (Nat.sub_le _ _) hs.2⟩
  | succ h =>
    obtain ⟨hc, hle, hcs⟩ := hs
    simp only [children_mk, entries_mk] at hc hle hcs
    refine ⟨by simp; omega, by simp; omega, fun c hc' => hcs c (List.mem_of_mem_drop hc')⟩

end Split

/-! ## Windows of a node -/

section Window

variable {es₁ es₂ : List α} {cs₁ cs₂ : List (Node α)} {c : Node α} {j : ℕ}

theorem getD_window (h₂ : cs₁.length = j) : (cs₁ ++ c :: cs₂).getD j default = c := by
  subst h₂
  simp

theorem getD_children_of_get? {n m : Node α} (h : n.get? [j] = some m) :
    n.children.getD j default = m := by
  obtain ⟨hj, hm⟩ := get?_cons_eq_some.1 h
  rw [List.getD_eq_getElem _ _ hj]
  cases hm
  rfl

theorem get?_window (h₂ : cs₁.length = j) (es : List α) (q : List ℕ) :
    (mk es (cs₁ ++ c :: cs₂)).get? (j :: q) = c.get? q := by
  subst h₂
  rw [get?_cons, children_mk, List.getElem?_append_right (le_refl _), Nat.sub_self]
  rfl

theorem upTo_window (h₁ : es₁.length = j) (h₂ : cs₁.length = j) (q : List ℕ) (i : ℕ) :
    (mk (es₁ ++ es₂) (cs₁ ++ c :: cs₂)).upTo (j :: q) i = interleave es₁ cs₁ ++ c.upTo q i := by
  subst h₂
  rw [upTo_cons (by simp), List.take_left, List.take_left' h₁]
  simp

/-! A child replaced by two, `l` and `r`, around a new entry `x`, as a split leaves them. -/

theorem getD_window_succ (h₂ : cs₁.length = j) {l r : Node α} :
    (cs₁ ++ l :: r :: cs₂).getD (j + 1) default = r := by
  rw [show cs₁ ++ l :: r :: cs₂ = (cs₁ ++ [l]) ++ r :: cs₂ by simp]
  exact getD_window (by simp [h₂])

theorem get?_window_succ (h₂ : cs₁.length = j) {l r : Node α} (es : List α) (q : List ℕ) :
    (mk es (cs₁ ++ l :: r :: cs₂)).get? ((j + 1) :: q) = r.get? q := by
  rw [show cs₁ ++ l :: r :: cs₂ = (cs₁ ++ [l]) ++ r :: cs₂ by simp]
  exact get?_window (by simp [h₂]) es q

theorem upTo_window_succ (h₁ : es₁.length = j) (h₂ : cs₁.length = j) {l r : Node α} {x : α}
    (q : List ℕ) (i : ℕ) :
    (mk (es₁ ++ x :: es₂) (cs₁ ++ l :: r :: cs₂)).upTo ((j + 1) :: q) i =
      interleave es₁ cs₁ ++ (l.flatten ++ x :: r.upTo q i) := by
  rw [show es₁ ++ x :: es₂ = (es₁ ++ [x]) ++ es₂ by simp,
    show cs₁ ++ l :: r :: cs₂ = (cs₁ ++ [l]) ++ r :: cs₂ by simp,
    upTo_window (by simp [h₁]) (by simp [h₂]),
    interleave_child (h₁.trans h₂.symm) [x] l []]
  simp

/-- The two with the entry in place of the child keep the node's sequence where they hold the
child's. -/
theorem flatten_window_split (h₁ : es₁.length = cs₁.length) {l r : Node α} {x : α}
    (hc : c.flatten = l.flatten ++ x :: r.flatten) :
    (mk (es₁ ++ x :: es₂) (cs₁ ++ l :: r :: cs₂)).flatten =
      (mk (es₁ ++ es₂) (cs₁ ++ c :: cs₂)).flatten := by
  rw [flatten_mk, flatten_mk, interleave_pair h₁, interleave_child h₁, hc]
  simp

/-- Two children replaced by two others, and the entry between them by another, with the same
sequence between them: the node's sequence is kept. -/
theorem flatten_window_pair (h₁ : es₁.length = cs₁.length) {a b a' b' : Node α} {x x' : α}
    (hab : a'.flatten ++ x' :: b'.flatten = a.flatten ++ x :: b.flatten) :
    (mk (es₁ ++ x' :: es₂) (cs₁ ++ a' :: b' :: cs₂)).flatten =
      (mk (es₁ ++ x :: es₂) (cs₁ ++ a :: b :: cs₂)).flatten := by
  rw [flatten_mk, flatten_mk, interleave_pair h₁, interleave_pair h₁, hab]

/-- A node with one child more than entries, seen at its entry `i` and the two children around
it. -/
theorem exists_window_pair {es : List α} {cs : List (Node α)} (hc : cs.length = es.length + 1)
    {i : ℕ} (hi : i < es.length) :
    ∃ es₁ x es₂ cs₁ a b cs₂, es₁.length = i ∧ cs₁.length = i ∧ es = es₁ ++ x :: es₂ ∧
      cs = cs₁ ++ a :: b :: cs₂ := by
  have hi' : i + 1 < cs.length := by omega
  refine ⟨es.take i, es[i], es.drop (i + 1), cs.take i, cs[i], cs[i + 1], cs.drop (i + 2),
    by simp; omega, by simp; omega, ?_, ?_⟩
  · rw [← List.drop_eq_getElem_cons hi, List.take_append_drop]
  · rw [← List.drop_eq_getElem_cons hi', ← List.drop_eq_getElem_cons (by omega),
      List.take_append_drop]

variable {lo hi h : ℕ}

/-- A child of a node with room for one more entry replaced by two around a new entry, both of
the child's height, keeps the shape. -/
theorem Shape.window_split (hs : (mk (es₁ ++ es₂) (cs₁ ++ c :: cs₂)).Shape lo hi (h + 1))
    (hroom : (es₁ ++ es₂).length < hi) {l r : Node α} (x : α)
    (hl : lo ≤ l.entries.length ∧ l.Shape lo hi h) (hr : lo ≤ r.entries.length ∧ r.Shape lo hi h) :
    (mk (es₁ ++ x :: es₂) (cs₁ ++ l :: r :: cs₂)).Shape lo hi (h + 1) := by
  rw [shape_succ] at hs ⊢
  obtain ⟨hlen, -, hcs⟩ := hs
  simp only [children_mk, entries_mk, List.length_append, List.length_cons] at hlen hroom ⊢
  refine ⟨by omega, by omega, fun d hd => ?_⟩
  rcases List.mem_append.1 hd with hd | hd
  · exact hcs d (List.mem_append_left _ hd)
  · rcases List.mem_cons.1 hd with rfl | hd
    · exact hl
    · rcases List.mem_cons.1 hd with rfl | hd
      · exact hr
      · exact hcs d (List.mem_append_right _ (List.mem_cons_of_mem _ hd))

/-- Two children in a window, each with at least `lo` entries and of the height of the rest, make
a B-tree node. -/
theorem Shape.window_pair (h₁ : es₁.length = j) (h₂ : cs₁.length = j)
    (hc₂ : cs₂.length = es₂.length) (hle : j + 1 + es₂.length ≤ hi)
    (hcs : ∀ d ∈ cs₁ ++ cs₂, lo ≤ d.entries.length ∧ Shape lo hi h d) {a b : Node α}
    (ha : lo ≤ a.entries.length ∧ a.Shape lo hi h) (hb : lo ≤ b.entries.length ∧ b.Shape lo hi h)
    (x : α) : (mk (es₁ ++ x :: es₂) (cs₁ ++ a :: b :: cs₂)).Shape lo hi (h + 1) := by
  refine ⟨by simp; omega, by simp; omega, fun d hd => ?_⟩
  simp only [children_mk, List.mem_append, List.mem_cons] at hd
  rcases hd with hd | rfl | rfl | hd
  · exact hcs d (List.mem_append_left _ hd)
  · exact ha
  · exact hb
  · exact hcs d (List.mem_append_right _ hd)

/-- So does one child in place of the two and the entry between them. -/
theorem Shape.window_one (h₁ : es₁.length = j) (h₂ : cs₁.length = j)
    (hc₂ : cs₂.length = es₂.length) (hle : j + es₂.length ≤ hi)
    (hcs : ∀ d ∈ cs₁ ++ cs₂, lo ≤ d.entries.length ∧ Shape lo hi h d)
    (hc : lo ≤ c.entries.length ∧ c.Shape lo hi h) :
    (mk (es₁ ++ es₂) (cs₁ ++ c :: cs₂)).Shape lo hi (h + 1) := by
  refine ⟨by simp; omega, by simp; omega, fun d hd => ?_⟩
  simp only [children_mk, List.mem_append, List.mem_cons] at hd
  rcases hd with hd | rfl | hd
  · exact hcs d (List.mem_append_left _ hd)
  · exact hc
  · exact hcs d (List.mem_append_right _ hd)

end Window

/-! ## Replacing a child -/

section Set

variable {es : List α} {cs : List (Node α)} {c : Node α} {j : ℕ}

theorem get?_set (hj : j < cs.length) (q : List ℕ) :
    (mk es (cs.set j c)).get? (j :: q) = c.get? q := by
  rw [get?_cons, children_mk, List.getElem?_set_self (by simpa using hj)]
  rfl

theorem upTo_set (hj : j < cs.length) (q : List ℕ) (i : ℕ) :
    (mk es (cs.set j c)).upTo (j :: q) i = interleave (es.take j) (cs.take j) ++ c.upTo q i := by
  rw [upTo_cons (by simpa using hj), List.getElem_set_self, List.take_set_of_le (le_refl _)]

/-- Replacing a child by one with the same sequence keeps the node's. -/
theorem flatten_set (hj : j < cs.length) (hc : c.flatten = cs[j].flatten) :
    (mk es (cs.set j c)).flatten = (mk es cs).flatten := by
  rw [flatten_eq_child (by simpa using hj), flatten_eq_child hj, List.getElem_set_self, hc,
    List.take_set_of_le (le_refl _), List.drop_set_of_lt (Nat.lt_succ_self j)]

theorem Shape.set {lo hi h : ℕ} (hs : (mk es cs).Shape lo hi (h + 1))
    (hlo : lo ≤ c.entries.length) (hc : c.Shape lo hi h) : (mk es (cs.set j c)).Shape lo hi (h + 1) := by
  rw [shape_succ] at hs ⊢
  obtain ⟨hlen, hle, hcs⟩ := hs
  exact ⟨by simpa using hlen, hle, List.forall_mem_set hcs ⟨hlo, hc⟩⟩

end Set

/-! ## Through a replaced node -/

section Path

variable {n m : Node α} {p : List ℕ}

/-- A replacement reads only the node it replaces. -/
theorem modify_eq_const (f : Node α → Node α) (hp : n.get? p = some m) :
    n.modify f p = n.modify (fun _ => f m) p := by
  induction p generalizing n with
  | nil =>
    cases hp
    simp
  | cons i p ih =>
    obtain ⟨es, cs⟩ := n
    obtain ⟨hi, hm⟩ : ∃ hi : i < cs.length, cs[i].get? p = some m := get?_cons_eq_some.1 hp
    simp only [modify]
    rw [List.modify_eq_set, List.modify_eq_set, List.getElem?_eq_getElem hi, Option.getD_some,
      ih hm]

theorem get?_modify_append (f : Node α → Node α) (hp : n.get? p = some m) (q : List ℕ) :
    (n.modify f p).get? (p ++ q) = (f m).get? q := by
  rw [get?_append, get?_modify f hp, Option.bind_some]

theorem upTo_append (hp : n.get? p = some m) (q : List ℕ) (i : ℕ) :
    n.upTo (p ++ q) i = n.before p ++ m.upTo q i := by
  rw [upTo, upTo, before_append hp, subtree, subtree, get?_append, hp, Option.bind_some,
    List.append_assoc]

/-- A gap below a replaced node moves with the replacement alone. -/
theorem upTo_modify_append (f : Node α → Node α) (hp : n.get? p = some m) (q : List ℕ) (i : ℕ) :
    (n.modify f p).upTo (p ++ q) i = n.before p ++ (f m).upTo q i := by
  rw [upTo_append (get?_modify f hp), before_modify f hp]

end Path

/-! ## Rewriting entries in place

A rewrite in place changes a node's entries but neither their number nor the children, as the
code's setters write one slot of a node's arrays. Every path, every node's counts and the length
of the sequence before every position stay as they were. -/

section InPlace

/-- The length of a node's sequence: its entries and its children's sequences. -/
theorem length_interleave (es : List α) (cs : List (Node α)) :
    (interleave es cs).length = es.length + (cs.map fun c => c.flatten.length).sum := by
  induction cs generalizing es with
  | nil => simp
  | cons c cs ih =>
    rw [interleave_cons, List.length_append, List.length_append, ih, List.length_take,
      List.length_drop, List.map_cons, List.sum_cons]
    omega

theorem length_interleave_congr {es es' : List α} {cs cs' : List (Node α)}
    (hes : es.length = es'.length)
    (hcs : (cs.map fun c => c.flatten.length) = cs'.map fun c => c.flatten.length) :
    (interleave es cs).length = (interleave es' cs').length := by
  rw [length_interleave, length_interleave, hes, hcs]

theorem length_flatten (n : Node α) :
    n.flatten.length = n.entries.length + (n.children.map fun c => c.flatten.length).sum := by
  cases n
  rw [flatten_mk, length_interleave, entries_mk, children_mk]

/-- `g` rewrites a node's entries in place. -/
def InPlace (g : Node α → Node α) : Prop :=
  ∀ m, (g m).entries.length = m.entries.length ∧ (g m).children = m.children

variable {g : Node α → Node α}

theorem InPlace.entries_length_modify (hg : InPlace g) (n : Node α) :
    ∀ p, (n.modify g p).entries.length = n.entries.length
  | [] => by rw [modify_nil]; exact (hg n).1
  | _ :: _ => by rw [entries_modify_cons]

theorem InPlace.children_length_modify (hg : InPlace g) (n : Node α) :
    ∀ p, (n.modify g p).children.length = n.children.length
  | [] => by rw [modify_nil, (hg n).2]
  | _ :: _ => by rw [children_modify_cons, List.length_modify]

theorem InPlace.length_flatten_modify (hg : InPlace g) :
    ∀ (p : List ℕ) (n : Node α), (n.modify g p).flatten.length = n.flatten.length
  | [], n => by rw [modify_nil, length_flatten, length_flatten, (hg n).1, (hg n).2]
  | i :: p, n => by
    rw [length_flatten, length_flatten, entries_modify_cons, children_modify_cons,
      List.map_modify_of_comp _ (fun c => hg.length_flatten_modify p c)]

theorem InPlace.map_length_children_modify (hg : InPlace g) (n : Node α) :
    ∀ p, ((n.modify g p).children.map fun c => c.flatten.length) =
      n.children.map fun c => c.flatten.length
  | [] => by rw [modify_nil, (hg n).2]
  | i :: p => by
    rw [children_modify_cons, List.map_modify_of_comp _ (fun c => hg.length_flatten_modify p c)]

theorem InPlace.length_slot_modify (hg : InPlace g) (n : Node α) (p : List ℕ) (i : ℕ) :
    ((n.modify g p).slot i).length = (n.slot i).length := by
  apply length_interleave_congr
  · rw [List.length_take, List.length_take, hg.entries_length_modify]
  · rw [List.map_take, List.map_take, hg.map_length_children_modify]

/-- Every node below a rewrite in place has a counterpart with as many entries and children. -/
theorem InPlace.get?_modify (hg : InPlace g) : ∀ (q p : List ℕ) {n m : Node α},
    n.get? q = some m → ∃ m', (n.modify g p).get? q = some m' ∧
      m'.entries.length = m.entries.length ∧ m'.children.length = m.children.length
  | [], p, n, m, hm => by
    cases hm
    exact ⟨_, rfl, hg.entries_length_modify n p, hg.children_length_modify n p⟩
  | k :: q, [], n, m, hm => by
    refine ⟨m, ?_, rfl, rfl⟩
    rw [modify_nil, get?_cons, (hg n).2, ← get?_cons, hm]
  | k :: q, j :: p, n, m, hm => by
    obtain ⟨hk, hc⟩ := get?_cons_eq_some.1 hm
    rw [get?_cons, children_modify_cons]
    by_cases hjk : j = k
    · -- the path runs through the rewritten child
      subst hjk
      obtain ⟨m', hm', hes, hcs⟩ := hg.get?_modify q p hc
      refine ⟨m', ?_, hes, hcs⟩
      rw [List.getElem?_modify_eq, List.getElem?_eq_getElem hk]
      exact hm'
    · refine ⟨m, ?_, rfl, rfl⟩
      rw [List.getElem?_modify_ne _ _ hjk, ← get?_cons, hm]

/-- Before every position on a path, a rewrite in place leaves the length of the sequence. -/
theorem InPlace.length_upTo_modify (hg : InPlace g) : ∀ (q p : List ℕ) {n m : Node α} (i : ℕ),
    n.get? q = some m → ((n.modify g p).upTo q i).length = (n.upTo q i).length
  | [], p, n, _, i, _ => by rw [upTo_nil, upTo_nil, hg.length_slot_modify]
  | k :: q, [], mk es cs, m, i, hm => by
    obtain ⟨hk, -⟩ : ∃ hk : k < cs.length, _ := get?_cons_eq_some.1 hm
    have hgn : g (mk es cs) = mk (g (mk es cs)).entries cs := by
      conv_lhs => rw [← eta (g (mk es cs)), (hg (mk es cs)).2, children_mk]
    rw [modify_nil, hgn, upTo_cons hk, upTo_cons hk, List.length_append, List.length_append]
    congr 1
    apply length_interleave_congr
    · rw [List.length_take, List.length_take, (hg _).1, entries_mk]
    · rfl
  | k :: q, j :: p, mk es cs, m, i, hm => by
    obtain ⟨hk, hc⟩ : ∃ hk : k < cs.length, _ := get?_cons_eq_some.1 hm
    have hk' : k < (cs.modify j fun c => c.modify g p).length := by rwa [List.length_modify]
    rw [modify, upTo_cons hk', upTo_cons hk, List.length_append, List.length_append]
    congr 1
    · apply length_interleave_congr rfl
      rw [List.map_take, List.map_take,
        List.map_modify_of_comp _ (fun c => hg.length_flatten_modify p c)]
    · by_cases hjk : j = k
      · -- the position lies under the rewritten child
        subst hjk
        rw [List.getElem_modify_eq]
        exact hg.length_upTo_modify q p i hc
      · rw [List.getElem_modify_ne _ _ hjk]

/-- Rewriting entry `i` by `f` rewrites it in the node's sequence, right after what comes before
it. -/
theorem flatten_modify_entry {n : Node α}
    (hc : n.children = [] ∨ n.children.length = n.entries.length + 1) {i : ℕ}
    (hi : i < n.entries.length) (f : α → α) :
    (mk (n.entries.modify i f) n.children).flatten =
      n.slot i ++ f n.entries[i] :: (mk (n.entries.drop (i + 1)) (n.children.drop (i + 1))).flatten := by
  rw [flatten_eq_slot (n := mk (n.entries.modify i f) n.children) (by simpa using hc)
    (by simpa using hi)]
  simp [slot, List.take_modify, List.drop_modify_of_lt, List.modify_eq_self]

theorem inPlace_modify_entry (i : ℕ) (f : α → α) :
    InPlace fun n : Node α => mk (n.entries.modify i f) n.children :=
  fun m => ⟨by rw [entries_mk, List.length_modify], children_mk _ _⟩

theorem Shape.modify_entry {lo hi h : ℕ} {n : Node α} (hs : n.Shape lo hi h) (i : ℕ)
    (f : α → α) : (mk (n.entries.modify i f) n.children).Shape lo hi h := by
  cases h with
  | zero => exact ⟨hs.1, by simpa using hs.2⟩
  | succ h => exact ⟨by simpa using hs.1, by simpa using hs.2.1, hs.2.2⟩

end InPlace

/-! ## Merging two siblings -/

section Merge

/-- Two siblings around an entry are the halves of the node they merge into, split at that
entry. -/
theorem merge_take_drop {as : List α} (e : α) (bs : List α) {acs bcs : List (Node α)}
    (hac : acs.length = as.length + 1 ∨ acs = [] ∧ bcs = []) :
    (as ++ e :: bs).take as.length = as ∧ (acs ++ bcs).take (as.length + 1) = acs ∧
      (as ++ e :: bs).drop (as.length + 1) = bs ∧ (acs ++ bcs).drop (as.length + 1) = bcs := by
  refine ⟨List.take_left, ?_, by simp, ?_⟩
  · rcases hac with hac | ⟨rfl, rfl⟩
    · exact hac ▸ List.take_left
    · simp
  · rcases hac with hac | ⟨rfl, rfl⟩
    · exact hac ▸ List.drop_left
    · simp

variable {as bs : List α} {acs bcs : List (Node α)} {e : α}

theorem flatten_merge
    (hc : acs.length = as.length + 1 ∧ bcs.length = bs.length + 1 ∨ acs = [] ∧ bcs = []) :
    (mk (as ++ e :: bs) (acs ++ bcs)).flatten = (mk as acs).flatten ++ e :: (mk bs bcs).flatten := by
  obtain ⟨h₁, h₂, h₃, h₄⟩ := merge_take_drop e bs (hc.imp_left And.left)
  have hm : as.length < (as ++ e :: bs).length := by simp
  have hc' : acs ++ bcs = [] ∨ (acs ++ bcs).length = (as ++ e :: bs).length + 1 := by
    rcases hc with ⟨hac, hbc⟩ | ⟨rfl, rfl⟩
    · exact .inr (by simp; omega)
    · exact .inl rfl
  rw [flatten_split hm hc', h₁, h₂, h₃, h₄]
  simp

/-- A position under the first sibling keeps its place in the merged node. -/
theorem upTo_merge_left (hac : acs.length = as.length + 1 ∨ acs = [] ∧ bcs = []) {k : ℕ}
    (hk : k ≤ as.length) (q : List ℕ) (i : ℕ) :
    (mk (as ++ e :: bs) (acs ++ bcs)).upTo (k :: q) i = (mk as acs).upTo (k :: q) i := by
  obtain ⟨h₁, h₂, -, -⟩ := merge_take_drop e bs hac
  rw [← upTo_take_succ hk, h₁, h₂]

theorem get?_merge_left (hac : acs.length = as.length + 1 ∨ acs = [] ∧ bcs = []) {k : ℕ}
    (hk : k ≤ as.length) (q : List ℕ) :
    (mk (as ++ e :: bs) (acs ++ bcs)).get? (k :: q) = (mk as acs).get? (k :: q) := by
  obtain ⟨h₁, h₂, -, -⟩ := merge_take_drop e bs hac
  rw [← get?_take_succ hk, h₁, h₂]

/-- A position under the second sibling moves past the first and the entry between them. -/
theorem upTo_merge_right (hac : acs.length = as.length + 1) (hbc : bcs.length = bs.length + 1)
    (k : ℕ) (q : List ℕ) (i : ℕ) :
    (mk (as ++ e :: bs) (acs ++ bcs)).upTo ((k + (as.length + 1)) :: q) i =
      (mk as acs).flatten ++ e :: (mk bs bcs).upTo (k :: q) i := by
  obtain ⟨h₁, h₂, h₃, h₄⟩ := merge_take_drop e bs (.inl hac)
  rw [upTo_drop_succ (m := as.length) (by simp; omega) (by simp) (by omega), h₁, h₂, h₃, h₄,
    Nat.add_sub_cancel]
  simp

theorem get?_merge_right (hac : acs.length = as.length + 1 ∨ acs = [] ∧ bcs = []) (k : ℕ)
    (q : List ℕ) :
    (mk (as ++ e :: bs) (acs ++ bcs)).get? ((k + (as.length + 1)) :: q) =
      (mk bs bcs).get? (k :: q) := by
  obtain ⟨-, -, h₃, h₄⟩ := merge_take_drop e bs hac
  rw [← get?_drop_succ (m := as.length) (k := k + (as.length + 1)) (by omega), h₃, h₄,
    Nat.add_sub_cancel]

/-- A gap of the second of two leaves moves past the first and the entry between them. -/
theorem upTo_merge_leaf (i : ℕ) :
    (mk (as ++ e :: bs) []).upTo [] (i + (as.length + 1)) =
      (mk as []).flatten ++ e :: (mk bs []).upTo [] i := by
  rw [upTo_nil, upTo_nil, slot_leaf rfl, slot_leaf rfl, flatten_leaf _ rfl, entries_mk,
    entries_mk, entries_mk, Nat.add_comm, List.take_add]
  simp [List.take_append]

theorem upTo_merge_leaf_left {i : ℕ} (hi : i ≤ as.length) :
    (mk (as ++ e :: bs) []).upTo [] i = (mk as []).upTo [] i := by
  rw [upTo_nil, upTo_nil, slot_leaf rfl, slot_leaf rfl, entries_mk, entries_mk,
    List.take_append_of_le_length hi]

theorem Shape.merge {lo hi h : ℕ} (ha : (mk as acs).Shape lo hi h) (hb : (mk bs bcs).Shape lo hi h)
    (hle : as.length + 1 + bs.length ≤ hi) : (mk (as ++ e :: bs) (acs ++ bcs)).Shape lo hi h := by
  cases h with
  | zero =>
    obtain ⟨ha, -⟩ := ha
    obtain ⟨hb, -⟩ := hb
    exact ⟨by simp only [children_mk] at ha hb ⊢; rw [ha, hb]; rfl, by simp; omega⟩
  | succ h =>
    obtain ⟨hla, -, hca⟩ := ha
    obtain ⟨hlb, -, hcb⟩ := hb
    simp only [children_mk, entries_mk] at hla hlb hca hcb
    refine ⟨by simp; omega, by simp; omega, fun c hc => ?_⟩
    rcases List.mem_append.1 hc with hc | hc
    · exact hca c hc
    · exact hcb c hc

end Merge

/-! ## A B-tree with one node short of an entry -/

/-- The shape of a B-tree of height `h` in which the node at path `p`, below the top, may have one
entry fewer than `lo`: what a removal leaves while it rebalances. -/
def ShapeExcept (lo hi : ℕ) : ℕ → List ℕ → Node α → Prop
  | h, [], n => Shape lo hi h n
  | 0, _ :: _, _ => False
  | h + 1, j :: q, n => n.children.length = n.entries.length + 1 ∧ n.entries.length ≤ hi ∧
      (∀ c ∈ n.children.take j ++ n.children.drop (j + 1), lo ≤ c.entries.length ∧ Shape lo hi h c) ∧
      ∃ c, n.children[j]? = some c ∧ lo ≤ c.entries.length + (if q = [] then 1 else 0) ∧
        ShapeExcept lo hi h q c

section Except

variable {lo hi h : ℕ} {n : Node α}

theorem shapeExcept_nil : ShapeExcept lo hi h [] n ↔ Shape lo hi h n := by
  cases h <;> rfl

theorem shapeExcept_cons {j : ℕ} {q : List ℕ} : ShapeExcept lo hi (h + 1) (j :: q) n ↔
    n.children.length = n.entries.length + 1 ∧ n.entries.length ≤ hi ∧
      (∀ c ∈ n.children.take j ++ n.children.drop (j + 1), lo ≤ c.entries.length ∧ Shape lo hi h c) ∧
      ∃ c, n.children[j]? = some c ∧ lo ≤ c.entries.length + (if q = [] then 1 else 0) ∧
        ShapeExcept lo hi h q c := Iff.rfl

/-- A B-tree is one with any node allowed one entry fewer. -/
theorem Shape.shapeExcept (hs : Shape lo hi h n) {p : List ℕ} {m : Node α}
    (hp : n.get? p = some m) : ShapeExcept lo hi h p n := by
  induction p generalizing n h with
  | nil => exact shapeExcept_nil.2 hs
  | cons j q ih =>
    obtain ⟨hj, hm⟩ := get?_cons_eq_some.1 hp
    cases h with
    | zero =>
      rw [hs.1] at hj
      exact absurd hj (Nat.not_lt_zero _)
    | succ h =>
      obtain ⟨hlen, hle, hcs⟩ := hs
      refine ⟨hlen, hle, fun c hc => hcs c ?_, n.children[j], List.getElem?_eq_getElem hj,
        le_trans (hcs _ (List.getElem_mem hj)).1 (Nat.le_add_right _ _),
        ih (hcs _ (List.getElem_mem hj)).2 hm⟩
      rcases List.mem_append.1 hc with hc | hc
      · exact List.mem_of_mem_take hc
      · exact List.mem_of_mem_drop hc

/-- The node short of an entry: where it is, its shape, and the entry it may lack. -/
theorem ShapeExcept.get? {p : List ℕ} (he : ShapeExcept lo hi h p n) :
    ∃ m, n.get? p = some m ∧ p.length ≤ h ∧ Shape lo hi (h - p.length) m ∧
      (p ≠ [] → lo ≤ m.entries.length + 1) := by
  induction p generalizing n h with
  | nil => exact ⟨n, rfl, Nat.zero_le _, shapeExcept_nil.1 he, fun hp => absurd rfl hp⟩
  | cons j q ih =>
    cases h with
    | zero => exact he.elim
    | succ h =>
      obtain ⟨-, -, -, c, hc, hlo, hce⟩ := he
      obtain ⟨m, hm, hle, hsm, hlom⟩ := ih hce
      obtain ⟨hj, rfl⟩ := List.getElem?_eq_some_iff.1 hc
      refine ⟨m, get?_cons_eq_some.2 ⟨hj, hm⟩, by simpa using hle, by simpa using hsm, fun _ => ?_⟩
      rcases q with _ | ⟨k, q⟩
      · cases hm
        simpa using hlo
      · exact hlom (List.cons_ne_nil _ _)

/-- The node short of an entry has it after all: a B-tree. -/
theorem ShapeExcept.shape {p : List ℕ} (he : ShapeExcept lo hi h p n)
    (hlo : ∀ m, n.get? p = some m → p ≠ [] → lo ≤ m.entries.length) : Shape lo hi h n := by
  induction p generalizing n h with
  | nil => exact shapeExcept_nil.1 he
  | cons j q ih =>
    cases h with
    | zero => exact he.elim
    | succ h =>
      obtain ⟨hlen, hle, hcs, c, hc, hloc, hce⟩ := he
      obtain ⟨hj, rfl⟩ := List.getElem?_eq_some_iff.1 hc
      have hgood : lo ≤ n.children[j].entries.length ∧ Shape lo hi h n.children[j] := by
        refine ⟨?_, ih hce fun m hm hq => hlo m (get?_cons_eq_some.2 ⟨hj, hm⟩)
          (List.cons_ne_nil _ _)⟩
        rcases q with _ | ⟨k, q⟩
        · exact hlo _ (get?_cons_eq_some.2 ⟨hj, rfl⟩) (List.cons_ne_nil _ _)
        · simpa using hloc
      refine ⟨hlen, hle, fun d hd => ?_⟩
      rw [← List.take_append_drop j n.children, ← List.getElem_cons_drop hj] at hd
      rcases List.mem_append.1 hd with hd | hd
      · exact hcs d (List.mem_append_left _ hd)
      · rcases List.mem_cons.1 hd with rfl | hd
        · exact hgood
        · exact hcs d (List.mem_append_right _ hd)

/-- Above the node short of an entry, a node on its path is a B-tree node with that child short
of one. -/
theorem ShapeExcept.of_append {p q : List ℕ} (he : ShapeExcept lo hi h (p ++ q) n) {m : Node α}
    (hp : n.get? p = some m) (hq : q ≠ []) :
    ShapeExcept lo hi (h - p.length) q m ∧ p.length < h ∧ (p ≠ [] → lo ≤ m.entries.length) := by
  induction p generalizing n h with
  | nil =>
    cases hp
    obtain ⟨-, -, hle, -, -⟩ := he.get?
    refine ⟨he, lt_of_lt_of_le ?_ hle, fun h => absurd rfl h⟩
    exact List.length_pos_of_ne_nil hq
  | cons j p ih =>
    cases h with
    | zero => exact he.elim
    | succ h =>
      obtain ⟨-, -, -, c, hc, hloc, hce⟩ := he
      obtain ⟨hj, hm⟩ := get?_cons_eq_some.1 hp
      obtain ⟨hj', rfl⟩ := List.getElem?_eq_some_iff.1 hc
      obtain ⟨hqm, hlt, hlom⟩ := ih hce hm
      refine ⟨by simpa using hqm, by simpa using hlt, fun _ => ?_⟩
      rcases p with _ | ⟨k, p⟩
      · cases hm
        simpa [hq] using hloc
      · exact hlom (List.cons_ne_nil _ _)

/-- Replacing a node on the path above the one short of an entry by a node of its height that
is itself at most one entry short moves the shortfall up to it. -/
theorem ShapeExcept.modify {p q : List ℕ} (he : ShapeExcept lo hi h (p ++ q) n) {m m' : Node α}
    (hp : n.get? p = some m) (hs : Shape lo hi (h - p.length) m')
    (hlo : p ≠ [] → lo ≤ m'.entries.length + 1) :
    ShapeExcept lo hi h p (n.modify (fun _ => m') p) := by
  induction p generalizing n h with
  | nil =>
    cases hp
    exact shapeExcept_nil.2 (by simpa using hs)
  | cons j p ih =>
    cases h with
    | zero => exact he.elim
    | succ h =>
      obtain ⟨es, cs⟩ := n
      obtain ⟨hj, hm⟩ : ∃ hj : j < cs.length, cs[j].get? p = some m := get?_cons_eq_some.1 hp
      rw [List.cons_append, shapeExcept_cons] at he
      obtain ⟨hlen, hle, hcs, c, hc, hloc, hce⟩ := he
      simp only [children_mk, entries_mk] at hlen hle hcs hc
      rw [List.getElem?_eq_getElem hj, Option.some_inj] at hc
      subst hc
      have hother : (cs.modify j fun c => c.modify (fun _ => m') p).take j ++
          (cs.modify j fun c => c.modify (fun _ => m') p).drop (j + 1) =
            cs.take j ++ cs.drop (j + 1) := by
        rw [List.take_modify, List.modify_eq_self (by simp),
          List.drop_modify_of_lt _ _ _ _ (Nat.lt_succ_self j)]
      rw [modify, shapeExcept_cons]
      simp only [children_mk, entries_mk, List.length_modify]
      refine ⟨hlen, hle, by rw [hother]; exact hcs, cs[j].modify (fun _ => m') p,
        by rw [List.getElem?_modify_eq, List.getElem?_eq_getElem hj]; rfl, ?_,
        ih hce hm (by simpa using hs) fun _ => hlo (List.cons_ne_nil _ _)⟩
      rcases p with _ | ⟨k, p⟩
      · simpa using hlo (List.cons_ne_nil _ _)
      · rw [entries_modify_cons]
        simpa using hloc

/-- A node whose child `j + 1` may be short of an entry, seen at children `j` and `j + 1`. -/
theorem ShapeExcept.window_succ {es₁ es₂ : List α} {cs₁ cs₂ : List (Node α)} {j : ℕ}
    (h₁ : es₁.length = j) (h₂ : cs₁.length = j) {a b : Node α} {x : α}
    (he : ShapeExcept lo hi (h + 1) [j + 1] (mk (es₁ ++ x :: es₂) (cs₁ ++ a :: b :: cs₂))) :
    cs₂.length = es₂.length ∧ j + 1 + es₂.length ≤ hi ∧
      (∀ d ∈ cs₁ ++ cs₂, lo ≤ d.entries.length ∧ Shape lo hi h d) ∧
      (lo ≤ a.entries.length ∧ a.Shape lo hi h) ∧ lo ≤ b.entries.length + 1 ∧ b.Shape lo hi h := by
  rw [shapeExcept_cons] at he
  obtain ⟨hlen, hle, hcs, c, hc, hlo, hce⟩ := he
  subst h₂
  simp only [children_mk, entries_mk, List.length_append, List.length_cons] at hlen hle hcs hc
  have hc' : c = b := by simpa using hc.symm
  subst hc'
  have hrest : (cs₁ ++ a :: c :: cs₂).take (cs₁.length + 1) ++
      (cs₁ ++ a :: c :: cs₂).drop (cs₁.length + 1 + 1) = cs₁ ++ a :: cs₂ := by
    rw [Nat.add_assoc, List.take_length_add_append, List.drop_length_add_append]
    simp
  rw [hrest] at hcs
  refine ⟨by omega, by omega, fun d hd => hcs d ?_, hcs a (by simp), by simpa using hlo,
    shapeExcept_nil.1 hce⟩
  rcases List.mem_append.1 hd with hd | hd <;> simp [hd]

/-- A node whose child `j` may be short of an entry, seen at children `j` and `j + 1`. -/
theorem ShapeExcept.window {es₁ es₂ : List α} {cs₁ cs₂ : List (Node α)} {j : ℕ}
    (h₁ : es₁.length = j) (h₂ : cs₁.length = j) {a b : Node α} {x : α}
    (he : ShapeExcept lo hi (h + 1) [j] (mk (es₁ ++ x :: es₂) (cs₁ ++ a :: b :: cs₂))) :
    cs₂.length = es₂.length ∧ j + 1 + es₂.length ≤ hi ∧
      (∀ d ∈ cs₁ ++ cs₂, lo ≤ d.entries.length ∧ Shape lo hi h d) ∧
      (lo ≤ b.entries.length ∧ b.Shape lo hi h) ∧ lo ≤ a.entries.length + 1 ∧ a.Shape lo hi h := by
  rw [shapeExcept_cons] at he
  obtain ⟨hlen, hle, hcs, c, hc, hlo, hce⟩ := he
  subst h₂
  simp only [children_mk, entries_mk, List.length_append, List.length_cons] at hlen hle hcs hc
  have hc' : c = a := by simpa using hc.symm
  subst hc'
  have hrest : (cs₁ ++ c :: b :: cs₂).take cs₁.length ++
      (cs₁ ++ c :: b :: cs₂).drop (cs₁.length + 1) = cs₁ ++ b :: cs₂ := by
    simp [List.drop_append]
  rw [hrest] at hcs
  refine ⟨by omega, by omega, fun d hd => hcs d ?_, hcs b (by simp), by simpa using hlo,
    shapeExcept_nil.1 hce⟩
  rcases List.mem_append.1 hd with hd | hd <;> simp [hd]

end Except

end Node

end MultiwayTree
