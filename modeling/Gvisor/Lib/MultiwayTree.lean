import Mathlib
import Gvisor.Lib.List

/-! Multiway search trees by their in-order sequence. A node holds its entries in order and
its children: none in a leaf, one more than the entries in an inner node. Its sequence is the
children's sequences with the entries between them. A subtree is reached along a path of
child indices, and what comes before and after it in the sequence depends only on the nodes
around that path, so replacing the subtree changes the sequence in its place alone
(`flatten_modify`). Splitting a node at an entry, merging two siblings around the entry
between them, and rotating an entry through the parent all keep the sequence; they come
down to `interleave_child` and `interleave_pair`, which open a node's sequence at one child
or two. `Shape` is the B-tree invariant: every leaf at the same depth, bounded numbers of
entries. -/

namespace MultiwayTree

universe u

/-- A node: its entries, and its children. -/
inductive Node (α : Type u) where
  | mk (entries : List α) (children : List (Node α))
  deriving Repr

variable {α : Type u}

namespace Node

instance : Inhabited (Node α) := ⟨mk [] []⟩

def entries : Node α → List α
  | mk es _ => es

def children : Node α → List (Node α)
  | mk _ cs => cs

@[simp] theorem entries_mk (es : List α) (cs : List (Node α)) : (mk es cs).entries = es := rfl

@[simp] theorem children_mk (es : List α) (cs : List (Node α)) : (mk es cs).children = cs := rfl

theorem eta (n : Node α) : mk n.entries n.children = n := by
  cases n
  rfl

mutual
/-- The in-order sequence of a subtree. -/
def flatten : Node α → List α
  | mk es cs => interleave es cs

/-- The children's sequences with the entries between them; entries left over after the
last child come last. -/
def interleave : List α → List (Node α) → List α
  | es, [] => es
  | es, c :: cs => c.flatten ++ (es.take 1 ++ interleave (es.drop 1) cs)
end

@[simp] theorem flatten_mk (es : List α) (cs : List (Node α)) :
    (mk es cs).flatten = interleave es cs := by
  rw [flatten]

@[simp] theorem interleave_nil (es : List α) : interleave es [] = es := by
  rw [interleave]

theorem interleave_cons (es : List α) (c : Node α) (cs : List (Node α)) :
    interleave es (c :: cs) = c.flatten ++ (es.take 1 ++ interleave (es.drop 1) cs) := by
  rw [interleave]

@[simp] theorem interleave_cons_cons (e : α) (es : List α) (c : Node α) (cs : List (Node α)) :
    interleave (e :: es) (c :: cs) = c.flatten ++ e :: interleave es cs := by
  simp [interleave_cons]

@[simp] theorem interleave_nil_cons (c : Node α) (cs : List (Node α)) :
    interleave [] (c :: cs) = c.flatten ++ interleave [] cs := by
  simp [interleave_cons]

theorem flatten_leaf (n : Node α) (h : n.children = []) : n.flatten = n.entries := by
  rw [← n.eta, h, flatten_mk, interleave_nil]
  rfl

/-- The sequence of a node opened after its first children: what they hold with the entries
after each, then the rest. -/
theorem interleave_append (es : List α) (cs₁ cs₂ : List (Node α)) :
    interleave es (cs₁ ++ cs₂) =
      interleave (es.take cs₁.length) cs₁ ++ interleave (es.drop cs₁.length) cs₂ := by
  induction cs₁ generalizing es with
  | nil => simp
  | cons c cs₁ ih =>
    rw [List.cons_append, interleave_cons, ih, interleave_cons]
    simp only [List.length_cons, List.take_take, List.drop_drop, List.append_assoc]
    rw [List.take_drop, Nat.min_eq_left (by omega), Nat.add_comm]

/-- Entries after the last child come after it, where there is one child more than entries. -/
theorem interleave_append_entries {es : List α} {cs : List (Node α)}
    (h : es.length + 1 = cs.length) (es' : List α) :
    interleave (es ++ es') cs = interleave es cs ++ es' := by
  induction cs generalizing es with
  | nil => simp at h
  | cons c cs ih =>
    cases es with
    | nil =>
      cases cs with
      | nil => cases es' <;> simp [interleave_cons]
      | cons _ _ => simp at h
    | cons e es =>
      simp only [List.cons_append, interleave_cons_cons, ih (by simpa using h),
        List.append_assoc, List.cons_append]

/-- The sequence of a node opened at one child, the `cs₁.length`-th. -/
theorem interleave_child {es₁ : List α} {cs₁ : List (Node α)} (h : es₁.length = cs₁.length)
    (es₂ : List α) (c : Node α) (cs₂ : List (Node α)) :
    interleave (es₁ ++ es₂) (cs₁ ++ c :: cs₂) =
      interleave es₁ cs₁ ++ (c.flatten ++ (es₂.take 1 ++ interleave (es₂.drop 1) cs₂)) := by
  rw [interleave_append, ← h, List.take_left, List.drop_left, interleave_cons]

/-- The sequence of a node opened at two children and the entry between them. -/
theorem interleave_pair {es₁ : List α} {cs₁ : List (Node α)} (h : es₁.length = cs₁.length)
    (s : α) (es₂ : List α) (a b : Node α) (cs₂ : List (Node α)) :
    interleave (es₁ ++ s :: es₂) (cs₁ ++ a :: b :: cs₂) =
      interleave es₁ cs₁ ++ (a.flatten ++ s :: b.flatten) ++
        (es₂.take 1 ++ interleave (es₂.drop 1) cs₂) := by
  rw [interleave_child h, interleave_cons]
  simp

/-- Splitting a node at entry `m` into the node of what comes before it and the node of what
comes after it. -/
theorem flatten_split {es : List α} {cs : List (Node α)} {m : ℕ} (hm : m < es.length)
    (hc : cs = [] ∨ cs.length = es.length + 1) :
    (mk es cs).flatten =
      (mk (es.take m) (cs.take (m + 1))).flatten ++ es[m] ::
        (mk (es.drop (m + 1)) (cs.drop (m + 1))).flatten := by
  rcases hc with rfl | hc
  · simp
  · have hl : (cs.take (m + 1)).length = m + 1 := by simp; omega
    have hes : es.take (m + 1) = es.take m ++ [es[m]] := List.take_succ_eq_append_getElem hm
    rw [flatten_mk, ← List.take_append_drop (m + 1) cs, interleave_append, hl, hes,
      interleave_append_entries (by simp [hl]; omega)]
    simp

/-- A node's entries are in its sequence, in order. -/
theorem entries_sublist_flatten (n : Node α) : n.entries.Sublist n.flatten := by
  obtain ⟨es, cs⟩ := n
  rw [entries_mk, flatten_mk]
  induction cs generalizing es with
  | nil => simp
  | cons c cs ih =>
    rw [interleave_cons]
    conv_lhs => rw [← List.take_append_drop 1 es]
    exact ((List.Sublist.append_left (ih _) _).trans (List.sublist_append_right _ _))

/-! ## Paths -/

/-- The subtree at a path of child indices. -/
def get? : Node α → List ℕ → Option (Node α)
  | n, [] => some n
  | n, i :: p => n.children[i]?.bind fun c => get? c p

/-- The tree with the subtree at a path replaced by `f` of it. -/
def modify (f : Node α → Node α) : Node α → List ℕ → Node α
  | n, [] => f n
  | mk es cs, i :: p => mk es (cs.modify i fun c => modify f c p)

/-- What comes before the subtree at a path in the tree's sequence. -/
def before : Node α → List ℕ → List α
  | _, [] => []
  | mk es cs, i :: p => interleave (es.take i) (cs.take i) ++ before (cs.getD i default) p

/-- What comes after it. -/
def after : Node α → List ℕ → List α
  | _, [] => []
  | mk es cs, i :: p =>
    after (cs.getD i default) p ++ ((es.drop i).take 1 ++ interleave (es.drop (i + 1)) (cs.drop (i + 1)))

@[simp] theorem get?_nil (n : Node α) : n.get? [] = some n := rfl

@[simp] theorem modify_nil (f : Node α → Node α) (n : Node α) : n.modify f [] = f n := by
  cases n
  rfl

@[simp] theorem before_nil (n : Node α) : n.before [] = [] := by
  cases n
  rfl

@[simp] theorem after_nil (n : Node α) : n.after [] = [] := by
  cases n
  rfl

theorem get?_cons (n : Node α) (i : ℕ) (p : List ℕ) :
    n.get? (i :: p) = n.children[i]?.bind fun c => c.get? p := rfl

theorem get?_cons_eq_some {n m : Node α} {i : ℕ} {p : List ℕ} :
    n.get? (i :: p) = some m ↔ ∃ h : i < n.children.length, n.children[i].get? p = some m := by
  rw [get?_cons]
  constructor
  · intro h
    obtain ⟨c, hc, hm⟩ := Option.bind_eq_some_iff.1 h
    obtain ⟨hi, rfl⟩ := List.getElem?_eq_some_iff.1 hc
    exact ⟨hi, hm⟩
  · rintro ⟨hi, hm⟩
    rw [List.getElem?_eq_getElem hi]
    exact hm

theorem get?_append (n : Node α) (p q : List ℕ) :
    n.get? (p ++ q) = (n.get? p).bind fun m => m.get? q := by
  induction p generalizing n with
  | nil => rfl
  | cons i p ih =>
    simp only [List.cons_append, get?_cons, ih, Option.bind_assoc]

/-- The subtree one step below the subtree at `p`. -/
theorem get?_append_singleton {n m : Node α} {p : List ℕ} {j : ℕ} :
    n.get? (p ++ [j]) = some m ↔
      ∃ pm, n.get? p = some pm ∧ ∃ hj : j < pm.children.length, pm.children[j] = m := by
  rw [get?_append]
  constructor
  · intro h
    obtain ⟨pm, hpm, hm⟩ := Option.bind_eq_some_iff.1 h
    obtain ⟨hj, hm⟩ := get?_cons_eq_some.1 hm
    exact ⟨pm, hpm, hj, by simpa using hm⟩
  · rintro ⟨pm, hpm, hj, rfl⟩
    rw [hpm, Option.bind_some, get?_cons_eq_some]
    exact ⟨hj, rfl⟩

theorem before_cons {es : List α} {cs : List (Node α)} {i : ℕ} (hi : i < cs.length)
    (p : List ℕ) :
    (mk es cs).before (i :: p) = interleave (es.take i) (cs.take i) ++ cs[i].before p := by
  rw [before, List.getD_eq_getElem _ _ hi]

theorem after_cons {es : List α} {cs : List (Node α)} {i : ℕ} (hi : i < cs.length)
    (p : List ℕ) :
    (mk es cs).after (i :: p) =
      cs[i].after p ++ ((es.drop i).take 1 ++ interleave (es.drop (i + 1)) (cs.drop (i + 1))) := by
  rw [after, List.getD_eq_getElem _ _ hi]

/-- A node's sequence opened at child `i`. -/
theorem flatten_eq_child {es : List α} {cs : List (Node α)} {i : ℕ} (hi : i < cs.length) :
    (mk es cs).flatten = interleave (es.take i) (cs.take i) ++ cs[i].flatten ++
      ((es.drop i).take 1 ++ interleave (es.drop (i + 1)) (cs.drop (i + 1))) := by
  have hcs : cs = cs.take i ++ cs[i] :: cs.drop (i + 1) := by
    rw [← List.drop_eq_getElem_cons hi, List.take_append_drop]
  conv_lhs => rw [flatten_mk, hcs]
  rw [interleave_append, interleave_cons, List.length_take, Nat.min_eq_left (Nat.le_of_lt hi),
    List.drop_drop]
  simp

/-- The frame of a path: the tree's sequence is what comes before the subtree, the subtree's
sequence, and what comes after. -/
theorem flatten_eq_of_get? {n m : Node α} {p : List ℕ} (h : n.get? p = some m) :
    n.flatten = n.before p ++ m.flatten ++ n.after p := by
  induction p generalizing n with
  | nil =>
    cases h
    simp
  | cons i p ih =>
    obtain ⟨es, cs⟩ := n
    obtain ⟨hi, hm⟩ : ∃ h : i < cs.length, cs[i].get? p = some m := get?_cons_eq_some.1 h
    rw [flatten_eq_child hi, ih hm, before_cons hi, after_cons hi]
    simp

theorem children_modify_cons (f : Node α → Node α) (n : Node α) (i : ℕ) (p : List ℕ) :
    (n.modify f (i :: p)).children = n.children.modify i fun c => c.modify f p := by
  cases n
  rfl

theorem entries_modify_cons (f : Node α → Node α) (n : Node α) (i : ℕ) (p : List ℕ) :
    (n.modify f (i :: p)).entries = n.entries := by
  cases n
  rfl

/-- Replacing the subtree at a path changes the sequence in its place alone. -/
theorem flatten_modify (f : Node α → Node α) {n m : Node α} {p : List ℕ}
    (h : n.get? p = some m) :
    (n.modify f p).flatten = n.before p ++ (f m).flatten ++ n.after p := by
  induction p generalizing n with
  | nil =>
    cases h
    simp
  | cons i p ih =>
    obtain ⟨es, cs⟩ := n
    obtain ⟨hi, hm⟩ : ∃ h : i < cs.length, cs[i].get? p = some m := get?_cons_eq_some.1 h
    have hi' : i < (cs.modify i fun c => c.modify f p).length := by simpa using hi
    have hget : (cs.modify i fun c => c.modify f p)[i] = cs[i].modify f p := by simp
    have htake : (cs.modify i fun c => c.modify f p).take i = cs.take i := by
      rw [List.take_modify, List.modify_eq_self (by simp)]
    have hdrop : (cs.modify i fun c => c.modify f p).drop (i + 1) = cs.drop (i + 1) := by
      simp [List.drop_modify_of_lt]
    rw [modify, flatten_eq_child hi', hget, htake, hdrop, ih hm, before_cons hi, after_cons hi]
    simp

/-- Along a path, the subtree and its surroundings after a replacement further down. -/
theorem get?_modify (f : Node α → Node α) {n m : Node α} {p : List ℕ}
    (h : n.get? p = some m) : (n.modify f p).get? p = some (f m) := by
  induction p generalizing n with
  | nil =>
    cases h
    simp
  | cons i p ih =>
    obtain ⟨es, cs⟩ := n
    obtain ⟨hi, hm⟩ : ∃ h : i < cs.length, cs[i].get? p = some m := get?_cons_eq_some.1 h
    rw [get?_cons_eq_some]
    exact ⟨by simpa [children_modify_cons] using hi, by simpa [children_modify_cons] using ih hm⟩

theorem before_modify (f : Node α → Node α) {n m : Node α} {p : List ℕ}
    (h : n.get? p = some m) : (n.modify f p).before p = n.before p := by
  induction p generalizing n with
  | nil => simp
  | cons i p ih =>
    obtain ⟨es, cs⟩ := n
    obtain ⟨hi, hm⟩ : ∃ h : i < cs.length, cs[i].get? p = some m := get?_cons_eq_some.1 h
    have hi' : i < (cs.modify i fun c => c.modify f p).length := by simpa using hi
    rw [modify, before_cons hi', before_cons hi, List.take_modify, List.modify_eq_self (by simp)]
    simp [ih hm]

theorem before_append {n m : Node α} {p : List ℕ} (h : n.get? p = some m) (q : List ℕ) :
    n.before (p ++ q) = n.before p ++ m.before q := by
  induction p generalizing n with
  | nil =>
    cases h
    simp
  | cons i p ih =>
    obtain ⟨es, cs⟩ := n
    obtain ⟨hi, hm⟩ : ∃ h : i < cs.length, cs[i].get? p = some m := get?_cons_eq_some.1 h
    rw [List.cons_append, before_cons hi, before_cons hi, ih hm, List.append_assoc]

theorem after_append {n m : Node α} {p : List ℕ} (h : n.get? p = some m) (q : List ℕ) :
    n.after (p ++ q) = m.after q ++ n.after p := by
  induction p generalizing n with
  | nil =>
    cases h
    simp
  | cons i p ih =>
    obtain ⟨es, cs⟩ := n
    obtain ⟨hi, hm⟩ : ∃ h : i < cs.length, cs[i].get? p = some m := get?_cons_eq_some.1 h
    rw [List.cons_append, after_cons hi, after_cons hi, ih hm, List.append_assoc]

theorem before_singleton {es : List α} {cs : List (Node α)} {j : ℕ} (hj : j < cs.length) :
    (mk es cs).before [j] = interleave (es.take j) (cs.take j) := by
  rw [before_cons hj, before_nil, List.append_nil]

/-- The subtree at a path, a leaf with nothing where there is none. -/
def subtree (n : Node α) (p : List ℕ) : Node α := (n.get? p).getD default

theorem subtree_of_get? {n m : Node α} {p : List ℕ} (h : n.get? p = some m) :
    n.subtree p = m := by
  rw [subtree, h, Option.getD_some]

theorem subtree_cons {es : List α} {cs : List (Node α)} {i : ℕ} (hi : i < cs.length)
    (p : List ℕ) : (mk es cs).subtree (i :: p) = cs[i].subtree p := by
  rw [subtree, subtree, get?_cons, children_mk, List.getElem?_eq_getElem hi, Option.bind_some]

/-! ## Positions within a node -/

/-- What comes before entry `i` within a node: its first `i + 1` children with the entries
between them; in a leaf, its first `i` entries. -/
def slot (n : Node α) (i : ℕ) : List α := interleave (n.entries.take i) (n.children.take (i + 1))

theorem slot_zero_leaf {n : Node α} (h : n.children = []) : n.slot 0 = [] := by
  rw [slot, h]
  simp

theorem slot_leaf {n : Node α} (h : n.children = []) (i : ℕ) : n.slot i = n.entries.take i := by
  rw [slot, h, List.take_nil, interleave_nil]

/-- Before entry `i` come the children and entries before child `i`, then child `i`. -/
theorem slot_eq_child {n : Node α} {i : ℕ} (hi : i < n.children.length) :
    n.slot i = interleave (n.entries.take i) (n.children.take i) ++ n.children[i].flatten := by
  have hl : (n.children.take i).length = i := by simp; omega
  rw [slot, List.take_add_one, List.getElem?_eq_getElem hi, Option.toList_some,
    interleave_append, hl, List.take_take, Nat.min_self, List.drop_take, Nat.sub_self,
    List.take_zero]
  simp

/-- In a node with one child more than entries, entry `i` comes right after what comes before
it. -/
theorem interleave_take_succ {n : Node α} (hc : n.children.length = n.entries.length + 1)
    {i : ℕ} (hi : i < n.entries.length) :
    interleave (n.entries.take (i + 1)) (n.children.take (i + 1)) = n.slot i ++ [n.entries[i]] := by
  rw [List.take_succ_eq_append_getElem hi, interleave_append_entries (by simp; omega), slot]

/-- A node's sequence opened at entry `i`. -/
theorem flatten_eq_slot {n : Node α} (hc : n.children = [] ∨ n.children.length = n.entries.length + 1)
    {i : ℕ} (hi : i < n.entries.length) :
    n.flatten = n.slot i ++ n.entries[i] ::
      (mk (n.entries.drop (i + 1)) (n.children.drop (i + 1))).flatten := by
  obtain ⟨es, cs⟩ := n
  exact flatten_split hi hc

theorem slot_entries_length {n : Node α}
    (hc : n.children = [] ∨ n.children.length = n.entries.length + 1) :
    n.slot n.entries.length = n.flatten := by
  obtain ⟨es, cs⟩ := n
  rw [slot, entries_mk, children_mk, List.take_length, flatten_mk]
  rcases hc with hc | hc
  · rw [show cs = [] from hc]
    rfl
  · rw [List.take_of_length_le (by simp at hc; omega)]

/-! ## The shape of a B-tree -/

/-- The shape of a B-tree of height `h` with at least `lo` and at most `hi` entries in a node:
every leaf at depth `h`, every inner node with one child more than entries, every node with at
most `hi` entries, and every node below the top with at least `lo`. -/
def Shape (lo hi : ℕ) : ℕ → Node α → Prop
  | 0, n => n.children = [] ∧ n.entries.length ≤ hi
  | h + 1, n => n.children.length = n.entries.length + 1 ∧ n.entries.length ≤ hi ∧
      ∀ c ∈ n.children, lo ≤ c.entries.length ∧ Shape lo hi h c

variable {lo hi h : ℕ} {n : Node α}

theorem shape_zero : Shape lo hi 0 n ↔ n.children = [] ∧ n.entries.length ≤ hi := Iff.rfl

theorem shape_succ : Shape lo hi (h + 1) n ↔ n.children.length = n.entries.length + 1 ∧
    n.entries.length ≤ hi ∧ ∀ c ∈ n.children, lo ≤ c.entries.length ∧ Shape lo hi h c := Iff.rfl

theorem Shape.entries_le (hs : Shape lo hi h n) : n.entries.length ≤ hi := by
  cases h with
  | zero => exact hs.2
  | succ h => exact hs.2.1

/-- Every node is a leaf or has one child more than entries. -/
theorem Shape.children_cases (hs : Shape lo hi h n) :
    n.children = [] ∨ n.children.length = n.entries.length + 1 := by
  cases h with
  | zero => exact .inl hs.1
  | succ h => exact .inr hs.1

theorem Shape.children_eq_nil_iff (hs : Shape lo hi h n) : n.children = [] ↔ h = 0 := by
  cases h with
  | zero => exact ⟨fun _ => rfl, fun _ => hs.1⟩
  | succ h =>
    refine ⟨fun hc => ?_, fun h0 => absurd h0 (Nat.succ_ne_zero h)⟩
    have := hs.1
    rw [hc] at this
    simp at this

/-- A subtree of a B-tree is one, one level lower for each step of the path. -/
theorem Shape.get? (hs : Shape lo hi h n) {p : List ℕ} {m : Node α} (hp : n.get? p = some m) :
    p.length ≤ h ∧ Shape lo hi (h - p.length) m ∧ (p ≠ [] → lo ≤ m.entries.length) := by
  induction p generalizing n h with
  | nil =>
    cases hp
    simpa using hs
  | cons i p ih =>
    obtain ⟨hic, hm⟩ := get?_cons_eq_some.1 hp
    cases h with
    | zero =>
      rw [hs.1] at hic
      exact absurd hic (Nat.not_lt_zero _)
    | succ h =>
      obtain ⟨hlo, hc⟩ := hs.2.2 _ (List.getElem_mem hic)
      obtain ⟨hle, hsm, hlom⟩ := ih hc hm
      refine ⟨by simpa using hle, by simpa using hsm, fun _ => ?_⟩
      rcases p with _ | ⟨j, p⟩
      · cases hm
        exact hlo
      · exact hlom (List.cons_ne_nil _ _)

/-- Replacing the subtree at a nonempty path by one of the same height with an allowed number
of entries keeps the shape. -/
theorem Shape.modify (hs : Shape lo hi h n) {p : List ℕ} {m : Node α} (hp : n.get? p = some m)
    (f : Node α → Node α) (hf : Shape lo hi (h - p.length) (f m))
    (hlo : p ≠ [] → lo ≤ (f m).entries.length) : Shape lo hi h (n.modify f p) := by
  induction p generalizing n h with
  | nil =>
    cases hp
    simpa using hf
  | cons i p ih =>
    obtain ⟨hic, hm⟩ := get?_cons_eq_some.1 hp
    cases h with
    | zero =>
      rw [hs.1] at hic
      exact absurd hic (Nat.not_lt_zero _)
    | succ h =>
      rw [shape_succ, children_modify_cons, entries_modify_cons, List.length_modify]
      refine ⟨hs.1, hs.2.1, List.forall_mem_modify_at (fun c hc => hs.2.2 c hc) fun hic' => ?_⟩
      obtain ⟨hloc, hc⟩ := hs.2.2 _ (List.getElem_mem hic')
      have hf' : Shape lo hi (h - p.length) (f m) := by simpa using hf
      refine ⟨?_, ih hc hm hf' fun hp' => hlo (List.cons_ne_nil _ _)⟩
      rcases p with _ | ⟨j, p⟩
      · cases hm
        simpa using hlo (List.cons_ne_nil _ _)
      · rw [entries_modify_cons]
        exact hloc

/-! ## Descents to a leaf -/

theorem sizeOf_getD_lt [SizeOf α] {es : List α} {cs : List (Node α)} (h : cs ≠ []) (i : ℕ) :
    sizeOf (cs.getD i default) < sizeOf (mk es cs) := by
  rcases List.getD_mem_or_eq cs i default with hm | hd
  · have := List.sizeOf_lt_of_mem hm
    simp only [mk.sizeOf_spec]
    omega
  · obtain ⟨c, cs', rfl⟩ := List.exists_cons_of_ne_nil h
    have hc : 0 < sizeOf c := by
      cases c
      simp only [mk.sizeOf_spec]
      omega
    have hes : 0 < sizeOf es := by cases es <;> simp
    rw [hd, show (default : Node α) = mk [] [] from rfl]
    simp only [mk.sizeOf_spec, List.cons.sizeOf_spec, List.nil.sizeOf_spec]
    omega

theorem sizeOf_getD_children_lt [SizeOf α] {n : Node α} (h : n.children ≠ []) (i : ℕ) :
    sizeOf (n.children.getD i default) < sizeOf n := by
  cases n
  exact sizeOf_getD_lt h i

/-- The path from a node down to a leaf that takes child `f m` at each node `m`. -/
def descend (f : Node α → ℕ) : Node α → List ℕ
  | mk es cs =>
    if _h : cs = [] then [] else f (mk es cs) :: descend f (cs.getD (f (mk es cs)) default)
termination_by n => sizeOf n
decreasing_by exact sizeOf_getD_lt ‹_› _

theorem descend_of_leaf (f : Node α → ℕ) {n : Node α} (h : n.children = []) : n.descend f = [] := by
  rw [← n.eta, descend, dif_pos h]

theorem descend_of_inner (f : Node α → ℕ) {n : Node α} (h : n.children ≠ []) :
    n.descend f = f n :: (n.children.getD (f n) default).descend f := by
  rw [← n.eta, descend, dif_neg h, eta]

/-- In a B-tree, a descent that stays among the children ends at a leaf, `h` levels down. -/
theorem Shape.get?_descend {lo hi h : ℕ} {n : Node α} (hs : Shape lo hi h n) {f : Node α → ℕ}
    (hf : ∀ m : Node α, m.children.length = m.entries.length + 1 → f m < m.children.length) :
    ∃ m, n.get? (n.descend f) = some m ∧ m.children = [] ∧ (n.descend f).length = h ∧
      (n.descend f ≠ [] → lo ≤ m.entries.length) ∧ m.entries.length ≤ hi := by
  induction h generalizing n with
  | zero => exact ⟨n, by rw [descend_of_leaf f hs.1]; rfl, hs.1, by rw [descend_of_leaf f hs.1]; rfl,
      fun hd => absurd (descend_of_leaf f hs.1) hd, hs.2⟩
  | succ h ih =>
    have hne : n.children ≠ [] := fun hc => Nat.succ_ne_zero h ((Shape.children_eq_nil_iff hs).1 hc)
    have hfi := hf n hs.1
    obtain ⟨hlo, hc⟩ := hs.2.2 _ (List.getElem_mem hfi)
    obtain ⟨m, hm, hleaf, hlen, hlom, hhi⟩ := ih hc
    refine ⟨m, ?_, hleaf, ?_, fun _ => ?_, hhi⟩
    · rw [descend_of_inner f hne, get?_cons_eq_some, List.getD_eq_getElem _ _ hfi]
      exact ⟨hfi, hm⟩
    · rw [descend_of_inner f hne, List.getD_eq_getElem _ _ hfi, List.length_cons, hlen]
    · by_cases hd : n.children[f n].descend f = []
      · rw [hd] at hm
        cases hm
        exact hlo
      · exact hlom hd

/-- Nothing comes before the leftmost leaf. -/
theorem before_descend_zero (n : Node α) : n.before (n.descend fun _ => 0) = [] := by
  induction n using descend.induct (fun _ => 0) with
  | case1 es => rw [descend, dif_pos rfl, before_nil]
  | case2 es cs h ih =>
    rw [descend, dif_neg h, before]
    simpa using ih

/-- Nothing comes after the rightmost leaf of a B-tree. -/
theorem Shape.after_descend_last {lo hi h : ℕ} {n : Node α} (hs : Shape lo hi h n) :
    n.after (n.descend fun m => m.entries.length) = [] := by
  induction h generalizing n with
  | zero => rw [descend_of_leaf _ hs.1, after_nil]
  | succ h ih =>
    have hne : n.children ≠ [] := fun hc => Nat.succ_ne_zero h ((Shape.children_eq_nil_iff hs).1 hc)
    have hfi : n.entries.length < n.children.length := by rw [hs.1]; omega
    obtain ⟨-, hc⟩ := hs.2.2 _ (List.getElem_mem hfi)
    rw [descend_of_inner _ hne, ← n.eta, after_cons (by simpa using hfi)]
    simp only [entries_mk, children_mk, List.drop_length, List.take_nil,
      List.drop_eq_nil_of_le (show n.children.length ≤ n.entries.length + 1 by rw [hs.1]),
      List.drop_eq_nil_of_le (Nat.le_succ n.entries.length), interleave_nil, List.append_nil]
    rw [List.getD_eq_getElem _ _ hfi] at *
    exact ih hc

end Node

end MultiwayTree
