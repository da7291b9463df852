import Mathlib.Data.List.TakeWhile

/-! An ordered set of items as a B-tree library offers it to its clients
(`New`, `Len`, `AscendGreaterOrEqual`, `DescendLessOrEqual`, `ReplaceOrInsert`
and `Delete` of `github.com/google/btree`). The library itself is not modelled:
a client is written against the operations of `OrderedSet`, and its proofs use
only `OrderedSet.Lawful`, what the library documents of them, stated on the
in-order list of the items.

The documentation asks of `Less` a strict weak order, and promises nothing
otherwise. A client whose order is not one everywhere (sequence numbers that
wrap) gets each promise only where `Less` is, on the items at hand, the order
of a key (`OrderedBy`), and on a tree whose items are in that order
(`InOrder`). On such lists the linear scans `sortedReplaceOrInsert` and
`sortedDelete` say what the two updates do. -/

namespace OrderedSet

/-- An item of the set: `Less` is the order the set keeps. Two items neither
of which is less than the other have one key, and the set holds one of them. -/
class Item (α : Type) where
  less : α → α → Bool

/-- The in-order walk of an iterator: `f` sees each item with the state so far
and says whether to go on. -/
def walk {α σ : Type} (f : σ → α → Bool × σ) : List α → σ → σ
  | [], st => st
  | i :: rest, st =>
    let (more, st) := f st i
    if more then walk f rest st else st

section Walk

variable {α σ : Type} {f : σ → α → Bool × σ} {st st' : σ} {i : α} {rest : List α}

theorem walk_cons_of_more (h : f st i = (true, st')) : walk f (i :: rest) st = walk f rest st' := by
  simp [walk, h]

theorem walk_cons_of_stop (h : f st i = (false, st')) : walk f (i :: rest) st = st' := by
  simp [walk, h]

/-- A walk whose callback always goes on is a fold. -/
theorem walk_eq_foldl (hf : ∀ st i, (f st i).1 = true) :
    ∀ (l : List α) (st : σ), walk f l st = l.foldl (fun st i => (f st i).2) st
  | [], _ => rfl
  | i :: rest, st => by
    have h : f st i = (true, (f st i).2) := Prod.ext (hf st i) rfl
    rw [walk_cons_of_more h, List.foldl_cons, walk_eq_foldl hf rest]

end Walk

variable {α : Type} [Item α]

/-- `ReplaceOrInsert` on a sorted list: the item goes in at its place in the
order, in place of the item of its key, which is returned. -/
def sortedReplaceOrInsert : List α → α → List α × Option α
  | [], r => ([r], none)
  | i :: rest, r =>
    if Item.less i r then
      let (rest, old) := sortedReplaceOrInsert rest r
      (i :: rest, old)
    else if Item.less r i then (r :: i :: rest, none)
    else (r :: rest, some i)

/-- `Delete` on a sorted list: the item of the key of `r` goes, and is
returned. -/
def sortedDelete : List α → α → List α × Option α
  | [], _ => ([], none)
  | i :: rest, r =>
    if Item.less i r then
      let (rest, old) := sortedDelete rest r
      (i :: rest, old)
    else if Item.less r i then (i :: rest, none)
    else (rest, some i)

/-- On the items `xs`, `Less` is the order of the key `key`. -/
def OrderedBy (key : α → ℕ) (xs : List α) : Prop :=
  ∀ a ∈ xs, ∀ b ∈ xs, Item.less a b = true ↔ key a < key b

/-- The items are in the order of `Less`. -/
def InOrder (xs : List α) : Prop :=
  xs.Pairwise fun a b => Item.less a b = true

end OrderedSet

open OrderedSet in
/-- The operations of an ordered set of `α` kept in a `T`: `items` is what
`Ascend` visits, the items in order. -/
class OrderedSet (T : Type) (α : outParam Type) where
  new : T
  items : T → List α
  len : T → ℕ
  ascendGreaterOrEqual {σ : Type} : T → α → (σ → α → Bool × σ) → σ → σ
  descendLessOrEqual {σ : Type} : T → α → (σ → α → Bool × σ) → σ → σ
  replaceOrInsert : T → α → T × Option α
  delete : T → α → T × Option α

namespace OrderedSet

variable {T α : Type} [Item α]

/-- What the library documents of its operations. `AscendGreaterOrEqual`
visits the items in `[pivot, last]` in ascending order, `DescendLessOrEqual`
those in `[pivot, first]` in descending order, each until the iterator
returns `false`. -/
class Lawful (T : Type) (α : outParam Type) [Item α] [OrderedSet T α] : Prop where
  items_new : items (new : T) = []
  len_eq (t : T) : len t = (items t).length
  ascendGreaterOrEqual_eq {σ : Type} (t : T) (p : α) (f : σ → α → Bool × σ) (st : σ)
    (key : α → ℕ) : OrderedBy key (p :: items t) → InOrder (items t) →
      ascendGreaterOrEqual t p f st = walk f ((items t).filter fun i => !Item.less i p) st
  descendLessOrEqual_eq {σ : Type} (t : T) (p : α) (f : σ → α → Bool × σ) (st : σ)
    (key : α → ℕ) : OrderedBy key (p :: items t) → InOrder (items t) →
      descendLessOrEqual t p f st = walk f ((items t).filter fun i => !Item.less p i).reverse st
  items_replaceOrInsert (t : T) (r : α) (key : α → ℕ) :
    OrderedBy key (r :: items t) → InOrder (items t) →
      items (replaceOrInsert t r).1 = (sortedReplaceOrInsert (items t) r).1
  replaceOrInsert_old (t : T) (r : α) (key : α → ℕ) :
    OrderedBy key (r :: items t) → InOrder (items t) →
      (replaceOrInsert t r).2 = (sortedReplaceOrInsert (items t) r).2
  items_delete (t : T) (r : α) (key : α → ℕ) :
    OrderedBy key (r :: items t) → InOrder (items t) →
      items (delete t r).1 = (sortedDelete (items t) r).1
  delete_old (t : T) (r : α) (key : α → ℕ) :
    OrderedBy key (r :: items t) → InOrder (items t) →
      (delete t r).2 = (sortedDelete (items t) r).2

/-- The items in a list, kept sorted by the linear scans: an ordered set that
keeps every promise of the library on every list. -/
instance instList : OrderedSet (List α) α where
  new := []
  items := id
  len := List.length
  ascendGreaterOrEqual t p f st := walk f (t.filter fun i => !Item.less i p) st
  descendLessOrEqual t p f st := walk f (t.filter fun i => !Item.less p i).reverse st
  replaceOrInsert := sortedReplaceOrInsert
  delete := sortedDelete

instance : Lawful (List α) α where
  items_new := rfl
  len_eq _ := rfl
  ascendGreaterOrEqual_eq _ _ _ _ _ _ _ := rfl
  descendLessOrEqual_eq _ _ _ _ _ _ _ := rfl
  items_replaceOrInsert _ _ _ _ _ := rfl
  replaceOrInsert_old _ _ _ _ _ := rfl
  items_delete _ _ _ _ _ := rfl
  delete_old _ _ _ _ _ := rfl

section Order

variable {key : α → ℕ} {xs ys l : List α} {p c : α}

theorem OrderedBy.mono (h : OrderedBy key xs) (hs : ∀ x ∈ ys, x ∈ xs) : OrderedBy key ys :=
  fun a ha b hb => h a (hs a ha) b (hs b hb)

theorem OrderedBy.pivot_cons (h : OrderedBy key (p :: c :: l)) : OrderedBy key (p :: l) :=
  h.mono fun x hx => by
    rcases List.mem_cons.1 hx with rfl | hx
    · exact List.mem_cons_self
    · exact List.mem_cons_of_mem _ (List.mem_cons_of_mem _ hx)

/-- On a sorted list the items not less than the pivot are a suffix: the
filter of `AscendGreaterOrEqual` is a `dropWhile`. -/
theorem filter_not_less_eq_dropWhile (hk : OrderedBy key (p :: l)) (hs : InOrder l) :
    l.filter (fun i => !Item.less i p) = l.dropWhile fun i => Item.less i p := by
  induction l with
  | nil => rfl
  | cons c l ih =>
    have hcl := (List.pairwise_cons.1 hs).1
    by_cases hcp : Item.less c p = true
    · simp only [List.filter_cons, hcp, Bool.not_true, Bool.false_eq_true, ↓reduceIte,
        List.dropWhile_cons_of_pos, ih hk.pivot_cons (List.pairwise_cons.1 hs).2]
    · -- every later item is past `c`, so no later item is less than the pivot
      have hpc : key p ≤ key c := by
        rw [hk c (by simp) p List.mem_cons_self] at hcp
        omega
      have hrest : l.filter (fun i => !Item.less i p) = l := by
        refine List.filter_eq_self.2 fun b hb => ?_
        have hcb := (hk c (by simp) b (by simp [hb])).1 (hcl b hb)
        have hbp : ¬ Item.less b p = true := by
          rw [hk b (by simp [hb]) p List.mem_cons_self]
          omega
        simpa using hbp
      rw [Bool.not_eq_true] at hcp
      simp [hcp, hrest, List.dropWhile_cons_of_neg]

/-- On a sorted list the items not greater than the pivot are a prefix: the
filter of `DescendLessOrEqual` is a `takeWhile`. -/
theorem filter_not_greater_eq_takeWhile (hk : OrderedBy key (p :: l)) (hs : InOrder l) :
    l.filter (fun i => !Item.less p i) = l.takeWhile fun i => !Item.less p i := by
  induction l with
  | nil => rfl
  | cons c l ih =>
    have hcl := (List.pairwise_cons.1 hs).1
    by_cases hpc : Item.less p c = true
    · -- every later item is past `c`, so past the pivot
      have hrest : l.filter (fun i => !Item.less p i) = [] := by
        refine List.filter_eq_nil_iff.2 fun b hb => ?_
        have hcb := (hk c (by simp) b (by simp [hb])).1 (hcl b hb)
        have hlt := (hk p List.mem_cons_self c (by simp)).1 hpc
        have hpb : Item.less p b = true := (hk p List.mem_cons_self b (by simp [hb])).2 (by omega)
        simp [hpb]
      simp [hpc, hrest]
    · rw [Bool.not_eq_true] at hpc
      simp [hpc, ih hk.pivot_cons (List.pairwise_cons.1 hs).2]

end Order

section Lawful

variable [OrderedSet T α] [Lawful T α] {t : T} {p : α} {key : α → ℕ} {σ : Type}

/-- `AscendGreaterOrEqual` on a tree in order walks the items from the first
not less than the pivot. -/
theorem ascendGreaterOrEqual_eq_dropWhile (hk : OrderedBy key (p :: items t))
    (hs : InOrder (items t)) (f : σ → α → Bool × σ) (st : σ) :
    ascendGreaterOrEqual t p f st = walk f ((items t).dropWhile fun i => Item.less i p) st := by
  rw [Lawful.ascendGreaterOrEqual_eq t p f st key hk hs, filter_not_less_eq_dropWhile hk hs]

/-- `DescendLessOrEqual` on a tree in order walks the items up to the last not
greater than the pivot, from that one down. -/
theorem descendLessOrEqual_eq_takeWhile (hk : OrderedBy key (p :: items t))
    (hs : InOrder (items t)) (f : σ → α → Bool × σ) (st : σ) :
    descendLessOrEqual t p f st =
      walk f ((items t).takeWhile fun i => !Item.less p i).reverse st := by
  rw [Lawful.descendLessOrEqual_eq t p f st key hk hs, filter_not_greater_eq_takeWhile hk hs]

end Lawful

end OrderedSet
