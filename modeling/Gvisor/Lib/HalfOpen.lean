import Mathlib.Order.MinMax

/-! Half-open intervals `[lo, hi)` of a linear order, given by their two ends:
the points an interval covers, two intervals that lie apart (disjoint, with a
point between them that neither covers), and the hull into which two
intervals that touch are merged. Lists of intervals kept apart from each other
are what a merging insert maintains: an interval apart from two touching ones
is apart from their hull, and the hull covers exactly what the two cover. -/

namespace HalfOpen

variable {α : Type*} [LinearOrder α]

/-- The points of `[i.1, i.2)`. -/
def Covers (i : α × α) (x : α) : Prop := i.1 ≤ x ∧ x < i.2

/-- Some point lies between `i` and `j` that neither covers. -/
def Apart (i j : α × α) : Prop := i.2 < j.1 ∨ j.2 < i.1

instance (i j : α × α) : Decidable (Apart i j) := inferInstanceAs (Decidable (_ ∨ _))

/-- The smallest interval holding both. -/
def hull (i j : α × α) : α × α := (min i.1 j.1, max i.2 j.2)

variable {i j k i' j' : α × α} {x c : α}

theorem Apart.symm (h : Apart i j) : Apart j i := Or.symm h

/-- Intervals apart cover no point together. -/
theorem Apart.not_covers (h : Apart i j) (hi : Covers i x) : ¬Covers j x := by
  rintro ⟨h1, h2⟩
  rcases hi with ⟨h3, h4⟩
  rcases h with h | h
  · exact lt_asymm (h.trans_le h1) h4
  · exact lt_asymm (h.trans_le h3) h2

/-- Two intervals that touch cover what their hull covers. -/
theorem covers_hull (h : ¬Apart i j) : Covers (hull i j) x ↔ Covers i x ∨ Covers j x := by
  simp only [Apart, not_or, not_lt] at h
  simp only [Covers, hull, min_le_iff, lt_max_iff]
  grind

/-- An interval apart from two touching ones is apart from their hull: it
lies wholly before or wholly after each, and it cannot lie after one and
before the other when they touch. -/
theorem Apart.hull (hk : k.1 < k.2) (hi : Apart k i) (hj : Apart k j) (h : ¬Apart i j) :
    Apart k (hull i j) := by
  simp only [Apart, not_or, not_lt] at h hi hj ⊢
  simp only [HalfOpen.hull, lt_min_iff, max_lt_iff]
  grind

/-- Shrinking two intervals keeps them apart. -/
theorem Apart.shrink (h : Apart i j) (h1 : i.1 ≤ i'.1) (h2 : i'.2 ≤ i.2) (h3 : j.1 ≤ j'.1)
    (h4 : j'.2 ≤ j.2) : Apart i' j' := by
  rcases h with h | h
  · exact .inl (h2.trans_lt (h.trans_le h3))
  · exact .inr (h4.trans_lt (h.trans_le h1))

/-- Cutting an interval at `c` keeps the points from `c` on. -/
theorem covers_cut : Covers (max i.1 c, i.2) x ↔ Covers i x ∧ c ≤ x := by
  simp only [Covers, max_le_iff]
  exact and_right_comm

end HalfOpen
