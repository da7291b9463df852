import Mathlib

/-! How much of an interval `[x, e)` of naturals a list of sorted, disjoint
intervals covers: never more than its length, and strictly less when one point
of it is left uncovered. -/

namespace IntervalCover

/-- The length of the overlap of the interval `[i.1, i.2)` with `[x, e)`. -/
def overlap (i : ℕ × ℕ) (x e : ℕ) : ℕ := min i.2 e - max i.1 x

/-- Intervals that each end before the next one starts. -/
abbrev Sorted (l : List (ℕ × ℕ)) : Prop := l.Pairwise fun i j => i.2 ≤ j.1

theorem overlap_of_end_le {i : ℕ × ℕ} {y x e : ℕ} (h : y ≤ i.1) :
    overlap i x e = overlap i (max x y) e := by
  simp only [overlap]
  omega

theorem sum_overlap_shift {l : List (ℕ × ℕ)} {y : ℕ} (h : ∀ j ∈ l, y ≤ j.1) (x e : ℕ) :
    (l.map (overlap · x e)).sum = (l.map (overlap · (max x y) e)).sum := by
  rw [List.map_congr_left fun j hj => overlap_of_end_le (h j hj)]

theorem sum_overlap_le : ∀ {l : List (ℕ × ℕ)}, Sorted l → ∀ x e, (l.map (overlap · x e)).sum ≤ e - x
  | [], _, x, e => by simp
  | i :: rest, hl, x, e => by
    obtain ⟨hi, hrest⟩ := List.pairwise_cons.mp hl
    have ih := sum_overlap_le hrest (max x i.2) e
    rw [List.map_cons, List.sum_cons, sum_overlap_shift hi, overlap]
    omega

theorem sum_overlap_lt : ∀ {l : List (ℕ × ℕ)}, Sorted l → ∀ {x b e : ℕ}, x ≤ b → b < e →
    (∀ i ∈ l, ¬ (i.1 ≤ b ∧ b < i.2)) → (l.map (overlap · x e)).sum < e - x
  | [], _, x, b, e, hxb, hbe, _ => by simp; omega
  | i :: rest, hl, x, b, e, hxb, hbe, hcov => by
    obtain ⟨hi, hrest⟩ := List.pairwise_cons.mp hl
    have hcov' : ∀ j ∈ rest, ¬ (j.1 ≤ b ∧ b < j.2) := fun j hj => hcov j (List.mem_cons_of_mem _ hj)
    have hbi := hcov i List.mem_cons_self
    rw [List.map_cons, List.sum_cons, sum_overlap_shift hi]
    -- `b` lies either past the end of `i`, where the rest leaves it uncovered,
    -- or before the start of `i`
    by_cases hpast : max x i.2 ≤ b
    · have ih := sum_overlap_lt hrest hpast hbe hcov'
      rw [overlap]
      omega
    · have hle := sum_overlap_le hrest (max x i.2) e
      rw [overlap]
      omega

end IntervalCover
