import Gvisor.Lib.Outcome

/-! A loop that walks an offset forward, written as a function of its fuel,
the offset and its state. `Runs loop i s j s'` says that the loop goes from
offset `i` in state `s` to offset `j` in state `s'`, in at most `j - i`
turns: runs chain, and a loop given a turn for each offset left then ends as
it does from `j`. -/

namespace FuelLoop

variable {σ ε : Type} {loop : Nat → Nat → σ → Outcome ε σ} {i j l : Nat} {s s' s'' : σ}

def Runs (loop : Nat → Nat → σ → Outcome ε σ) (i : Nat) (s : σ) (j : Nat) (s' : σ) : Prop :=
  i ≤ j ∧ ∃ k ≤ j - i, ∀ fuel, loop (fuel + k) i s = loop fuel j s'

theorem Runs.refl : Runs loop i s i s := ⟨Nat.le_refl i, 0, Nat.zero_le _, fun _ => rfl⟩

/-- One turn that moves the offset forward. -/
theorem Runs.step (hij : i < j) (h : ∀ fuel, loop (fuel + 1) i s = loop fuel j s') :
    Runs loop i s j s' :=
  ⟨Nat.le_of_lt hij, 1, by omega, h⟩

theorem Runs.trans (h₁ : Runs loop i s j s') (h₂ : Runs loop j s' l s'') : Runs loop i s l s'' := by
  obtain ⟨hij, k₁, hk₁, h₁⟩ := h₁
  obtain ⟨hjl, k₂, hk₂, h₂⟩ := h₂
  refine ⟨Nat.le_trans hij hjl, k₂ + k₁, by omega, fun fuel => ?_⟩
  rw [← Nat.add_assoc, h₁, h₂]

end FuelLoop
