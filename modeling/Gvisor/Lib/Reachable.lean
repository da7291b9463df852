import Mathlib.Logic.Relation

/-! States of a transition system reachable from its initial states, with the
rule that an inductive invariant holds in all of them. Steps are a relation
`R`, so a system whose operations also fail or block keeps only the steps
that return. -/

namespace Transition

variable {σ : Type*} {init : σ → Prop} {R : σ → σ → Prop} {s s' : σ}

/-- `s` is reached from an initial state by finitely many steps of `R`. -/
def Reachable (init : σ → Prop) (R : σ → σ → Prop) (s : σ) : Prop :=
  ∃ s₀, init s₀ ∧ Relation.ReflTransGen R s₀ s

theorem Reachable.of_init (h : init s) : Reachable init R s := ⟨s, h, .refl⟩

theorem Reachable.tail (h : Reachable init R s) (hr : R s s') : Reachable init R s' := by
  obtain ⟨s₀, h₀, hrun⟩ := h
  exact ⟨s₀, h₀, hrun.tail hr⟩

/-- An invariant that holds initially and is kept by every step holds in
every reachable state. -/
theorem Reachable.invariant (P : σ → Prop) (h₀ : ∀ s, init s → P s)
    (hstep : ∀ s s', P s → R s s' → P s') (h : Reachable init R s) : P s := by
  obtain ⟨s₀, hinit, hrun⟩ := h
  induction hrun with
  | refl => exact h₀ s₀ hinit
  | tail _ hr ih => exact hstep _ _ ih hr

/-- Fewer steps reach fewer states. -/
theorem Reachable.mono {R' : σ → σ → Prop} (hR : ∀ s s', R s s' → R' s s')
    (h : Reachable init R s) : Reachable init R' s := by
  obtain ⟨s₀, hinit, hrun⟩ := h
  exact ⟨s₀, hinit, Relation.ReflTransGen.mono hR _ _ hrun⟩

end Transition
