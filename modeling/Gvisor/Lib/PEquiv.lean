import Mathlib.Data.PEquiv

/-! Two partial equivalences with disjoint domains and disjoint ranges combine
into one, which is the first where the first is defined and the second
elsewhere. -/

namespace PEquiv

variable {α β γ : Type*}

theorem trans_apply (f : α ≃. β) (g : β ≃. γ) (a : α) : f.trans g a = (f a).bind g := rfl

/-- `f` where it is defined, else `g`. -/
def orElse (f g : α ≃. β) (hdom : ∀ a, f a = none ∨ g a = none)
    (hran : ∀ b, f.symm b = none ∨ g.symm b = none) : α ≃. β where
  toFun a := (f a).or (g a)
  invFun b := (f.symm b).or (g.symm b)
  inv a b := by
    simp only [Option.or_eq_some_iff, f.eq_some_iff, g.eq_some_iff]
    constructor
    · rintro (h | ⟨-, h⟩)
      · exact .inl h
      · exact .inr ⟨(hdom a).resolve_right (by simp [h]), h⟩
    · rintro (h | ⟨-, h⟩)
      · exact .inl h
      · exact .inr ⟨(hran b).resolve_right (by simp [g.eq_some_iff.mpr h]), h⟩

@[simp] theorem orElse_apply (f g : α ≃. β) (hdom hran) (a : α) :
    orElse f g hdom hran a = (f a).or (g a) := rfl

@[simp] theorem orElse_symm_apply (f g : α ≃. β) (hdom hran) (b : β) :
    (orElse f g hdom hran).symm b = (f.symm b).or (g.symm b) := rfl

end PEquiv
