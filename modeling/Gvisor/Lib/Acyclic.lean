import Mathlib.Logic.Relation
import Mathlib.Data.Fintype.Card

/-! Acyclic relations, and what adding one edge does to them. A relation is
acyclic when no element reaches itself in one step or more. A path of the
relation with the edge `a → b` added either avoids the edge or passes `a` and
then `b`; so the edge keeps the relation acyclic exactly when `b` does not reach
`a`. A smaller relation of an acyclic one is acyclic.

`Path R n a b` is a path of exactly `n` steps, for statements about how long
the paths of a relation are. An acyclic relation whose steps all start in a
finite set is well-founded read backwards: every descent along it ends. -/

namespace Relation

variable {α : Type*} {R R' : α → α → Prop} {a b x y : α}

def Acyclic (R : α → α → Prop) : Prop := ∀ x, ¬ TransGen R x x

/-- The relation with the edge `a → b` added. -/
def AddEdge (R : α → α → Prop) (a b : α) (x y : α) : Prop := R x y ∨ x = a ∧ y = b

theorem Acyclic.mono (h : Acyclic R) (hR : ∀ x y, R' x y → R x y) : Acyclic R' :=
  fun x hx => h x (TransGen.mono hR x x hx)

/-- A path that may use the new edge either does not, or reaches `a` first and
goes on from `b`. -/
theorem reflTransGen_addEdge (h : ReflTransGen (AddEdge R a b) x y) :
    ReflTransGen R x y ∨ ReflTransGen R x a ∧ ReflTransGen (AddEdge R a b) b y := by
  induction h with
  | refl => exact .inl .refl
  | @tail y z _ hyz ih =>
    rcases hyz with hR | ⟨rfl, rfl⟩
    · rcases ih with hxy | ⟨hxa, hby⟩
      · exact .inl (hxy.tail hR)
      · exact .inr ⟨hxa, hby.tail (.inl hR)⟩
    · rcases ih with hxy | ⟨hxa, hby⟩
      · exact .inr ⟨hxy, .refl⟩
      · exact .inr ⟨hxa, hby.tail (.inr ⟨rfl, rfl⟩)⟩

theorem transGen_addEdge (h : TransGen (AddEdge R a b) x y) :
    TransGen R x y ∨ ReflTransGen R x a ∧ ReflTransGen (AddEdge R a b) b y := by
  obtain ⟨z, hxz, hzy⟩ := TransGen.tail'_iff.1 h
  rcases hzy with hR | ⟨rfl, rfl⟩
  · rcases reflTransGen_addEdge hxz with hxz' | ⟨hxa, hbz⟩
    · exact .inl (TransGen.tail' hxz' hR)
    · exact .inr ⟨hxa, hbz.tail (.inl hR)⟩
  · rcases reflTransGen_addEdge hxz with hxz' | ⟨hxa, hbz⟩
    · exact .inr ⟨hxz', .refl⟩
    · exact .inr ⟨hxa, hbz.tail (.inr ⟨rfl, rfl⟩)⟩

/-- From `b`, which does not reach `a`, the new edge is never taken. -/
theorem reflTransGen_of_addEdge (hba : ¬ ReflTransGen R b a)
    (h : ReflTransGen (AddEdge R a b) b y) :
    ReflTransGen R b y := by
  induction h with
  | refl => exact .refl
  | @tail y z _ hyz ih =>
    rcases hyz with hR | ⟨rfl, rfl⟩
    · exact ih.tail hR
    · exact absurd ih hba

/-- An edge `a → b` keeps an acyclic relation acyclic when `b` does not reach
`a`. -/
theorem Acyclic.addEdge (h : Acyclic R) (hba : ¬ ReflTransGen R b a) :
    Acyclic (AddEdge R a b) := by
  intro x hx
  rcases transGen_addEdge hx with hxx | ⟨hxa, hbx⟩
  · exact h x hxx
  · exact hba ((reflTransGen_of_addEdge hba hbx).trans hxa)

/-- A path of `n` steps of `R` from `a` to `b`. -/
inductive Path (R : α → α → Prop) : ℕ → α → α → Prop
  | refl (a : α) : Path R 0 a a
  | cons {a b c : α} {n : ℕ} : R a b → Path R n b c → Path R (n + 1) a c

theorem Path.single (h : R a b) : Path R 1 a b := .cons h (.refl b)

theorem Path.transGen {n : ℕ} (p : Path R n a b) (hn : 0 < n) : TransGen R a b := by
  induction p with
  | refl => omega
  | @cons a b c n hab _ ih =>
    rcases Nat.eq_zero_or_pos n with rfl | hn'
    · cases ‹Path R 0 b c›
      exact .single hab
    · exact .head hab (ih hn')

theorem TransGen.exists_path (h : TransGen R a b) : ∃ n, 0 < n ∧ Path R n a b := by
  induction h using TransGen.head_induction_on with
  | single hab => exact ⟨1, by omega, .single hab⟩
  | head hac _ ih =>
    obtain ⟨n, -, p⟩ := ih
    exact ⟨n + 1, by omega, .cons hac p⟩

/-- A path of `n` steps starts with one of each shorter length. -/
theorem Path.exists_prefix {n m : ℕ} (p : Path R n a c) (hm : m ≤ n) : ∃ b, Path R m a b := by
  induction p generalizing m with
  | refl a =>
    obtain rfl := Nat.le_zero.1 hm
    exact ⟨a, .refl a⟩
  | cons hab _ ih =>
    cases m with
    | zero => exact ⟨_, .refl _⟩
    | succ m =>
      obtain ⟨b', p'⟩ := ih (m := m) (by omega)
      exact ⟨b', .cons hab p'⟩

/-- An acyclic relation whose steps all start in a finite set has no infinite
descent: read backwards it is well-founded. -/
theorem Acyclic.wellFounded (h : Acyclic R) {s : Set α} (hs : s.Finite)
    (hR : ∀ x y, R x y → x ∈ s) : WellFounded (Function.swap R) := by
  have hout : ∀ x, x ∉ s → Acc (Function.swap R) x := fun x hx =>
    Acc.intro x fun y hxy => absurd (hR x y hxy) hx
  -- on `s`, the transitive closure is a strict order of a finite type
  let r : s → s → Prop := fun y x => TransGen R x y
  have : Finite s := hs.to_subtype
  have : IsTrans s r := ⟨fun _ _ _ hab hbc => hbc.trans hab⟩
  have : Std.Irrefl r := ⟨fun x hx => h x hx⟩
  have hin : ∀ x : s, Acc (Function.swap R) x.1 := by
    intro x
    induction x using (Finite.wellFounded_of_trans_of_irrefl r).induction with
    | _ x ih =>
      refine Acc.intro _ fun y hxy => ?_
      by_cases hy : y ∈ s
      · exact ih ⟨y, hy⟩ (.single hxy)
      · exact hout y hy
  refine ⟨fun x => ?_⟩
  by_cases hx : x ∈ s
  · exact hin ⟨x, hx⟩
  · exact hout x hx

end Relation
