import Mathlib.Data.List.Forall2

/-! What a call of an imperative procedure does: return a value, fail with an
error, never return (`hang`), or abort (`panic`). `do` blocks sequence calls,
and a later call runs only when the earlier ones returned. -/

inductive Outcome (ε α : Type) where
  | ok (a : α)
  | error (e : ε)
  | hang
  | panic
  deriving DecidableEq, Repr

namespace Outcome

variable {ε α β : Type}

def bind : Outcome ε α → (α → Outcome ε β) → Outcome ε β
  | .ok a, f => f a
  | .error e, _ => .error e
  | .hang, _ => .hang
  | .panic, _ => .panic

instance : Monad (Outcome ε) where
  pure := .ok
  bind := bind

instance : LawfulMonad (Outcome ε) :=
  LawfulMonad.mk' (Outcome ε) (fun x => by cases x <;> rfl) (fun _ _ => rfl)
    (fun x _ _ => by cases x <;> rfl)

@[simp] theorem pure_eq (a : α) : (pure a : Outcome ε α) = .ok a := rfl

@[simp] theorem ok_bind (a : α) (f : α → Outcome ε β) : (Outcome.ok a >>= f) = f a := rfl

@[simp] theorem error_bind (e : ε) (f : α → Outcome ε β) : (Outcome.error e >>= f) = .error e :=
  rfl

@[simp] theorem hang_bind (f : α → Outcome ε β) : ((Outcome.hang : Outcome ε α) >>= f) = .hang :=
  rfl

@[simp] theorem panic_bind (f : α → Outcome ε β) : ((Outcome.panic : Outcome ε α) >>= f) = .panic :=
  rfl

@[simp] theorem bind_ok_right (x : Outcome ε α) : (x >>= fun a => Outcome.ok a) = x := by
  cases x <;> rfl

theorem bind_eq_ok {x : Outcome ε α} {f : α → Outcome ε β} {b : β} :
    (x >>= f) = .ok b ↔ ∃ a, x = .ok a ∧ f a = .ok b := by
  cases x <;> simp

theorem bind_eq_hang {x : Outcome ε α} {f : α → Outcome ε β} :
    (x >>= f) = .hang ↔ x = .hang ∨ ∃ a, x = .ok a ∧ f a = .hang := by
  cases x <;> simp

/-- A value that may be missing, a panic where it is: a read past the end of
a slice. -/
def ofOption : Option α → Outcome ε α
  | some a => .ok a
  | none => .panic

theorem ofOption_eq_ok {o : Option α} {a : α} : (ofOption o : Outcome ε α) = .ok a ↔ o = some a := by
  cases o <;> simp [ofOption]

/-- A loop given fuel: what it returned, or `hang` where the fuel ran out. -/
def ofFuel : Option α → Outcome ε α
  | some a => .ok a
  | none => .hang

@[simp] theorem ofFuel_some (a : α) : (ofFuel (some a) : Outcome ε α) = .ok a := rfl

@[simp] theorem map_eq_panic {f : α → β} {x : Outcome ε α} : (f <$> x) = .panic ↔ x = .panic := by
  cases x <;> simp [Functor.map, Outcome.bind]

/-- A `mapM` that returns relates each element of the list to the value its
call returned. -/
theorem mapM_eq_ok {γ : Type} {f : γ → Outcome ε α} :
    ∀ {l : List γ} {r : List α}, l.mapM f = .ok r → List.Forall₂ (fun c a => f c = .ok a) l r
  | [], r, h => by
    rw [List.mapM_nil, pure_eq] at h
    cases h
    exact .nil
  | c :: l, r, h => by
    rw [List.mapM_cons] at h
    obtain ⟨a, ha, h⟩ := bind_eq_ok.1 h
    obtain ⟨as, has, h⟩ := bind_eq_ok.1 h
    rw [pure_eq] at h
    obtain rfl : a :: as = r := ok.inj h
    exact .cons ha (mapM_eq_ok has)

/-- What every returning call of a `mapM` gives, every returned value has. -/
theorem mapM_eq_ok_forall_mem {γ : Type} {f : γ → Outcome ε α} {Q : α → Prop}
    (hf : ∀ c a, f c = .ok a → Q a) {l : List γ} {r : List α} (h : l.mapM f = .ok r) :
    ∀ a ∈ r, Q a := by
  have hr := mapM_eq_ok h
  clear h
  induction hr with
  | nil => simp
  | cons hc _ ih =>
    intro a ha
    rcases List.mem_cons.1 ha with rfl | ha
    · exact hf _ _ hc
    · exact ih a ha

/-- A view `g` of each returned value that the call fixes from its argument
as `k` does gives the returned list as `k` maps the arguments. -/
theorem mapM_eq_ok_map {γ δ : Type} {f : γ → Outcome ε α} {g : α → δ} {k : γ → δ}
    (hf : ∀ c a, f c = .ok a → g a = k c) {l : List γ} {r : List α} (h : l.mapM f = .ok r) :
    r.map g = l.map k := by
  have hr := mapM_eq_ok h
  clear h
  induction hr with
  | nil => rfl
  | cons hc _ ih => rw [List.map_cons, List.map_cons, hf _ _ hc, ih]

/-- An invariant of the prefix of the list folded so far, which each step
keeps, holds of the whole list when the fold returns. -/
theorem foldlM_eq_ok_induction {γ : Type} {P : List γ → α → Prop} {f : α → γ → Outcome ε α}
    (hstep : ∀ pre c a a', P pre a → f a c = .ok a' → P (pre ++ [c]) a') :
    ∀ {l : List γ} {pre : List γ} {a a' : α}, P pre a → l.foldlM f a = .ok a' → P (pre ++ l) a'
  | [], pre, a, a', ha, h => by
    cases h
    simpa using ha
  | c :: l, pre, a, a', ha, h => by
    rw [List.foldlM_cons] at h
    obtain ⟨b, hb, hrest⟩ := bind_eq_ok.1 h
    have := foldlM_eq_ok_induction hstep (hstep pre c a b ha hb) hrest
    simpa using this

/-- The call comes back, and what it returns satisfies `P`: an error or a
panic also comes back, a hang never does. An inductive predicate, so that
stating it never computes the call. -/
inductive Returns (P : α → Prop) : Outcome ε α → Prop
  | ok {a : α} : P a → Returns P (.ok a)
  | error (e : ε) : Returns P (.error e)
  | panic : Returns P .panic

@[simp] theorem returns_ok {P : α → Prop} {a : α} : Returns P (.ok a : Outcome ε α) ↔ P a :=
  ⟨fun | .ok h => h, .ok⟩

theorem Returns.ne_hang {P : α → Prop} {x : Outcome ε α} (h : Returns P x) : x ≠ .hang := by
  cases h <;> simp

theorem Returns.bind {P : α → Prop} {Q : β → Prop} {x : Outcome ε α} {f : α → Outcome ε β}
    (hx : Returns P x) (hf : ∀ a, P a → Returns Q (f a)) : Returns Q (x >>= f) := by
  cases hx with
  | ok h => exact hf _ h
  | error e => exact .error e
  | panic => exact .panic

/-- A fold whose step keeps an invariant, for each element of the list,
keeps it. -/
theorem Returns.foldlM {γ : Type} {P : α → Prop} {f : α → γ → Outcome ε α} :
    ∀ {l : List γ}, (∀ a, ∀ c ∈ l, P a → Returns P (f a c)) → ∀ a, P a →
      Returns P (l.foldlM f a)
  | [], _, _, ha => .ok ha
  | c :: _, hf, a, ha =>
    (hf a c List.mem_cons_self ha).bind fun a' ha' =>
      Returns.foldlM (fun b d hd => hf b d (List.mem_cons_of_mem c hd)) a' ha'

/-- A `mapM` whose function returns a value satisfying `Q` on each element of
the list returns a list of such values. -/
theorem Returns.mapM {γ : Type} {Q : α → Prop} {f : γ → Outcome ε α} :
    ∀ {l : List γ}, (∀ c ∈ l, Returns Q (f c)) →
      Returns (fun as => ∀ a ∈ as, Q a) (l.mapM f)
  | [], _ => by simp [List.mapM_nil]
  | c :: _, hf => by
    rw [List.mapM_cons]
    refine (hf c List.mem_cons_self).bind fun a ha =>
      (Returns.mapM fun d hd => hf d (List.mem_cons_of_mem c hd)).bind fun as has => ?_
    simp only [pure_eq, returns_ok, List.mem_cons, forall_eq_or_imp]
    exact ⟨ha, has⟩

end Outcome
