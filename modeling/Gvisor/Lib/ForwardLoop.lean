import Mathlib.Data.List.Basic

/-! Loops over a program with a counter that only moves forward, in the shape
`for pc := 0; pc < len(prog); pc++ { body }` where the body may add a
non-negative offset to `pc` or leave the loop. Whatever the body does, such a
loop runs at most `len(prog) - pc` iterations; an invariant that every
iteration keeps decides the result. -/
namespace ForwardLoop

variable {α σ ρ : Type}

/-- What one iteration does: skip `skip` further elements (the loop's own
increment comes on top) and continue with a new state, or return `r`. -/
inductive Step (σ ρ : Type) where
  | next (skip : ℕ) (s : σ)
  | done (r : ρ)

/-- The loop. The body sees the counter, the element under it and the state;
`exit` is what the loop returns once the counter leaves the program. -/
def run (prog : List α) (body : ℕ → α → σ → Step σ ρ) (exit : ℕ → σ → ρ)
    (pc : ℕ) (s : σ) : ρ :=
  if h : pc < prog.length then
    match body pc prog[pc] s with
    | .next skip s' => run prog body exit (pc + skip + 1) s'
    | .done r => r
  else exit pc s
termination_by prog.length - pc

/-- The loop with a bound on the number of iterations; `none` when the bound
runs out with the counter still inside the program. -/
def runFuel (prog : List α) (body : ℕ → α → σ → Step σ ρ) (exit : ℕ → σ → ρ) :
    ℕ → ℕ → σ → Option ρ
  | fuel, pc, s =>
    if h : pc < prog.length then
      match fuel with
      | 0 => none
      | fuel + 1 =>
        match body pc prog[pc] s with
        | .next skip s' => runFuel prog body exit fuel (pc + skip + 1) s'
        | .done r => some r
    else some (exit pc s)

variable {prog : List α} {body : ℕ → α → σ → Step σ ρ} {exit : ℕ → σ → ρ}

theorem run_of_lt {pc : ℕ} {s : σ} (h : pc < prog.length) :
    run prog body exit pc s =
      match body pc prog[pc] s with
      | .next skip s' => run prog body exit (pc + skip + 1) s'
      | .done r => r := by
  rw [run, dif_pos h]

theorem run_of_not_lt {pc : ℕ} {s : σ} (h : ¬pc < prog.length) :
    run prog body exit pc s = exit pc s := by
  rw [run, dif_neg h]

/-- Every iteration moves the counter by at least one, so `len(prog) - pc`
iterations always suffice, for any body. -/
theorem runFuel_eq_run {fuel pc : ℕ} {s : σ} (hfuel : prog.length - pc ≤ fuel) :
    runFuel prog body exit fuel pc s = some (run prog body exit pc s) := by
  induction fuel generalizing pc s with
  | zero =>
    have hpc : ¬pc < prog.length := by omega
    rw [runFuel, dif_neg hpc, run_of_not_lt hpc]
  | succ fuel ih =>
    by_cases hpc : pc < prog.length
    · rw [runFuel, dif_pos hpc, run_of_lt hpc]
      cases body pc prog[pc] s with
      | next skip s' => exact ih (by omega)
      | done r => rfl
    · rw [runFuel, dif_neg hpc, run_of_not_lt hpc]

/-- An iteration at `pc` keeps `P` and the counter inside the program, or
returns a result satisfying `Q`. -/
def Step.Keeps (n : ℕ) (P : ℕ → σ → Prop) (Q : ρ → Prop) (pc : ℕ) :
    Step σ ρ → Prop
  | .next skip s' => pc + skip + 1 < n ∧ P (pc + skip + 1) s'
  | .done r => Q r

@[simp] theorem Step.keeps_next {n : ℕ} {P : ℕ → σ → Prop} {Q : ρ → Prop} {pc skip : ℕ}
    {s : σ} : (Step.next skip s : Step σ ρ).Keeps n P Q pc ↔
      pc + skip + 1 < n ∧ P (pc + skip + 1) s := Iff.rfl

@[simp] theorem Step.keeps_done {n : ℕ} {P : ℕ → σ → Prop} {Q : ρ → Prop} {pc : ℕ} {r : ρ} :
    (Step.done r : Step σ ρ).Keeps n P Q pc ↔ Q r := Iff.rfl

/-- The invariant rule: if every iteration from a state satisfying `P` keeps
it, the loop started inside the program returns a result satisfying `Q`;
in particular it never reaches `exit`. -/
theorem run_induction (P : ℕ → σ → Prop) (Q : ρ → Prop)
    (hstep : ∀ pc s (h : pc < prog.length), P pc s →
      (body pc prog[pc] s).Keeps prog.length P Q pc)
    {pc : ℕ} {s : σ} (hpc : pc < prog.length) (hs : P pc s) :
    Q (run prog body exit pc s) := by
  rw [run_of_lt hpc]
  have hk := hstep pc s hpc hs
  revert hk
  cases body pc prog[pc] s with
  | next skip s' =>
    rintro ⟨hlt, hs'⟩
    exact run_induction P Q hstep hlt hs'
  | done r => exact id
termination_by prog.length - pc

end ForwardLoop
