import Mathlib
import Gvisor.Bpf.Interpreter

/-! Safety of `Exec` on the programs `Compile` accepts. Each check of
`Compile` pays for one way `Exec` could go wrong: the opcode checks make every
instruction a case of `Exec`'s switch, the register and divisor checks rule out
its panics, the jump checks keep the counter inside the program, and the final
return stops the run before it falls off the end. -/
namespace Bpf
open ForwardLoop

theorem ite_some_eq_none {p : Prop} [Decidable p] {α : Type} {v : α} {o : Option α} :
    (if p then some v else o) = none ↔ ¬p ∧ o = none := by
  split_ifs <;> simp_all

/-! ### What `Compile` establishes -/

theorem validate_eq_none {n : ℕ} :
    ∀ {pc : ℕ} {l : List BPFInstruction}, validate n pc l = none ↔
      ∀ j (h : j < l.length), checkInstruction n (pc + j) l[j] = none
  | pc, [] => by simp [validate]
  | pc, i :: rest => by
    rw [validate]
    cases hc : checkInstruction n pc i with
    | some c =>
      simp only [reduceCtorEq, false_iff, not_forall]
      exact ⟨0, by simp, by simp [hc]⟩
    | none =>
      rw [validate_eq_none]
      constructor
      · intro h j hj
        cases j with
        | zero => simpa using hc
        | succ j =>
          have := h j (by simpa using hj)
          rwa [Nat.add_right_comm, Nat.add_assoc] at this
      · intro h j hj
        have := h (j + 1) (by simpa using hj)
        rwa [← Nat.add_assoc, Nat.add_right_comm] at this

/-- What `Compile` establishes about the instructions it accepts. -/
structure Validated (insns : List BPFInstruction) : Prop where
  length_pos : 0 < insns.length
  length_le : insns.length ≤ maxInstructions
  last_ret : ∀ last ∈ insns.getLast?, last.opCode = ret ||| k ∨ last.opCode = ret ||| a
  check : ∀ pc (h : pc < insns.length), checkInstruction insns.length pc insns[pc] = none

theorem compile_ok {insns : List BPFInstruction} {p : Program} (h : compile insns = .ok p) :
    p = ⟨insns⟩ ∧ Validated insns := by
  unfold compile at h
  split_ifs at h with hcount hlast
  cases hv : validate insns.length 0 insns with
  | some e => simp [hv] at h
  | none =>
    simp only [hv, Except.ok.injEq] at h
    refine ⟨h.symm, by omega, by omega, ?_, ?_⟩
    · intro last hl
      simp only [Option.any_eq_true, decide_eq_true_eq, not_exists, not_and] at hlast
      by_contra hne
      exact hlast last hl (not_or.mp hne).1 (not_or.mp hne).2
    · intro pc hpc
      simpa using validate_eq_none.mp hv pc hpc

/-- Only the last instruction may be the last one executed without a jump:
any other instruction that does not return has a successor. -/
theorem Validated.succ_lt {insns : List BPFInstruction} (hv : Validated insns) {pc : ℕ}
    (h : pc < insns.length) (hk : insns[pc].opCode ≠ ret ||| k)
    (ha : insns[pc].opCode ≠ ret ||| a) : pc + 1 < insns.length := by
  by_contra hge
  have hpc : pc = insns.length - 1 := by omega
  have hlast : insns[pc] ∈ insns.getLast? := by
    simp [List.getLast?_eq_getElem?, hpc]
  rcases hv.last_ret _ hlast with h' | h'
  · exact hk h'
  · exact ha h'

/-! ### Opcodes -/

theorem opCode_lt_of_mask {op : UInt16} (hmask : op &&& unusedBitsMask = 0) :
    op.toNat < 256 := by
  have hn : op.toNat &&& 0xff00 = 0 := by
    simpa [unusedBitsMask] using congrArg UInt16.toNat hmask
  -- The low byte and the unused bits make up the whole 16-bit word.
  have hfull : op.toNat &&& (0xff ||| 0xff00) = op.toNat := by
    rw [show (0xff ||| 0xff00 : ℕ) = 2 ^ 16 - 1 by decide, Nat.and_two_pow_sub_one_eq_mod,
      Nat.mod_eq_of_lt op.toNat_lt]
  rw [Nat.and_or_distrib_left, hn, Nat.or_zero, show (0xff : ℕ) = 2 ^ 8 - 1 by decide,
    Nat.and_two_pow_sub_one_eq_mod] at hfull
  omega

/-- Whether `Compile`'s check says `InvalidOpcode` depends on the opcode alone: the operands
only choose between the other outcomes, so operands that pass every other check stand for all. -/
theorem checkInstruction_eq_invalidOpcode {n pc : ℕ} {i : BPFInstruction} :
    checkInstruction n pc i = some .invalidOpcode ↔
      checkInstruction (2 ^ 40) 0 ⟨i.opCode, 0, 0, 1⟩ = some .invalidOpcode := by
  unfold checkInstruction
  -- both sides become the same tree of opcode tests, with `False` at every operand test
  simp only [apply_ite (· = some ErrorCode.invalidOpcode), Option.some.injEq, reduceCtorEq, ite_self]

/-- The table of the 256 one-byte opcodes: each one that is not a case of
`Exec`'s switch fails `Compile`'s check as `InvalidOpcode`, whatever its
operands. -/
theorem check_byte_of_ofCode_none (j : Fin 256) (n pc : ℕ) (jt jf : UInt8) (kk : UInt32)
    (hnone : Op.ofCode (UInt16.ofNat j) = none) :
    checkInstruction n pc ⟨UInt16.ofNat j, jt, jf, kk⟩ = some .invalidOpcode := by
  rw [checkInstruction_eq_invalidOpcode]
  dsimp only
  revert hnone
  revert j
  decide +kernel

/-- `Compile` rejects every opcode outside `Exec`'s switch, so its
`default` branch is unreachable on a compiled program. -/
theorem check_of_ofCode_none {n pc : ℕ} {i : BPFInstruction} (hnone : Op.ofCode i.opCode = none) :
    checkInstruction n pc i = some .invalidOpcode := by
  by_cases hmask : i.opCode &&& unusedBitsMask = 0
  · have hj := check_byte_of_ofCode_none ⟨i.opCode.toNat, opCode_lt_of_mask hmask⟩ n pc
      i.jumpIfTrue i.jumpIfFalse i.k
    simpa only [UInt16.ofNat_toNat, hnone, forall_const] using hj
  · simp [checkInstruction, hmask]

theorem ofCode_isSome_of_check {n pc : ℕ} {i : BPFInstruction}
    (h : checkInstruction n pc i = none) : ∃ o, Op.ofCode i.opCode = some o := by
  cases hc : Op.ofCode i.opCode with
  | none => simp [check_of_ofCode_none hc] at h
  | some o => exact ⟨o, rfl⟩

theorem Op.code_of_ofCode {c : UInt16} {o : Op} (h : Op.ofCode c = some o) : o.code = c := by
  simpa using List.find?_some h

theorem Op.ofCode_code (o : Op) : Op.ofCode o.code = some o := by
  cases o <;> decide

/-! ### One instruction -/

/-- The errors an instruction may stop `Exec` with at run time. -/
def Op.MayFail : Op → ErrorCode → Prop
  | .ldAbsW, c | .ldAbsH, c | .ldAbsB, c | .ldIndW, c | .ldIndH, c | .ldIndB, c
  | .ldxMshB, c => c = .invalidLoad
  | .aluDivX, c | .aluModX, c => c = .divisionByZero
  | _, _ => False

/-- How an instruction `o` at `pc` may stop the run: with a return value or
with an error it may fail with, never with a panic. -/
def StopsWell (pc : ℕ) (o : Op) : ExecResult → Prop
  | .ok _ => True
  | .error e => e.pc = pc ∧ o.MayFail e.code
  | .panic => False

section Keeps
variable {n pc : ℕ} {o : Op} {m : Machine}

theorem loadA_keeps (hn : pc + 1 < n) (ho : o.MayFail .invalidLoad) (v : Option UInt32) :
    (loadA pc m v).Keeps n (fun _ _ => True) (StopsWell pc o) pc := by
  cases v <;> simp [loadA, StopsWell, hn, ho]

theorem readM_keeps (hn : pc + 1 < n) {r : UInt32} (hr : r.toNat < scratchMemRegisters)
    (f : UInt32 → Machine) : (readM m r f).Keeps n (fun _ _ => True) (StopsWell pc o) pc := by
  simp [readM, hr, hn]

theorem writeM_keeps (hn : pc + 1 < n) {r : UInt32} (hr : r.toNat < scratchMemRegisters)
    (v : UInt32) : (writeM m r v).Keeps n (fun _ _ => True) (StopsWell pc o) pc := by
  simp [writeM, hr, hn]

theorem divideA_keeps (hn : pc + 1 < n) {d : UInt32} (hd : d ≠ 0)
    (f : UInt32 → UInt32 → UInt32) :
    (divideA m d f).Keeps n (fun _ _ => True) (StopsWell pc o) pc := by
  simp [divideA, hd, hn]

theorem divideAByX_keeps (hn : pc + 1 < n) (ho : o.MayFail .divisionByZero)
    (f : UInt32 → UInt32 → UInt32) :
    (divideAByX pc m f).Keeps n (fun _ _ => True) (StopsWell pc o) pc := by
  unfold divideAByX
  split_ifs <;> simp [StopsWell, hn, ho]

theorem conditional_keeps (i : BPFInstruction) (hjt : pc + i.jumpIfTrue.toNat + 1 < n)
    (hjf : pc + i.jumpIfFalse.toNat + 1 < n) (cond : Bool) :
    (Step.next (conditionalJumpOffset i cond) m : LoopStep).Keeps n (fun _ _ => True)
      (StopsWell pc o) pc := by
  cases cond <;> simp [conditionalJumpOffset, hjt, hjf]

end Keeps

/-- The step lemma: an instruction that passed `Compile`'s check either
continues strictly forward inside the program or stops well. The operand
facts each case needs come out of the check at the case's opcode. -/
theorem execOp_keeps {n pc : ℕ} {i : BPFInstruction} {o : Op} (input : Input) (m : Machine)
    (hc : i.opCode = o.code) (hi : checkInstruction n pc i = none)
    (hnext : o ≠ .retK → o ≠ .retA → pc + 1 < n) :
    (execOp input pc i m o).Keeps n (fun _ _ => True) (StopsWell pc o) pc := by
  cases o
  all_goals simp +decide [checkInstruction, hc, Op.code, ite_some_eq_none] at hi
  all_goals simp only [ne_eq, reduceCtorEq, not_false_eq_true, forall_const] at hnext
  -- Returns stop with their value.
  case retK | retA => simp [execOp, StopsWell]
  -- Jumps land where `Compile` checked.
  case jmpJa => simp only [execOp, Step.keeps_next, and_true]; omega
  case jmpJeqK | jmpJeqX | jmpJgtK | jmpJgtX | jmpJgeK | jmpJgeX | jmpJsetK | jmpJsetX =>
    exact conditional_keeps i (by omega) (by omega) _
  -- Input loads may fail; the failure is `InvalidLoad`.
  case ldAbsW | ldAbsH | ldAbsB | ldIndW | ldIndH | ldIndB =>
    exact loadA_keeps hnext (by simp [Op.MayFail]) _
  case ldxMshB =>
    simp only [execOp]
    split <;> simp [StopsWell, Op.MayFail, hnext]
  -- `M` accesses are in range.
  case ldMemW | ldxMemW => simp only [execOp]; exact readM_keeps hnext hi _
  case st | stx => exact writeM_keeps hnext hi _
  -- A constant divisor is not zero; a zero `X` is `DivisionByZero`.
  case aluDivK | aluModK => exact divideA_keeps hnext (by simpa using hi) _
  case aluDivX | aluModX => exact divideAByX_keeps hnext (by simp [Op.MayFail]) _
  -- Everything else moves to the next instruction.
  all_goals simp [execOp, hnext]

/-! ### The whole run -/

/-- The results `Exec` may give on the program `insns`: a return value, or an
error raised at a run-time check of the instruction the error names. -/
def Allowed (insns : List BPFInstruction) : ExecResult → Prop
  | .ok _ => True
  | .error e => ∃ i ∈ insns[e.pc]?, ∃ o, Op.ofCode i.opCode = some o ∧ o.MayFail e.code
  | .panic => False

theorem execInstruction_keeps {insns : List BPFInstruction} (hv : Validated insns)
    (input : Input) {pc : ℕ} (h : pc < insns.length) (m : Machine) :
    (execInstruction input pc insns[pc] m).Keeps insns.length (fun _ _ => True)
      (Allowed insns) pc := by
  obtain ⟨o, ho⟩ := ofCode_isSome_of_check (hv.check pc h)
  have hc : insns[pc].opCode = o.code := (Op.code_of_ofCode ho).symm
  have hnext : o ≠ .retK → o ≠ .retA → pc + 1 < insns.length := by
    intro hk ha
    refine hv.succ_lt h ?_ ?_
    · intro he
      exact hk (Option.some.inj (ho.symm.trans (he ▸ Op.ofCode_code .retK)))
    · intro he
      exact ha (Option.some.inj (ho.symm.trans (he ▸ Op.ofCode_code .retA)))
  have hkeep := execOp_keeps input m hc (hv.check pc h) hnext
  simp only [execInstruction, ho]
  revert hkeep
  cases execOp input pc insns[pc] m o with
  | next skip s => exact id
  | done r =>
    simp only [Step.keeps_done]
    cases r with
    | ok v => simp [Allowed]
    | error e =>
      rintro ⟨rfl, hf⟩
      exact ⟨insns[e.pc], by simp [h], o, ho, hf⟩
    | panic => simp [StopsWell]

/-- `Exec` is safe on every program `Compile` accepts, for every input: it
finishes within `len(insns)` iterations of its loop, never panics (no `M`
index out of range, no division by a constant zero), never falls off the end,
and its only errors are an `InvalidLoad` at an input load or a
`DivisionByZero` at a `Div|X` or `Mod|X`. -/
theorem exec_safe {insns : List BPFInstruction} {p : Program} (h : compile insns = .ok p)
    (input : Input) :
    execFuel p input insns.length = some (exec p input) ∧ Allowed insns (exec p input) := by
  obtain ⟨rfl, hv⟩ := compile_ok h
  refine ⟨ForwardLoop.runFuel_eq_run (by simp), ?_⟩
  exact ForwardLoop.run_induction (fun _ _ => True) (Allowed insns)
    (fun pc m hpc _ => execInstruction_keeps hv input hpc m) hv.length_pos trivial

/-- `ld [4]; jeq #1, 0, 1; ret #1; ret a` over an input of eight bytes of
`0xff`: it compiles, and the theorem applies. -/
theorem exec_safe_four :
    compile [stmt (ld ||| abs ||| w) 4, jump (jmp ||| jeq ||| k) 1 0 1, stmt (ret ||| k) 1,
        stmt (ret ||| a) 0] =
      .ok ⟨[stmt (ld ||| abs ||| w) 4, jump (jmp ||| jeq ||| k) 1 0 1, stmt (ret ||| k) 1,
        stmt (ret ||| a) 0]⟩ ∧
    execFuel ⟨[stmt (ld ||| abs ||| w) 4, jump (jmp ||| jeq ||| k) 1 0 1, stmt (ret ||| k) 1,
        stmt (ret ||| a) 0]⟩ ⟨fun o => if o.toNat + 4 ≤ 8 then some 0xffffffff else none,
          fun _ => none, fun _ => none, 8⟩ 4 =
      some (exec ⟨[stmt (ld ||| abs ||| w) 4, jump (jmp ||| jeq ||| k) 1 0 1,
        stmt (ret ||| k) 1, stmt (ret ||| a) 0]⟩
          ⟨fun o => if o.toNat + 4 ≤ 8 then some 0xffffffff else none,
            fun _ => none, fun _ => none, 8⟩) ∧
    Allowed [stmt (ld ||| abs ||| w) 4, jump (jmp ||| jeq ||| k) 1 0 1, stmt (ret ||| k) 1,
        stmt (ret ||| a) 0]
      (exec ⟨[stmt (ld ||| abs ||| w) 4, jump (jmp ||| jeq ||| k) 1 0 1,
        stmt (ret ||| k) 1, stmt (ret ||| a) 0]⟩
          ⟨fun o => if o.toNat + 4 ≤ 8 then some 0xffffffff else none,
            fun _ => none, fun _ => none, 8⟩) :=
  have hc : compile [stmt (ld ||| abs ||| w) 4, jump (jmp ||| jeq ||| k) 1 0 1,
      stmt (ret ||| k) 1, stmt (ret ||| a) 0] =
      .ok ⟨[stmt (ld ||| abs ||| w) 4, jump (jmp ||| jeq ||| k) 1 0 1, stmt (ret ||| k) 1,
        stmt (ret ||| a) 0]⟩ := by rfl
  ⟨hc, exec_safe hc _⟩

end Bpf
