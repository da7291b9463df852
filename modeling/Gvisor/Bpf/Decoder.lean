import Gvisor.Bpf.Safety

/-! `Decode` and `DecodeProgram` (pkg/bpf/decoder.go): the text of an
instruction, in the notation of Linux's filter documentation. Each `%v` of a
number is its decimal text. An error is named by the `decode*` function that
returns it; its message, `fmt.Errorf` of the instruction, is not modelled. The
one instruction where this text and `Exec` disagree is `Misc|Tax`. -/

namespace Bpf

/-- The `fmt.Errorf` results of the decoder, by the function that returns them. -/
inductive DecodeError where
  | invalidInstruction (inst : BPFInstruction)
  | invalidLd (inst : BPFInstruction)
  | invalidLdSize (inst : BPFInstruction)
  | invalidLdx (inst : BPFInstruction)
  | invalidAlu (inst : BPFInstruction)
  | invalidSource (inst : BPFInstruction)
  | invalidJmp (inst : BPFInstruction)
  | invalidRet (inst : BPFInstruction)
  | invalidMisc (inst : BPFInstruction)
  deriving DecidableEq, Repr

/-- `decodeLdSize`. -/
def decodeLdSize (inst : BPFInstruction) : Except DecodeError String :=
  let code := inst.opCode &&& loadSizeMask
  if code = w then .ok "4"
  else if code = h then .ok "2"
  else if code = b then .ok "1"
  else .error (.invalidLdSize inst)

/-- `decodeLd`: `A <- P[k:4]` and the like. -/
def decodeLd (inst : BPFInstruction) : Except DecodeError String := do
  let mode := inst.opCode &&& loadModeMask
  if mode = imm then pure ("A <- " ++ toString inst.k)
  else if mode = abs then pure ("A <- P[" ++ toString inst.k ++ ":" ++ (← decodeLdSize inst) ++ "]")
  else if mode = ind then pure ("A <- P[X+" ++ toString inst.k ++ ":" ++ (← decodeLdSize inst) ++ "]")
  else if mode = mem then pure ("A <- M[" ++ toString inst.k ++ "]")
  else if mode = len then pure "A <- len"
  else .error (.invalidLd inst)

/-- `decodeLdx`. -/
def decodeLdx (inst : BPFInstruction) : Except DecodeError String :=
  let mode := inst.opCode &&& loadModeMask
  if mode = imm then .ok ("X <- " ++ toString inst.k)
  else if mode = mem then .ok ("X <- M[" ++ toString inst.k ++ "]")
  else if mode = len then .ok "X <- len"
  else if mode = msh then .ok ("X <- 4*(P[" ++ toString inst.k ++ ":1]&0xf)")
  else .error (.invalidLdx inst)

/-- `decodeSource`: `K` or `X`. -/
def decodeSource (inst : BPFInstruction) : Except DecodeError String :=
  let src := inst.opCode &&& srcAluJmpMask
  if src = k then .ok (toString inst.k)
  else if src = x then .ok "X"
  else .error (.invalidSource inst)

/-- The operator text of each ALU code, `none` for a code that is not one. -/
def aluOperator (code : UInt16) : Option String :=
  if code = add then some "+ "
  else if code = sub then some "- "
  else if code = mul then some "* "
  else if code = div then some "/ "
  else if code = or then some "| "
  else if code = and then some "& "
  else if code = lsh then some "<< "
  else if code = rsh then some ">> "
  else if code = mod then some "% "
  else if code = xor then some "^ "
  else none

/-- `decodeAlu`: `A <- A + k` and the like. -/
def decodeAlu (inst : BPFInstruction) : Except DecodeError String := do
  let code := inst.opCode &&& aluMask
  if code = neg then pure "A <- -A"
  else
    match aluOperator code with
    | some op => pure ("A <- A " ++ op ++ (← decodeSource inst))
    | none => .error (.invalidAlu inst)

/-- `printJmpTarget`: the offset, and with a line number the line it lands on. -/
def printJmpTarget (target : UInt32) (line : Int) : String :=
  if line = -1 then toString target
  else toString target ++ " [" ++ toString ((target.toNat : Int) + line + 1) ++ "]"

/-- The comparison text of each conditional jump code. -/
def jmpOperator (code : UInt16) : Option String :=
  if code = jeq then some "== "
  else if code = jgt then some "> "
  else if code = jge then some ">= "
  else if code = jset then some "& "
  else none

/-- `decodeJmp`: `pc += (A > k) ? jt : jf` and the like. -/
def decodeJmp (inst : BPFInstruction) (line : Int) : Except DecodeError String := do
  let code := inst.opCode &&& jmpMask
  if code = ja then pure ("pc += " ++ printJmpTarget inst.k line)
  else
    match jmpOperator code with
    | some op =>
      pure ("pc += (A " ++ op ++ (← decodeSource inst) ++ ") ? " ++
        printJmpTarget inst.jumpIfTrue.toUInt32 line ++ " : " ++ printJmpTarget inst.jumpIfFalse.toUInt32 line)
    | none => .error (.invalidJmp inst)

/-- `decodeRet`. -/
def decodeRet (inst : BPFInstruction) : Except DecodeError String :=
  let code := inst.opCode &&& srcRetMask
  if code = k then .ok ("ret " ++ toString inst.k)
  else if code = a then .ok "ret A"
  else .error (.invalidRet inst)

/-- `decodeMisc`: `Tax` is printed as `X <- A` and `Txa` as `A <- X`, the
meaning Linux gives them. -/
def decodeMisc (inst : BPFInstruction) : Except DecodeError String :=
  let code := inst.opCode &&& miscMask
  if code = tax then .ok "X <- A"
  else if code = txa then .ok "A <- X"
  else .error (.invalidMisc inst)

/-- `decode`, by instruction class; `line` is `-1` for `Decode`. -/
def decode (inst : BPFInstruction) (line : Int) : Except DecodeError String :=
  let cls := inst.opCode &&& instructionClassMask
  if cls = ld then decodeLd inst
  else if cls = ldx then decodeLdx inst
  else if cls = st then .ok ("M[" ++ toString inst.k ++ "] <- A")
  else if cls = stx then .ok ("M[" ++ toString inst.k ++ "] <- X")
  else if cls = alu then decodeAlu inst
  else if cls = jmp then decodeJmp inst line
  else if cls = ret then decodeRet inst
  else if cls = misc then decodeMisc inst
  else .error (.invalidInstruction inst)

/-- `Decode`. -/
def Decode (inst : BPFInstruction) : Except DecodeError String := decode inst (-1)

/-- The lines of `DecodeProgram` from line `line` on. -/
def decodeLines : ℕ → List BPFInstruction → Except DecodeError String
  | _, [] => .ok ""
  | line, inst :: rest => do
    let text ← decode inst line
    let more ← decodeLines (line + 1) rest
    pure (toString line ++ ": " ++ text ++ "\n" ++ more)

/-- `DecodeProgram`. -/
def decodeProgram (program : List BPFInstruction) : Except DecodeError String :=
  decodeLines 0 program

/-! ### Each decoder on the opcodes `Exec` runs -/

section Decoders

variable {inst : BPFInstruction}

theorem decodeLdSize_ok (hs : inst.opCode &&& loadSizeMask = w ∨ inst.opCode &&& loadSizeMask = h ∨
    inst.opCode &&& loadSizeMask = b) : ∃ s, decodeLdSize inst = .ok s := by
  rcases hs with hs | hs | hs <;> simp [decodeLdSize, hs, w, h, b]

/-- The modes of `decodeLd` that read no packet bytes. -/
theorem decodeLd_ok_of_mode (hm : inst.opCode &&& loadModeMask = imm ∨
    inst.opCode &&& loadModeMask = mem ∨ inst.opCode &&& loadModeMask = len) :
    ∃ s, decodeLd inst = .ok s := by
  rcases hm with hm | hm | hm
  · simp [decodeLd, hm, imm, pure, Except.pure]
  · simp [decodeLd, hm, imm, abs, ind, mem, pure, Except.pure]
  · simp [decodeLd, hm, imm, abs, ind, mem, len, pure, Except.pure]

/-- The packet modes of `decodeLd`, which also print the size. -/
theorem decodeLd_ok_of_packet (hm : inst.opCode &&& loadModeMask = abs ∨
    inst.opCode &&& loadModeMask = ind) (hs : ∃ s, decodeLdSize inst = .ok s) :
    ∃ s, decodeLd inst = .ok s := by
  obtain ⟨s, hs⟩ := hs
  rcases hm with hm | hm <;> simp [decodeLd, hm, hs, imm, abs, ind, bind, Except.bind, pure, Except.pure]

theorem decodeLdx_ok (hm : inst.opCode &&& loadModeMask = imm ∨ inst.opCode &&& loadModeMask = mem ∨
    inst.opCode &&& loadModeMask = len ∨ inst.opCode &&& loadModeMask = msh) :
    ∃ s, decodeLdx inst = .ok s := by
  rcases hm with hm | hm | hm | hm <;> simp [decodeLdx, hm, imm, mem, len, msh]

theorem decodeSource_ok (hs : inst.opCode &&& srcAluJmpMask = k ∨ inst.opCode &&& srcAluJmpMask = x) :
    ∃ s, decodeSource inst = .ok s := by
  rcases hs with hs | hs <;> simp [decodeSource, hs, k, x]

theorem decodeAlu_ok_of_neg (hc : inst.opCode &&& aluMask = neg) : ∃ s, decodeAlu inst = .ok s := by
  simp [decodeAlu, hc, pure, Except.pure]

/-- An ALU code other than `neg` prints its operator and its source. -/
theorem decodeAlu_ok_of_operator (hc : (aluOperator (inst.opCode &&& aluMask)).isSome)
    (hs : ∃ s, decodeSource inst = .ok s) : ∃ s, decodeAlu inst = .ok s := by
  obtain ⟨op, hop⟩ := Option.isSome_iff_exists.1 hc
  obtain ⟨s, hs⟩ := hs
  by_cases hn : inst.opCode &&& aluMask = neg
  · exact decodeAlu_ok_of_neg hn
  · simp [decodeAlu, hn, hop, hs, bind, Except.bind, pure, Except.pure]

theorem decodeJmp_ok_of_ja (line : Int) (hc : inst.opCode &&& jmpMask = ja) :
    ∃ s, decodeJmp inst line = .ok s := by
  simp [decodeJmp, hc, pure, Except.pure]

/-- A conditional jump prints its comparison and its source. -/
theorem decodeJmp_ok_of_operator (line : Int) (hc : (jmpOperator (inst.opCode &&& jmpMask)).isSome)
    (hs : ∃ s, decodeSource inst = .ok s) : ∃ s, decodeJmp inst line = .ok s := by
  obtain ⟨op, hop⟩ := Option.isSome_iff_exists.1 hc
  obtain ⟨s, hs⟩ := hs
  by_cases hn : inst.opCode &&& jmpMask = ja
  · exact decodeJmp_ok_of_ja line hn
  · simp [decodeJmp, hn, hop, hs, bind, Except.bind, pure, Except.pure]

theorem decodeRet_ok (hc : inst.opCode &&& srcRetMask = k ∨ inst.opCode &&& srcRetMask = a) :
    ∃ s, decodeRet inst = .ok s := by
  rcases hc with hc | hc <;> simp [decodeRet, hc, k, a]

theorem decodeMisc_ok (hc : inst.opCode &&& miscMask = tax ∨ inst.opCode &&& miscMask = txa) :
    ∃ s, decodeMisc inst = .ok s := by
  rcases hc with hc | hc <;> simp [decodeMisc, hc, tax, txa]

end Decoders

/-- `decode` is the decoder of the instruction's class. -/
theorem decode_ok_iff {inst : BPFInstruction} {line : Int} : (∃ s, decode inst line = .ok s) ↔
    (inst.opCode &&& instructionClassMask = ld ∧ ∃ s, decodeLd inst = .ok s) ∨
    (inst.opCode &&& instructionClassMask = ldx ∧ ∃ s, decodeLdx inst = .ok s) ∨
    inst.opCode &&& instructionClassMask = st ∨ inst.opCode &&& instructionClassMask = stx ∨
    (inst.opCode &&& instructionClassMask = alu ∧ ∃ s, decodeAlu inst = .ok s) ∨
    (inst.opCode &&& instructionClassMask = jmp ∧ ∃ s, decodeJmp inst line = .ok s) ∨
    (inst.opCode &&& instructionClassMask = ret ∧ ∃ s, decodeRet inst = .ok s) ∨
    (inst.opCode &&& instructionClassMask = misc ∧ ∃ s, decodeMisc inst = .ok s) := by
  unfold decode
  dsimp only
  generalize inst.opCode &&& instructionClassMask = cls
  -- the classes are eight distinct constants, tested in turn
  split_ifs <;> subst_vars <;> simp_all [ld, ldx, st, stx, alu, jmp, ret, misc]

section Classes
variable {inst : BPFInstruction} {line : Int}

theorem decode_ok_of_ld (hc : inst.opCode &&& instructionClassMask = ld)
    (h : ∃ s, decodeLd inst = .ok s) : ∃ s, decode inst line = .ok s :=
  decode_ok_iff.2 (.inl ⟨hc, h⟩)

theorem decode_ok_of_ldx (hc : inst.opCode &&& instructionClassMask = ldx)
    (h : ∃ s, decodeLdx inst = .ok s) : ∃ s, decode inst line = .ok s :=
  decode_ok_iff.2 (.inr (.inl ⟨hc, h⟩))

theorem decode_ok_of_st (hc : inst.opCode &&& instructionClassMask = st ∨
    inst.opCode &&& instructionClassMask = stx) : ∃ s, decode inst line = .ok s :=
  decode_ok_iff.2 (.inr (.inr (hc.elim .inl (.inr ∘ .inl))))

theorem decode_ok_of_alu (hc : inst.opCode &&& instructionClassMask = alu)
    (h : ∃ s, decodeAlu inst = .ok s) : ∃ s, decode inst line = .ok s :=
  decode_ok_iff.2 (.inr (.inr (.inr (.inr (.inl ⟨hc, h⟩)))))

theorem decode_ok_of_jmp (hc : inst.opCode &&& instructionClassMask = jmp)
    (h : ∃ s, decodeJmp inst line = .ok s) : ∃ s, decode inst line = .ok s :=
  decode_ok_iff.2 (.inr (.inr (.inr (.inr (.inr (.inl ⟨hc, h⟩))))))

theorem decode_ok_of_ret (hc : inst.opCode &&& instructionClassMask = ret)
    (h : ∃ s, decodeRet inst = .ok s) : ∃ s, decode inst line = .ok s :=
  decode_ok_iff.2 (.inr (.inr (.inr (.inr (.inr (.inr (.inl ⟨hc, h⟩)))))))

theorem decode_ok_of_misc (hc : inst.opCode &&& instructionClassMask = misc)
    (h : ∃ s, decodeMisc inst = .ok s) : ∃ s, decode inst line = .ok s :=
  decode_ok_iff.2 (.inr (.inr (.inr (.inr (.inr (.inr (.inr ⟨hc, h⟩)))))))

end Classes

/-- Every case of `Exec` is an instruction that `decode` prints. -/
theorem decode_isOk_of_op (op : Op) (inst : BPFInstruction) (hop : inst.opCode = op.code) (line : Int) :
    (decode inst line).isOk := by
  suffices h : ∃ s, decode inst line = .ok s by
    obtain ⟨s, hs⟩ := h
    rw [hs]
    rfl
  -- each case: the class bits pick the decoder, and the other bits the branch it takes
  cases op
  case ldImmW | ldMemW | ldLenW =>
    exact decode_ok_of_ld (by rw [hop]; decide) (decodeLd_ok_of_mode (by rw [hop]; decide))
  case ldAbsW | ldAbsH | ldAbsB | ldIndW | ldIndH | ldIndB =>
    exact decode_ok_of_ld (by rw [hop]; decide)
      (decodeLd_ok_of_packet (by rw [hop]; decide) (decodeLdSize_ok (by rw [hop]; decide)))
  case ldxImmW | ldxMemW | ldxLenW | ldxMshB =>
    exact decode_ok_of_ldx (by rw [hop]; decide) (decodeLdx_ok (by rw [hop]; decide))
  case st | stx => exact decode_ok_of_st (by rw [hop]; decide)
  case aluNeg => exact decode_ok_of_alu (by rw [hop]; decide) (decodeAlu_ok_of_neg (by rw [hop]; decide))
  case aluAddK | aluAddX | aluSubK | aluSubX | aluMulK | aluMulX | aluDivK | aluDivX | aluOrK | aluOrX
      | aluAndK | aluAndX | aluLshK | aluLshX | aluRshK | aluRshX | aluModK | aluModX | aluXorK
      | aluXorX =>
    exact decode_ok_of_alu (by rw [hop]; decide)
      (decodeAlu_ok_of_operator (by rw [hop]; decide) (decodeSource_ok (by rw [hop]; decide)))
  case jmpJa =>
    exact decode_ok_of_jmp (by rw [hop]; decide) (decodeJmp_ok_of_ja line (by rw [hop]; decide))
  case jmpJeqK | jmpJeqX | jmpJgtK | jmpJgtX | jmpJgeK | jmpJgeX | jmpJsetK | jmpJsetX =>
    exact decode_ok_of_jmp (by rw [hop]; decide)
      (decodeJmp_ok_of_operator line (by rw [hop]; decide) (decodeSource_ok (by rw [hop]; decide)))
  case retK | retA => exact decode_ok_of_ret (by rw [hop]; decide) (decodeRet_ok (by rw [hop]; decide))
  case miscTax | miscTxa =>
    exact decode_ok_of_misc (by rw [hop]; decide) (decodeMisc_ok (by rw [hop]; decide))

theorem decodeLines_isOk {insns : List BPFInstruction} (h : ∀ i ∈ insns, ∃ op : Op, i.opCode = op.code) :
    ∀ line, (decodeLines line insns).isOk := by
  induction insns with
  | nil => intro line; rfl
  | cons i rest ih =>
    intro line
    obtain ⟨op, hop⟩ := h i List.mem_cons_self
    have hd := decode_isOk_of_op op i hop line
    have hr := ih (fun j hj => h j (List.mem_cons_of_mem i hj)) (line + 1)
    rw [decodeLines]
    cases hdec : decode i line with
    | error e => simp [hdec, Except.isOk, Except.toBool] at hd
    | ok text =>
      cases hrest : decodeLines (line + 1) rest with
      | error e => simp [hrest, Except.isOk, Except.toBool] at hr
      | ok more => rfl

/-- `DecodeProgram` prints every program that `Compile` accepts. -/
theorem decodeProgram_isOk_of_compile {insns : List BPFInstruction} {p : Program} (h : compile insns = .ok p) :
    (decodeProgram insns).isOk := by
  have hv := (compile_ok h).2
  apply decodeLines_isOk
  intro i hi
  obtain ⟨pc, hpc, rfl⟩ := List.getElem_of_mem hi
  obtain ⟨op, hop⟩ := ofCode_isSome_of_check (hv.check pc hpc)
  exact ⟨op, (Op.code_of_ofCode hop).symm⟩

/-- `Misc|Tax` is printed as `X <- A`, Linux's `BPF_TAX`, and `Exec` runs it
as `A <- X`; `Misc|Txa` is the other way round. -/
theorem exec_tax_diverges_from_decode (input : Input) (pc : ℕ) (m : Machine) (inst : BPFInstruction)
    (h : inst.opCode = misc ||| tax) (line : Int) :
    decode inst line = .ok "X <- A" ∧ execInstruction input pc inst m = .next 0 { m with a := m.x } := by
  have hop : Op.ofCode inst.opCode = some .miscTax := by rw [h]; decide
  constructor
  · simp +decide [decode, decodeMisc, h, misc, tax, instructionClassMask, miscMask, ld, ldx, st, stx,
      alu, jmp, ret]
  · rw [execInstruction, hop]
    rfl

/-- `A <- 7; X <- A; ret A`: `Compile` accepts it and `DecodeProgram` prints
it so, which returns 7; `Exec` returns 0 on every input, since its second
instruction sets `A` to `X`, which is still 0. -/
theorem exec_tax_program :
    (decode (stmt (misc ||| tax) 0) 1 = .ok "X <- A" ∧
      execInstruction (inputBytes [] .bigEndian) 1 (stmt (misc ||| tax) 0)
        ⟨7, 0, Vector.replicate scratchMemRegisters 0⟩ = .next 0 ⟨0, 0, Vector.replicate scratchMemRegisters 0⟩) ∧
    compile [stmt (ld ||| imm ||| w) 7, stmt (misc ||| tax) 0, stmt (ret ||| a) 0] =
      .ok ⟨[stmt (ld ||| imm ||| w) 7, stmt (misc ||| tax) 0, stmt (ret ||| a) 0]⟩ ∧
    decodeProgram [stmt (ld ||| imm ||| w) 7, stmt (misc ||| tax) 0, stmt (ret ||| a) 0] =
      .ok "0: A <- 7\n1: X <- A\n2: ret A\n" ∧
    ∀ input, exec ⟨[stmt (ld ||| imm ||| w) 7, stmt (misc ||| tax) 0, stmt (ret ||| a) 0]⟩ input = .ok 0 := by
  refine ⟨exec_tax_diverges_from_decode (inputBytes [] .bigEndian) 1 _ (stmt (misc ||| tax) 0) rfl 1,
    by decide, by decide, ?_⟩
  intro input
  have h := @execFuel_eq_exec ⟨[stmt (ld ||| imm ||| w) 7, stmt (misc ||| tax) 0, stmt (ret ||| a) 0]⟩
    input 3 (Nat.le_refl _)
  have hrun : execFuel ⟨[stmt (ld ||| imm ||| w) 7, stmt (misc ||| tax) 0, stmt (ret ||| a) 0]⟩ input 3 =
      some (.ok 0) := rfl
  rw [hrun] at h
  exact (Option.some.inj h).symm

end Bpf
