import Mathlib.Data.List.Basic

/-! Classic BPF instructions (`linux.BPFInstruction`), the opcode constants of
pkg/bpf/bpf.go and the validation `Compile` performs before a program may
run (pkg/bpf/interpreter.go). -/
namespace Bpf

/-- `MaxInstructions`, Linux's `BPF_MAXINSNS`. -/
def maxInstructions : ℕ := 4096

/-- `ScratchMemRegisters`, the number of `M` registers (`BPF_MEMWORDS`). -/
def scratchMemRegisters : ℕ := 16

-- Instruction class, bits 0-2.
def ld : UInt16 := 0x00
def ldx : UInt16 := 0x01
def st : UInt16 := 0x02
def stx : UInt16 := 0x03
def alu : UInt16 := 0x04
def jmp : UInt16 := 0x05
def ret : UInt16 := 0x06
def misc : UInt16 := 0x07
def instructionClassMask : UInt16 := 0x07

-- Size of a load, bits 3-4.
def w : UInt16 := 0x00
def h : UInt16 := 0x08
def b : UInt16 := 0x10
def loadSizeMask : UInt16 := 0x18

-- Source operand of a load, bits 5-7.
def imm : UInt16 := 0x00
def abs : UInt16 := 0x20
def ind : UInt16 := 0x40
def mem : UInt16 := 0x60
def len : UInt16 := 0x80
def msh : UInt16 := 0xa0
def loadModeMask : UInt16 := 0xe0

-- Source operand of arithmetic, jump and return instructions.
def k : UInt16 := 0x00
def x : UInt16 := 0x08
def a : UInt16 := 0x10
def srcAluJmpMask : UInt16 := 0x08
def srcRetMask : UInt16 := 0x18

-- Arithmetic operations, bits 4-7.
def add : UInt16 := 0x00
def sub : UInt16 := 0x10
def mul : UInt16 := 0x20
def div : UInt16 := 0x30
def or : UInt16 := 0x40
def and : UInt16 := 0x50
def lsh : UInt16 := 0x60
def rsh : UInt16 := 0x70
def neg : UInt16 := 0x80
def mod : UInt16 := 0x90
def xor : UInt16 := 0xa0
def aluMask : UInt16 := 0xf0

-- Jumps, bits 4-7.
def ja : UInt16 := 0x00
def jeq : UInt16 := 0x10
def jgt : UInt16 := 0x20
def jge : UInt16 := 0x30
def jset : UInt16 := 0x40
def jmpMask : UInt16 := 0xf0

-- Miscellaneous instructions, bits 3-7.
def tax : UInt16 := 0x00
def txa : UInt16 := 0x80
def miscMask : UInt16 := 0xf8

-- Bits that must be zero.
def unusedBitsMask : UInt16 := 0xff00
def storeUnusedBitsMask : UInt16 := 0xf8
def retUnusedBitsMask : UInt16 := 0xe0

structure BPFInstruction where
  opCode : UInt16
  jumpIfTrue : UInt8
  jumpIfFalse : UInt8
  k : UInt32
  deriving DecidableEq, Repr, Inhabited

/-- `Stmt`: a non-jump instruction. -/
def stmt (code : UInt16) (k : UInt32) : BPFInstruction := ⟨code, 0, 0, k⟩

/-- `Jump`: a jump instruction. -/
def jump (code : UInt16) (k : UInt32) (jt jf : UInt8) : BPFInstruction := ⟨code, jt, jf, k⟩

/-- The values of `Error.Code`. -/
inductive ErrorCode where
  | divisionByZero
  | invalidEndOfProgram
  | invalidInstructionCount
  | invalidJumpTarget
  | invalidLoad
  | invalidOpcode
  | invalidRegister
  deriving DecidableEq, Repr

structure Error where
  code : ErrorCode
  pc : ℕ
  deriving DecidableEq, Repr

/-- A program that `Compile` has validated. -/
structure Program where
  instructions : List BPFInstruction
  deriving DecidableEq, Repr

/-- The body of `Compile`'s loop for the instruction `i` at `pc` of a program
of `n` instructions: `none` when it passes, else the error code. -/
def checkInstruction (n pc : ℕ) (i : BPFInstruction) : Option ErrorCode :=
  if i.opCode &&& unusedBitsMask ≠ 0 then some .invalidOpcode
  else if i.opCode &&& instructionClassMask = ld then
    if i.opCode &&& loadSizeMask = w then
      if i.opCode &&& loadModeMask ≠ imm ∧ i.opCode &&& loadModeMask ≠ abs ∧
          i.opCode &&& loadModeMask ≠ ind ∧ i.opCode &&& loadModeMask ≠ mem ∧
          i.opCode &&& loadModeMask ≠ len then some .invalidOpcode
      else if i.opCode &&& loadModeMask = mem ∧ scratchMemRegisters ≤ i.k.toNat then
        some .invalidRegister
      else none
    else if i.opCode &&& loadSizeMask = h ∨ i.opCode &&& loadSizeMask = b then
      if i.opCode &&& loadModeMask ≠ abs ∧ i.opCode &&& loadModeMask ≠ ind then
        some .invalidOpcode
      else none
    else some .invalidOpcode
  else if i.opCode &&& instructionClassMask = ldx then
    if i.opCode &&& loadSizeMask = w then
      if i.opCode &&& loadModeMask ≠ imm ∧ i.opCode &&& loadModeMask ≠ mem ∧
          i.opCode &&& loadModeMask ≠ len then some .invalidOpcode
      else if i.opCode &&& loadModeMask = mem ∧ scratchMemRegisters ≤ i.k.toNat then
        some .invalidRegister
      else none
    else if i.opCode &&& loadSizeMask = b then
      if i.opCode &&& loadModeMask ≠ msh then some .invalidOpcode else none
    else some .invalidOpcode
  else if i.opCode &&& instructionClassMask = st ∨ i.opCode &&& instructionClassMask = stx then
    if i.opCode &&& storeUnusedBitsMask ≠ 0 then some .invalidOpcode
    else if scratchMemRegisters ≤ i.k.toNat then some .invalidRegister
    else none
  else if i.opCode &&& instructionClassMask = alu then
    if i.opCode &&& aluMask ∈ [add, sub, mul, or, and, lsh, rsh, xor] then none
    else if i.opCode &&& aluMask = div ∨ i.opCode &&& aluMask = mod then
      if i.opCode &&& srcAluJmpMask = k ∧ i.k = 0 then some .divisionByZero else none
    else if i.opCode &&& aluMask = neg then
      -- Negation takes no source operand.
      if i.opCode &&& srcAluJmpMask ≠ 0 then some .invalidOpcode else none
    else some .invalidOpcode
  else if i.opCode &&& instructionClassMask = jmp then
    if i.opCode &&& jmpMask = ja then
      if i.opCode &&& srcAluJmpMask ≠ 0 then some .invalidOpcode
      -- Go compares in 64 bits, where `pc + K + 1` cannot wrap.
      else if n ≤ pc + i.k.toNat + 1 then some .invalidJumpTarget
      else none
    else if i.opCode &&& jmpMask ∈ [jeq, jgt, jge, jset] then
      if n ≤ pc + i.jumpIfTrue.toNat + 1 then some .invalidJumpTarget
      else if n ≤ pc + i.jumpIfFalse.toNat + 1 then some .invalidJumpTarget
      else none
    else some .invalidOpcode
  else if i.opCode &&& instructionClassMask = ret then
    if i.opCode &&& retUnusedBitsMask ≠ 0 then some .invalidOpcode
    else if i.opCode &&& srcRetMask ≠ k ∧ i.opCode &&& srcRetMask ≠ a then some .invalidOpcode
    else none
  else if i.opCode &&& instructionClassMask = misc then
    if i.opCode &&& miscMask ≠ tax ∧ i.opCode &&& miscMask ≠ txa then some .invalidOpcode
    else none
  -- The eight classes are all listed above; Go's switch has no default.
  else none

/-- `Compile`'s loop over the instructions from `pc` on: the first error. -/
def validate (n : ℕ) : ℕ → List BPFInstruction → Option Error
  | _, [] => none
  | pc, i :: rest =>
    match checkInstruction n pc i with
    | some c => some ⟨c, pc⟩
    | none => validate n (pc + 1) rest

/-- `Compile`: validate a sequence of instructions and wrap it in a `Program`. -/
def compile (insns : List BPFInstruction) : Except Error Program :=
  if insns.length = 0 ∨ maxInstructions < insns.length then
    .error ⟨.invalidInstructionCount, insns.length⟩
  -- The last instruction must be a return.
  else if insns.getLast?.any (fun last => last.opCode ≠ ret ||| k ∧ last.opCode ≠ ret ||| a) then
    .error ⟨.invalidEndOfProgram, insns.length - 1⟩
  else
    match validate insns.length 0 insns with
    | some e => .error e
    | none => .ok ⟨insns⟩

end Bpf
