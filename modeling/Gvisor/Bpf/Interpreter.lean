import Gvisor.Lib.ForwardLoop
import Gvisor.Bpf.Instruction

/-! The BPF virtual machine of pkg/bpf/interpreter.go: `Exec` runs a program
over an `Input` as a `ForwardLoop`. A Go panic (an `M` index out of range, a
division by zero) is the outcome `panic`. -/
namespace Bpf

/-- The `Input` interface. Each load returns `none` where the Go method
reports failure. -/
structure Input where
  load32 : UInt32 → Option UInt32
  load16 : UInt32 → Option UInt16
  load8 : UInt32 → Option UInt8
  length : UInt32

/-- The byte orders of `encoding/binary` that `InputBytes` reads with. -/
inductive ByteOrder where
  | littleEndian
  | bigEndian
  deriving DecidableEq, Repr

/-- `Order.Uint16`, `Order.Uint32` on the bytes `bs` (most significant last in
little-endian order). -/
def ByteOrder.uint (o : ByteOrder) (bs : List UInt8) : ℕ :=
  match o with
  | .littleEndian => bs.foldr (fun v acc => v.toNat + 256 * acc) 0
  | .bigEndian => bs.foldl (fun acc v => 256 * acc + v.toNat) 0

/-- `InputBytes`: the input is a byte slice read with a byte order; every
load outside the slice fails. -/
def inputBytes (data : List UInt8) (order : ByteOrder) : Input where
  load32 off := if data.length < off.toNat + 4 then none
    else some (UInt32.ofNat (order.uint ((data.drop off.toNat).take 4)))
  load16 off := if data.length < off.toNat + 2 then none
    else some (UInt16.ofNat (order.uint ((data.drop off.toNat).take 2)))
  load8 off := data[off.toNat]?
  length := UInt32.ofNat data.length

/-- The `machine` registers; `M` is the array of `ScratchMemRegisters` words. -/
structure Machine where
  a : UInt32
  x : UInt32
  m : Vector UInt32 scratchMemRegisters

/-- The zero machine `Exec` starts from. -/
def Machine.zero : Machine := ⟨0, 0, Vector.replicate scratchMemRegisters 0⟩

/-- What `Exec` produces: its two return values, or a run-time panic. -/
inductive ExecResult where
  | ok (v : UInt32)
  | error (e : Error)
  | panic
  deriving DecidableEq, Repr

/-- The cases of `Exec`'s `switch i.OpCode`, in the order they appear there. -/
inductive Op where
  | ldImmW | ldAbsW | ldAbsH | ldAbsB | ldIndW | ldIndH | ldIndB | ldMemW | ldLenW
  | ldxImmW | ldxMemW | ldxLenW | ldxMshB
  | st | stx
  | aluAddK | aluAddX | aluSubK | aluSubX | aluMulK | aluMulX | aluDivK | aluDivX
  | aluOrK | aluOrX | aluAndK | aluAndX | aluLshK | aluLshX | aluRshK | aluRshX
  | aluNeg | aluModK | aluModX | aluXorK | aluXorX
  | jmpJa | jmpJeqK | jmpJeqX | jmpJgtK | jmpJgtX | jmpJgeK | jmpJgeX | jmpJsetK | jmpJsetX
  | retK | retA
  | miscTax | miscTxa
  deriving DecidableEq, Repr

/-- The case label of each case. -/
def Op.code : Op → UInt16
  | .ldImmW => ld ||| imm ||| w
  | .ldAbsW => ld ||| abs ||| w
  | .ldAbsH => ld ||| abs ||| h
  | .ldAbsB => ld ||| abs ||| b
  | .ldIndW => ld ||| ind ||| w
  | .ldIndH => ld ||| ind ||| h
  | .ldIndB => ld ||| ind ||| b
  | .ldMemW => ld ||| mem ||| w
  | .ldLenW => ld ||| len ||| w
  | .ldxImmW => ldx ||| imm ||| w
  | .ldxMemW => ldx ||| mem ||| w
  | .ldxLenW => ldx ||| len ||| w
  | .ldxMshB => ldx ||| msh ||| b
  | .st => Bpf.st
  | .stx => Bpf.stx
  | .aluAddK => alu ||| add ||| k
  | .aluAddX => alu ||| add ||| x
  | .aluSubK => alu ||| sub ||| k
  | .aluSubX => alu ||| sub ||| x
  | .aluMulK => alu ||| mul ||| k
  | .aluMulX => alu ||| mul ||| x
  | .aluDivK => alu ||| div ||| k
  | .aluDivX => alu ||| div ||| x
  | .aluOrK => alu ||| Bpf.or ||| k
  | .aluOrX => alu ||| Bpf.or ||| x
  | .aluAndK => alu ||| Bpf.and ||| k
  | .aluAndX => alu ||| Bpf.and ||| x
  | .aluLshK => alu ||| lsh ||| k
  | .aluLshX => alu ||| lsh ||| x
  | .aluRshK => alu ||| rsh ||| k
  | .aluRshX => alu ||| rsh ||| x
  | .aluNeg => alu ||| neg
  | .aluModK => alu ||| mod ||| k
  | .aluModX => alu ||| mod ||| x
  | .aluXorK => alu ||| Bpf.xor ||| k
  | .aluXorX => alu ||| Bpf.xor ||| x
  | .jmpJa => jmp ||| ja
  | .jmpJeqK => jmp ||| jeq ||| k
  | .jmpJeqX => jmp ||| jeq ||| x
  | .jmpJgtK => jmp ||| jgt ||| k
  | .jmpJgtX => jmp ||| jgt ||| x
  | .jmpJgeK => jmp ||| jge ||| k
  | .jmpJgeX => jmp ||| jge ||| x
  | .jmpJsetK => jmp ||| jset ||| k
  | .jmpJsetX => jmp ||| jset ||| x
  | .retK => ret ||| k
  | .retA => ret ||| a
  | .miscTax => misc ||| tax
  | .miscTxa => misc ||| txa

def Op.all : List Op :=
  [.ldImmW, .ldAbsW, .ldAbsH, .ldAbsB, .ldIndW, .ldIndH, .ldIndB, .ldMemW, .ldLenW,
    .ldxImmW, .ldxMemW, .ldxLenW, .ldxMshB, .st, .stx,
    .aluAddK, .aluAddX, .aluSubK, .aluSubX, .aluMulK, .aluMulX, .aluDivK, .aluDivX,
    .aluOrK, .aluOrX, .aluAndK, .aluAndX, .aluLshK, .aluLshX, .aluRshK, .aluRshX,
    .aluNeg, .aluModK, .aluModX, .aluXorK, .aluXorX,
    .jmpJa, .jmpJeqK, .jmpJeqX, .jmpJgtK, .jmpJgtX, .jmpJgeK, .jmpJgeX, .jmpJsetK, .jmpJsetX,
    .retK, .retA, .miscTax, .miscTxa]

/-- The case `switch i.OpCode` selects; `none` is its `default`. -/
def Op.ofCode (c : UInt16) : Option Op := Op.all.find? (·.code = c)

/-- Go's `<<=` on a `uint32`: a shift by 32 or more clears the word. -/
def shiftLeft32 (v s : UInt32) : UInt32 := if s < 32 then v <<< s else 0

/-- Go's `>>=` on a `uint32`. -/
def shiftRight32 (v s : UInt32) : UInt32 := if s < 32 then v >>> s else 0

/-- `conditionalJumpOffset`. -/
def conditionalJumpOffset (i : BPFInstruction) (cond : Bool) : ℕ :=
  if cond then i.jumpIfTrue.toNat else i.jumpIfFalse.toNat

/-- A loop iteration of `Exec` that continues at the next instruction. -/
abbrev LoopStep := ForwardLoop.Step Machine ExecResult

/-- A load from the input into `A`: `Error{InvalidLoad, pc}` when it fails. -/
def loadA (pc : ℕ) (m : Machine) : Option UInt32 → LoopStep
  | some v => .next 0 { m with a := v }
  | none => .done (.error ⟨.invalidLoad, pc⟩)

/-- `m.M[int(i.K)]`, which panics when `K` is not a register index. -/
def readM (m : Machine) (r : UInt32) (f : UInt32 → Machine) : LoopStep :=
  if hr : r.toNat < scratchMemRegisters then .next 0 (f m.m[r.toNat]) else .done .panic

/-- `m.M[int(i.K)] = v`. -/
def writeM (m : Machine) (r v : UInt32) : LoopStep :=
  if hr : r.toNat < scratchMemRegisters then .next 0 { m with m := m.m.set r.toNat v }
  else .done .panic

/-- `m.A /= d` and `m.A %= d` with a divisor `K`, where Go panics on zero. -/
def divideA (m : Machine) (d : UInt32) (f : UInt32 → UInt32 → UInt32) : LoopStep :=
  if d = 0 then .done .panic else .next 0 { m with a := f m.a d }

/-- The same with the divisor `X`, which `Exec` checks first. -/
def divideAByX (pc : ℕ) (m : Machine) (f : UInt32 → UInt32 → UInt32) : LoopStep :=
  if m.x = 0 then .done (.error ⟨.divisionByZero, pc⟩) else .next 0 { m with a := f m.a m.x }

/-- The body of each case of `Exec`'s switch. -/
def execOp (input : Input) (pc : ℕ) (i : BPFInstruction) (m : Machine) : Op → LoopStep
  | .ldImmW => .next 0 { m with a := i.k }
  | .ldAbsW => loadA pc m (input.load32 i.k)
  | .ldAbsH => loadA pc m ((input.load16 i.k).map UInt16.toUInt32)
  | .ldAbsB => loadA pc m ((input.load8 i.k).map UInt8.toUInt32)
  | .ldIndW => loadA pc m (input.load32 (m.x + i.k))
  | .ldIndH => loadA pc m ((input.load16 (m.x + i.k)).map UInt16.toUInt32)
  | .ldIndB => loadA pc m ((input.load8 (m.x + i.k)).map UInt8.toUInt32)
  | .ldMemW => readM m i.k fun v => { m with a := v }
  | .ldLenW => .next 0 { m with a := input.length }
  | .ldxImmW => .next 0 { m with x := i.k }
  | .ldxMemW => readM m i.k fun v => { m with x := v }
  | .ldxLenW => .next 0 { m with x := input.length }
  | .ldxMshB =>
    match input.load8 i.k with
    | some v => .next 0 { m with x := 4 * (v &&& 0xf).toUInt32 }
    | none => .done (.error ⟨.invalidLoad, pc⟩)
  | .st => writeM m i.k m.a
  | .stx => writeM m i.k m.x
  | .aluAddK => .next 0 { m with a := m.a + i.k }
  | .aluAddX => .next 0 { m with a := m.a + m.x }
  | .aluSubK => .next 0 { m with a := m.a - i.k }
  | .aluSubX => .next 0 { m with a := m.a - m.x }
  | .aluMulK => .next 0 { m with a := m.a * i.k }
  | .aluMulX => .next 0 { m with a := m.a * m.x }
  -- `K != 0` already checked by `Compile`.
  | .aluDivK => divideA m i.k (· / ·)
  | .aluDivX => divideAByX pc m (· / ·)
  | .aluOrK => .next 0 { m with a := m.a ||| i.k }
  | .aluOrX => .next 0 { m with a := m.a ||| m.x }
  | .aluAndK => .next 0 { m with a := m.a &&& i.k }
  | .aluAndX => .next 0 { m with a := m.a &&& m.x }
  | .aluLshK => .next 0 { m with a := shiftLeft32 m.a i.k }
  | .aluLshX => .next 0 { m with a := shiftLeft32 m.a m.x }
  | .aluRshK => .next 0 { m with a := shiftRight32 m.a i.k }
  | .aluRshX => .next 0 { m with a := shiftRight32 m.a m.x }
  | .aluNeg => .next 0 { m with a := (-m.a.toInt32).toUInt32 }
  | .aluModK => divideA m i.k (· % ·)
  | .aluModX => divideAByX pc m (· % ·)
  | .aluXorK => .next 0 { m with a := m.a ^^^ i.k }
  | .aluXorX => .next 0 { m with a := m.a ^^^ m.x }
  | .jmpJa => .next i.k.toNat m
  | .jmpJeqK => .next (conditionalJumpOffset i (m.a == i.k)) m
  | .jmpJeqX => .next (conditionalJumpOffset i (m.a == m.x)) m
  | .jmpJgtK => .next (conditionalJumpOffset i (decide (m.a > i.k))) m
  | .jmpJgtX => .next (conditionalJumpOffset i (decide (m.a > m.x))) m
  | .jmpJgeK => .next (conditionalJumpOffset i (decide (m.a ≥ i.k))) m
  | .jmpJgeX => .next (conditionalJumpOffset i (decide (m.a ≥ m.x))) m
  | .jmpJsetK => .next (conditionalJumpOffset i (m.a &&& i.k != 0)) m
  | .jmpJsetX => .next (conditionalJumpOffset i (m.a &&& m.x != 0)) m
  | .retK => .done (.ok i.k)
  | .retA => .done (.ok m.a)
  | .miscTax => .next 0 { m with a := m.x }
  | .miscTxa => .next 0 { m with x := m.a }

/-- One iteration of `Exec`'s loop: dispatch on the opcode. -/
def execInstruction (input : Input) (pc : ℕ) (i : BPFInstruction) (m : Machine) : LoopStep :=
  match Op.ofCode i.opCode with
  | some op => execOp input pc i m op
  | none => .done (.error ⟨.invalidOpcode, pc⟩)

/-- `Exec`: run the program from `pc = 0` on the zero machine. Falling off
the end is `Error{InvalidEndOfProgram, pc}`. -/
def exec (p : Program) (input : Input) : ExecResult :=
  ForwardLoop.run p.instructions (execInstruction input)
    (fun pc _ => .error ⟨.invalidEndOfProgram, pc⟩) 0 Machine.zero

/-- `Exec` with at most `fuel` loop iterations. -/
def execFuel (p : Program) (input : Input) (fuel : ℕ) : Option ExecResult :=
  ForwardLoop.runFuel p.instructions (execInstruction input)
    (fun pc _ => .error ⟨.invalidEndOfProgram, pc⟩) fuel 0 Machine.zero

/-- Fuel of one iteration per instruction is enough. -/
theorem execFuel_eq_exec {p : Program} {input : Input} {fuel : ℕ}
    (h : p.instructions.length ≤ fuel) : execFuel p input fuel = some (exec p input) :=
  ForwardLoop.runFuel_eq_run (by omega)

end Bpf
