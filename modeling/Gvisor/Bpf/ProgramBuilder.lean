import Gvisor.Bpf.Instruction

/-! `ProgramBuilder` of pkg/bpf/program_builder.go: a BPF program assembled
with jump labels that `Instructions` resolves to forward offsets. Label names
are of any type with decidable equality (Go uses strings); the map from names
to labels is a list in order of first use, which fixes the order in which
`resolveLabels` visits them (Go's map order is unspecified; it only decides
which error is reported first). -/
namespace Bpf

/-- `labelTarget`, the placeholder of a conditional jump offset (`math.MaxUint8`). -/
def labelTarget : UInt8 := 255

/-- `labelDirectTarget`, the placeholder `K` of a direct jump (`math.MaxUint32`). -/
def labelDirectTarget : UInt32 := 0xffffffff

inductive JmpType where
  | jDirect
  | jTrue
  | jFalse
  deriving DecidableEq, Repr

/-- A `source`: a jump at `line` whose `jt` part refers to the label. -/
structure Source where
  line : ℕ
  jt : JmpType
  deriving DecidableEq, Repr

/-- A `label`: its uses, and the line it marks (Go's `-1` is `none`). -/
structure Label where
  sources : List Source
  target : Option ℕ
  deriving DecidableEq, Repr

structure ProgramBuilder (L : Type) where
  labels : List (L × Label)
  instructions : List BPFInstruction

/-- The errors of `AddLabel` and `Instructions`, one per `fmt.Errorf` format. -/
inductive BuilderError (L : Type) where
  /-- "Adding a label that hasn't been used is not allowed: %v" -/
  | labelNotUsed (name : L)
  /-- "label %q target already set: %v" -/
  | targetAlreadySet (name : L) (target : ℕ)
  /-- "label target not set: %v" -/
  | targetNotSet (name : L)
  /-- "target is beyond end of ProgramBuilder" -/
  | targetBeyondEnd
  /-- "cannot jump backwards" -/
  | jumpBackwards
  /-- "jump offset to label '%v' is too large: %v, inst: %v, lineno: %v" -/
  | offsetTooLarge (name : L) (offset line : ℕ)
  /-- "jump target is not a label" -/
  | notALabel
  /-- Go indexes `b.instructions[s.line]`, which would panic out of range. -/
  | lineOutOfRange (line : ℕ)
  deriving DecidableEq, Repr

namespace ProgramBuilder
variable {L : Type} [DecidableEq L]

/-- `NewProgramBuilder`. -/
def new : ProgramBuilder L := ⟨[], []⟩

def addStmt (b : ProgramBuilder L) (code : UInt16) (k : UInt32) : ProgramBuilder L :=
  { b with instructions := b.instructions ++ [stmt code k] }

def addJump (b : ProgramBuilder L) (code : UInt16) (k : UInt32) (jt jf : UInt8) :
    ProgramBuilder L :=
  { b with instructions := b.instructions ++ [jump code k jt jf] }

/-- Record a use of `name` by the jump about to be added. -/
def addLabelSource (b : ProgramBuilder L) (name : L) (t : JmpType) : ProgramBuilder L :=
  let src : Source := ⟨b.instructions.length, t⟩
  match b.labels.lookup name with
  | some l =>
    { b with labels := b.labels.map fun p =>
        if p.1 = name then (name, { l with sources := l.sources ++ [src] }) else p }
  | none => { b with labels := b.labels ++ [(name, ⟨[src], none⟩)] }

def addDirectJumpLabel (b : ProgramBuilder L) (name : L) : ProgramBuilder L :=
  (b.addLabelSource name .jDirect).addJump (jmp ||| ja) labelDirectTarget 0 0

def addJumpTrueLabel (b : ProgramBuilder L) (code : UInt16) (k : UInt32) (jtLabel : L)
    (jf : UInt8) : ProgramBuilder L :=
  (b.addLabelSource jtLabel .jTrue).addJump code k labelTarget jf

def addJumpFalseLabel (b : ProgramBuilder L) (code : UInt16) (k : UInt32) (jt : UInt8)
    (jfLabel : L) : ProgramBuilder L :=
  (b.addLabelSource jfLabel .jFalse).addJump code k jt labelTarget

def addJumpLabels (b : ProgramBuilder L) (code : UInt16) (k : UInt32) (jtLabel jfLabel : L) :
    ProgramBuilder L :=
  ((b.addLabelSource jtLabel .jTrue).addLabelSource jfLabel .jFalse).addJump code k
    labelTarget labelTarget

/-- `AddLabel`: mark the next instruction as the target of `name`. -/
def addLabel (b : ProgramBuilder L) (name : L) : Except (BuilderError L) (ProgramBuilder L) :=
  match b.labels.lookup name with
  | none => .error (.labelNotUsed name)
  | some l =>
    match l.target with
    | some t => .error (.targetAlreadySet name t)
    | none =>
      .ok { b with labels := b.labels.map fun p =>
        if p.1 = name then (name, { l with target := some b.instructions.length }) else p }

/-- The body of `resolveLabels`' inner loop: patch the jump at `s.line`. -/
def resolveSource (name : L) (target : ℕ) (insns : List BPFInstruction) (s : Source) :
    Except (BuilderError L) (List BPFInstruction) :=
  match insns[s.line]? with
  | none => .error (.lineOutOfRange s.line)
  | some inst =>
    if target ≤ s.line then .error .jumpBackwards
    else
      let offset := target - s.line - 1
      match s.jt with
      | .jDirect =>
        if labelDirectTarget.toNat < offset then .error (.offsetTooLarge name offset s.line)
        else if inst.k ≠ labelDirectTarget then .error .notALabel
        else .ok (insns.set s.line { inst with k := UInt32.ofNat offset })
      | .jTrue =>
        if labelTarget.toNat < offset then .error (.offsetTooLarge name offset s.line)
        else if inst.jumpIfTrue ≠ labelTarget then .error .notALabel
        else .ok (insns.set s.line { inst with jumpIfTrue := UInt8.ofNat offset })
      | .jFalse =>
        if labelTarget.toNat < offset then .error (.offsetTooLarge name offset s.line)
        else if inst.jumpIfFalse ≠ labelTarget then .error .notALabel
        else .ok (insns.set s.line { inst with jumpIfFalse := UInt8.ofNat offset })

/-- The body of `resolveLabels`' outer loop for one label. -/
def resolveLabel (insns : List BPFInstruction) : L × Label →
    Except (BuilderError L) (List BPFInstruction)
  | (name, v) =>
    match v.target with
    | none => .error (.targetNotSet name)
    | some target =>
      if insns.length ≤ target then .error .targetBeyondEnd
      else v.sources.foldlM (resolveSource name target) insns

def resolveLabels (b : ProgramBuilder L) : Except (BuilderError L) (List BPFInstruction) :=
  b.labels.foldlM resolveLabel b.instructions

/-- `Instructions`: the program with every label resolved (Go also returns
the unresolved instructions beside an error, for debugging). -/
def Instructions (b : ProgramBuilder L) : Except (BuilderError L) (List BPFInstruction) :=
  b.resolveLabels

end ProgramBuilder
end Bpf
