import Gvisor.Bpf.ProgramBuilder
import Gvisor.Bpf.Interpreter
import Mathlib.Data.List.Sort

/-! The seccomp filter compiler of pkg/seccomp: `BuildProgram` turns a list of
rule sets into a BPF program that checks the architecture, finds the syscall
number in a balanced binary search tree, and then tries the rule sets for that
syscall in order, each behind its vsyscall check and argument checks.
`seccomp_data` is read through `InputBytes` in little-endian order; the
constants are those of seccomp_amd64.go. -/
namespace Seccomp
open Bpf

/-- `LINUX_AUDIT_ARCH` on amd64, `linux.AUDIT_ARCH_X86_64`. -/
def linuxAuditArch : UInt32 := 0xc000003e

/-- `skipOneInst`. -/
def skipOneInst : UInt8 := 1

def seccompDataOffsetNR : UInt32 := 0
def seccompDataOffsetArch : UInt32 := 4
def seccompDataOffsetIPLow : UInt32 := 8
def seccompDataOffsetIPHigh : UInt32 := 12
def seccompDataOffsetArgs : ℕ := 16

def seccompDataOffsetArgLow (i : ℕ) : UInt32 := UInt32.ofNat (seccompDataOffsetArgs + i * 8)

def seccompDataOffsetArgHigh (i : ℕ) : UInt32 := seccompDataOffsetArgLow i + 4

/-- The values a `Rule` slot may hold: `AllowAny{}`, `AllowValue(v)`, or a
value of some other type, which `BuildProgram` rejects. A `nil` slot is
`none` in `Rule`. -/
inductive Arg where
  | allowAny
  | allowValue (v : UInt64)
  | other
  deriving DecidableEq, Repr

/-- `Rule`, six argument slots. -/
abbrev Rule := Vector (Option Arg) 6

/-- `SyscallRules`, a map from syscall numbers to the rules for them (a list
of keys without repeats). -/
structure SyscallRules where
  entries : List (UInt64 × List Rule)
  nodup : (entries.map Prod.fst).Nodup

def SyscallRules.get? (sr : SyscallRules) (sysno : UInt64) : Option (List Rule) :=
  sr.entries.lookup sysno

structure RuleSet where
  rules : SyscallRules
  action : UInt32
  vsyscall : Bool

/-- The label names `BuildProgram` uses; each stands for the string its
`fmt.Sprintf` format makes, and different names make different strings. -/
inductive LabelName where
  /-- `defaultLabel`, "default_action" -/
  | defaultLabel
  /-- `node.label()`, "index_%v" -/
  | index (sysno : UInt64)
  /-- `checkArgsLabel`, "checkArgs_%v" -/
  | checkArgs (sysno : UInt64)
  /-- `vsyscallViolationLabel`, "vsyscallViolation_%v_%v" -/
  | vsyscallViolation (ruleSetIdx : ℕ) (sysno : UInt64)
  /-- `ruleViolationLabel`, "ruleViolation_%v_%v_%v" -/
  | ruleViolation (ruleSetIdx : ℕ) (sysno : UInt64) (idx : ℕ)
  deriving DecidableEq, Repr

/-- The errors of `BuildProgram`. -/
inductive BuildError where
  | builder (e : BuilderError LabelName)
  /-- "unreachable action for %v: 0x%x (rule set %d)" -/
  | unreachableAction (sysno : UInt64) (action : UInt32) (ruleSetIdx : ℕ)
  /-- "unknown syscall rule type: %v" -/
  | unknownRuleType
  /-- `createBST` indexes an empty slice and panics. -/
  | noSyscalls
  deriving DecidableEq, Repr

/-- A `*node` of the search tree; `nil` is Go's nil pointer. -/
inductive Node where
  | nil
  | node (value : UInt64) (left right : Node)
  deriving DecidableEq, Repr

/-- `node.label`. -/
def Node.label : Node → LabelName
  | .nil => .defaultLabel
  | .node v _ _ => .index v

/-- `createBST`: the median of the sorted slice at the root, the halves below it. -/
def createBST (syscalls : List UInt64) : Node :=
  if h : syscalls.length / 2 < syscalls.length then
    .node syscalls[syscalls.length / 2]
      (if 0 < syscalls.length / 2 then createBST (syscalls.take (syscalls.length / 2)) else .nil)
      (if syscalls.length / 2 + 1 < syscalls.length then
        createBST (syscalls.drop (syscalls.length / 2 + 1)) else .nil)
  else .nil
termination_by syscalls.length
decreasing_by all_goals (simp_wf; omega)

abbrev Builder := ProgramBuilder LabelName

/-- Lift a `ProgramBuilder` error. -/
def liftB {α : Type} : Except (BuilderError LabelName) α → Except BuildError α
  | .ok a => .ok a
  | .error e => .error (.builder e)

/-- The argument checks of one rule: the builder after them, and whether any
`AllowValue` was checked (`labelled`). -/
def addRuleArgChecks (ruleSetIdx : ℕ) (sysno : UInt64) (ruleidx : ℕ) :
    Builder × Bool → ℕ × Option Arg → Except BuildError (Builder × Bool)
  | (p, labelled), (_, none) => .ok (p, labelled)
  | (p, labelled), (_, some .allowAny) => .ok (p, labelled)
  | (p, _), (i, some (.allowValue v)) =>
    let high := (v >>> 32).toUInt32
    let low := v.toUInt32
    .ok ((((p.addStmt (ld ||| abs ||| w) (seccompDataOffsetArgLow i)).addJumpFalseLabel
      (jmp ||| jeq ||| k) low 0 (.ruleViolation ruleSetIdx sysno ruleidx)).addStmt
      (ld ||| abs ||| w) (seccompDataOffsetArgHigh i)).addJumpFalseLabel
      (jmp ||| jeq ||| k) high 0 (.ruleViolation ruleSetIdx sysno ruleidx), true)
  | _, (_, some .other) => .error .unknownRuleType

/-- `addSyscallArgsCheck`: for each rule, its argument checks, the action,
and the label the failed checks jump to. -/
def addSyscallArgsCheck (p : Builder) (rules : List Rule) (action : UInt32) (ruleSetIdx : ℕ)
    (sysno : UInt64) : Except BuildError Builder :=
  rules.zipIdx.foldlM (fun p (rule, ruleidx) => do
    let (p, labelled) ← rule.toList.zipIdx.foldlM
      (fun acc (arg, i) => addRuleArgChecks ruleSetIdx sysno ruleidx acc (i, arg)) (p, false)
    let p := p.addStmt (ret ||| k) action
    if labelled then liftB (p.addLabel (.ruleViolation ruleSetIdx sysno ruleidx)) else pure p) p

/-- One rule set's part of `buildBSTProgram` for `sysno`: the builder and
whether an unconditional action has been emitted so far (`emitted`). -/
def emitRuleSet (sysno : UInt64) : Builder × Bool → RuleSet × ℕ → Except BuildError (Builder × Bool)
  | (p, emitted), (rs, ruleSetIdx) =>
    match rs.rules.get? sysno with
    | none => .ok (p, emitted)
    | some rules =>
      if emitted then .error (.unreachableAction sysno rs.action ruleSetIdx)
      else do
        let p := if rs.vsyscall then
            (p.addStmt (ld ||| abs ||| w) seccompDataOffsetIPHigh).addJumpFalseLabel
              (jmp ||| jset ||| k) 0x80000000 0 (.vsyscallViolation ruleSetIdx sysno)
          else p
        let (p, emitted) ← if rules.isEmpty then .ok (p.addStmt (ret ||| k) rs.action, true)
          else do .ok (← addSyscallArgsCheck p rules rs.action ruleSetIdx sysno, emitted)
        let p ← if rs.vsyscall then liftB (p.addLabel (.vsyscallViolation ruleSetIdx sysno))
          else pure p
        pure (p, emitted)

/-- `buildBSTProgram` for the node with `sysno`, children `left` and `right`;
`isRoot` is the node's `root` field. -/
def buildBSTProgram (rules : List RuleSet) (isRoot : Bool) (sysno : UInt64) (left right : Node)
    (p : Builder) : Except BuildError Builder := do
  let p ← if isRoot then pure p else liftB (p.addLabel (Node.label (.node sysno left right)))
  let p := p.addJumpTrueLabel (jmp ||| jeq ||| k) sysno.toUInt32 (.checkArgs sysno) 0
  let p := if left = .nil ∧ right = .nil then p.addDirectJumpLabel .defaultLabel
    else (((p.addJump (jmp ||| jgt ||| k) sysno.toUInt32 0 skipOneInst).addDirectJumpLabel
      right.label).addDirectJumpLabel left.label)
  let p ← liftB (p.addLabel (.checkArgs sysno))
  let (p, emitted) ← rules.zipIdx.foldlM (emitRuleSet sysno) (p, false)
  pure (if emitted then p else p.addDirectJumpLabel .defaultLabel)

/-- `node.traverse(buildBSTProgram, ...)`: pre-order. -/
def traverse (rules : List RuleSet) (isRoot : Bool) : Node → Builder → Except BuildError Builder
  | .nil, p => pure p
  | .node v l r, p => do
    let p ← buildBSTProgram rules isRoot v l r p
    let p ← traverse rules false l p
    traverse rules false r p

/-- The syscall numbers of all rule sets, without repeats, in ascending order. -/
def requiredSyscalls (rules : List RuleSet) : List UInt64 :=
  ((rules.flatMap fun rs => rs.rules.entries.map Prod.fst).dedup).insertionSort (· ≤ ·)

/-- `buildIndex`. -/
def buildIndex (rules : List RuleSet) (p : Builder) : Except BuildError Builder :=
  match requiredSyscalls rules with
  | [] => .error .noSyscalls
  | syscalls => traverse rules true (createBST syscalls) (p.addStmt (ld ||| abs ||| w) seccompDataOffsetNR)

/-- `BuildProgram`. -/
def buildProgram (rules : List RuleSet) (defaultAction : UInt32) :
    Except BuildError (List BPFInstruction) := do
  let p : Builder := ProgramBuilder.new
  let p := p.addStmt (ld ||| abs ||| w) seccompDataOffsetArch
  let p := p.addJump (jmp ||| jeq ||| k) linuxAuditArch skipOneInst 0
  let p := p.addDirectJumpLabel .defaultLabel
  let p ← buildIndex rules p
  let p ← liftB (p.addLabel .defaultLabel)
  let p := p.addStmt (ret ||| k) defaultAction
  liftB p.Instructions

/-! ### The filter's intended meaning -/

/-- `seccomp_data`. -/
structure SeccompData where
  nr : UInt32
  arch : UInt32
  instructionPointer : UInt64
  args : Vector UInt64 6

def le32 (v : UInt32) : List UInt8 :=
  [v.toUInt8, (v >>> 8).toUInt8, (v >>> 16).toUInt8, (v >>> 24).toUInt8]

def le64 (v : UInt64) : List UInt8 := le32 v.toUInt32 ++ le32 (v >>> 32).toUInt32

/-- `seccompData.asInput`: the structure marshalled little-endian. -/
def SeccompData.asInput (d : SeccompData) : Input :=
  inputBytes (le32 d.nr ++ le32 d.arch ++ le64 d.instructionPointer ++ d.args.toList.flatMap le64)
    .littleEndian

/-- A rule holds when every `AllowValue` slot equals its argument. -/
def Rule.holds (r : Rule) (args : Vector UInt64 6) : Bool :=
  (List.finRange 6).all fun i =>
    match r[i] with
    | some (.allowValue v) => args[i] == v
    | _ => true

/-- A rule set applies to `d` when it has an entry for `d.nr`, its vsyscall
requirement (bit 31 of the high word of the instruction pointer) holds, and
its rule list for `d.nr` is empty or has a rule that holds. -/
def RuleSet.applies (rs : RuleSet) (d : SeccompData) : Bool :=
  match rs.rules.get? d.nr.toUInt64 with
  | none => false
  | some rules =>
    (!rs.vsyscall || (d.instructionPointer >>> 63) &&& 1 == 1) &&
      (rules.isEmpty || rules.any fun r => r.holds d.args)

/-- The action the filter is meant to return on `d`: the default for another
architecture, else the action of the first rule set that applies, else the
default. -/
def filterAction (rules : List RuleSet) (defaultAction : UInt32) (d : SeccompData) : UInt32 :=
  if d.arch ≠ linuxAuditArch then defaultAction
  else ((rules.find? fun rs => rs.applies d).map RuleSet.action).getD defaultAction

/-- Rule set 0 allows syscall 1 (`ALLOW`) from the vsyscall page only, rule
set 1 answers syscall 0 with `ERRNO`. -/
def vsyscallRules : List RuleSet :=
  [⟨⟨[(1, [])], by decide⟩, 0x7fff0000, true⟩, ⟨⟨[(0, [])], by decide⟩, 0x00050000, false⟩]

/-- Syscall 1 made from outside the vsyscall page. -/
def vsyscallData : SeccompData := ⟨1, linuxAuditArch, 0, Vector.replicate 6 0⟩

/-- What `BuildProgram` makes of `vsyscallRules` with default `TRAP`. The
vsyscall check of syscall 1 jumps, on failure, to the line after `ret ALLOW`,
which is already the check `A == 0` of the next tree node. -/
def vsyscallProgram : List BPFInstruction :=
  [stmt (ld ||| abs ||| w) 4, jump (jmp ||| jeq ||| k) linuxAuditArch 1 0, stmt (jmp ||| ja) 11,
   stmt (ld ||| abs ||| w) 0, jump (jmp ||| jeq ||| k) 1 3 0, jump (jmp ||| jgt ||| k) 1 0 1,
   stmt (jmp ||| ja) 7, stmt (jmp ||| ja) 3,
   stmt (ld ||| abs ||| w) 12, jump (jmp ||| jset ||| k) 0x80000000 0 1, stmt (ret ||| k) 0x7fff0000,
   jump (jmp ||| jeq ||| k) 0 1 0, stmt (jmp ||| ja) 1, stmt (ret ||| k) 0x00050000,
   stmt (ret ||| k) 0x00030000]

theorem buildProgram_vsyscall_fallthrough :
    buildProgram vsyscallRules 0x00030000 = .ok vsyscallProgram ∧
      compile vsyscallProgram = .ok ⟨vsyscallProgram⟩ ∧
      exec ⟨vsyscallProgram⟩ vsyscallData.asInput = .ok 0x00050000 ∧
      filterAction vsyscallRules 0x00030000 vsyscallData = 0x00030000 := by
  have hbst : createBST [0, 1] = .node 1 (.node 0 .nil .nil) .nil := by
    rw [createBST]
    simp [createBST]
  have hsys : requiredSyscalls vsyscallRules = [0, 1] := by decide
  have hexec : execFuel ⟨vsyscallProgram⟩ vsyscallData.asInput 15 = some (.ok 0x00050000) := by
    decide
  refine ⟨?_, by decide, ?_, by decide⟩
  · simp only [buildProgram, buildIndex, hsys, hbst]
    rfl
  · rw [← Option.some_inj, ← execFuel_eq_exec le_rfl]
    exact hexec

end Seccomp
