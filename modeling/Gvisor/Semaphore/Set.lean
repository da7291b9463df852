import Gvisor.Lib.Outcome
import Gvisor.Syserror
import Mathlib.Data.List.Basic

/-! System V semaphore sets of pkg/sentry/kernel/semaphore/semaphore.go: one
`Set` and the operations on it. A waiter's channel is named by a number; the
wake-ups sent on channels are effects on the waiting tasks and are not part of
the state, only the removal of the woken waiters is. -/

namespace Semaphore
open Syserror

abbrev KUID := UInt32
abbrev KGID := UInt32
abbrev FileMode := UInt64
abbrev Chan := ℕ

/-- `valueMax`, SEMVMX. -/
def valueMax : Int16 := 32767

/-- `semaphoresMax`, SEMMSL. -/
def semaphoresMax : Int32 := 32000

/-- `setsMax`, SEMMNI. -/
def setsMax : ℕ := 32000

/-- `semaphoresTotalMax`, SEMMNS. -/
def semaphoresTotalMax : Int32 := 1024000000

/-- `linux.IPC_NOWAIT`. -/
def ipcNowait : Int16 := 0o4000

structure FileOwner where
  uid : KUID
  gid : KGID
  deriving DecidableEq, Repr

structure PermMask where
  read : Bool
  write : Bool
  execute : Bool
  deriving DecidableEq, Repr

def PermMask.supersetOf (p other : PermMask) : Bool :=
  !(!p.read && other.read) && !(!p.write && other.write) && !(!p.execute && other.execute)

/-- `FilePermissions`; the sticky, setuid and setgid bits are not read here. -/
structure FilePermissions where
  user : PermMask
  group : PermMask
  other : PermMask
  deriving DecidableEq, Repr

def permsFromMode (mode : FileMode) : PermMask :=
  ⟨mode &&& 0o4 ≠ 0, mode &&& 0o2 ≠ 0, mode &&& 0o1 ≠ 0⟩

def filePermsFromMode (mode : FileMode) : FilePermissions :=
  let perm := mode &&& 0o777
  ⟨permsFromMode (perm >>> 6), permsFromMode (perm >>> 3), permsFromMode perm⟩

/-- The credentials of a call. `capIPCOwner uid` stands for `checkCapability`
of a set owned by `uid`: `CAP_IPC_OWNER` in the registry's user namespace and
`uid` mapped in the caller's. -/
structure Credentials where
  effectiveKUID : KUID
  effectiveKGID : KGID
  extraKGIDs : List KGID
  capIPCOwner : KUID → Bool

def Credentials.inGroup (c : Credentials) (kgid : KGID) : Bool :=
  c.effectiveKGID == kgid || c.extraKGIDs.any (· == kgid)

/-- `fs.FileOwnerFromContext`. -/
def Credentials.fileOwner (c : Credentials) : FileOwner := ⟨c.effectiveKUID, c.effectiveKGID⟩

/-- `linux.Sembuf`. -/
structure Sembuf where
  semNum : UInt16
  semOp : Int16
  semFlg : Int16
  deriving DecidableEq, Repr

structure Waiter where
  value : Int16
  ch : Chan
  deriving DecidableEq, Repr

structure Sem where
  value : Int16
  waiters : List Waiter
  pid : Int32
  deriving DecidableEq, Repr

structure Set where
  id : Int32
  key : Int32
  creator : FileOwner
  owner : FileOwner
  perms : FilePermissions
  sems : List Sem
  dead : Bool
  deriving DecidableEq, Repr

/-- One turn of the loop of `sem.wakeWaiters` with the cursor at the head of
`ws`: a waiter still blocked is skipped by `continue` without `w = w.Next()`,
so the cursor stays on it; any other is woken and removed. -/
def wakeIter (value : Int16) : List Waiter → List Waiter
  | [] => []
  | w :: ws => if value < w.value then w :: ws else ws

/-- The loop of `sem.wakeWaiters` run to its end: it returns once the list is
empty and spins at the first blocked waiter. -/
def wakeLoop (value : Int16) : List Waiter → Outcome Errno Unit
  | [] => .ok ()
  | w :: ws => if value < w.value then .hang else wakeLoop value ws

def Sem.wakeWaiters (s : Sem) : Outcome Errno Sem := do
  wakeLoop s.value s.waiters
  pure { s with waiters := [] }

namespace Set

def size (s : Set) : ℕ := s.sems.length

/-- `findSem`, as the index of the semaphore. -/
def findSem (s : Set) (num : Int32) : Option ℕ :=
  if num < 0 ∨ s.size ≤ num.toInt.toNat then none else some num.toInt.toNat

def checkCredentials (s : Set) (creds : Credentials) : Bool :=
  s.owner.uid == creds.effectiveKUID || s.owner.gid == creds.effectiveKGID ||
    s.creator.uid == creds.effectiveKUID || s.creator.gid == creds.effectiveKGID

def checkCapability (s : Set) (creds : Credentials) : Bool := creds.capIPCOwner s.owner.uid

def checkPerms (s : Set) (creds : Credentials) (reqPerms : PermMask) : Bool :=
  let p := if s.owner.uid = creds.effectiveKUID then s.perms.user
    else if creds.inGroup s.owner.gid then s.perms.group
    else s.perms.other
  p.supersetOf reqPerms || s.checkCapability creds

/-- Run `f` on `&s.sems[i]`; an index out of range panics. -/
def updateSem (s : Set) (i : ℕ) (f : Sem → Outcome Errno Sem) : Outcome Errno Set :=
  match s.sems[i]? with
  | none => .panic
  | some sem => do
    let sem ← f sem
    pure { s with sems := s.sems.set i sem }

def setVal (s : Set) (num : Int32) (val : Int16) (creds : Credentials) (pid : Int32) :
    Outcome Errno Set :=
  if val < 0 ∨ val > valueMax then .error .ERANGE
  else if !s.checkPerms creds ⟨false, true, false⟩ then .error .EACCES
  else
    match s.findSem num with
    | none => .error .ERANGE
    | some i => s.updateSem i fun sem => { sem with value := val, pid := pid }.wakeWaiters

def setValAll (s : Set) (vals : List UInt16) (creds : Credentials) (pid : Int32) :
    Outcome Errno Set :=
  if vals.length ≠ s.size then .panic
  else if vals.any (· > 32767) then .error .ERANGE
  else if !s.checkPerms creds ⟨false, true, false⟩ then .error .EACCES
  else
    vals.zipIdx.foldlM (fun s (val, i) =>
      s.updateSem i fun sem => { sem with value := val.toInt16, pid := pid }.wakeWaiters) s

end Set

/-- How the loop of `executeOps` ends: every operation applied to the values
`tmpVals`, a wait queued on semaphore `num` for `value`, or an error. -/
inductive OpsResult where
  | done (tmpVals : List Int16)
  | wait (num : ℕ) (value : Int16)
  | fail (e : Errno)
  deriving DecidableEq, Repr

/-- The loop of `executeOps` over the operations, on the values `tmpVals`
(its indices were checked by `ExecuteOps`). -/
def executeLoop : List Int16 → List Sembuf → OpsResult
  | tmpVals, [] => .done tmpVals
  | tmpVals, op :: ops =>
    let n := op.semNum.toNat
    let v := tmpVals.getD n 0
    let block : OpsResult :=
      if op.semFlg &&& ipcNowait ≠ 0 then .fail .errWouldBlock else .wait n op.semOp
    if op.semOp = 0 then
      if v ≠ 0 then block else executeLoop tmpVals ops
    else if op.semOp < 0 then
      if -op.semOp > valueMax then .fail .ERANGE
      else if -op.semOp > v then block
      else executeLoop (tmpVals.set n (v + op.semOp)) ops
    else if v > valueMax - op.semOp then .fail .ERANGE
    else executeLoop (tmpVals.set n (v + op.semOp)) ops

namespace Set

/-- `executeOps`: on a wait the new waiter, with the fresh channel `ch`, is
queued and `(ch, num)` returned; otherwise the values are stored and each
semaphore wakes its waiters. -/
def executeOps (s : Set) (ops : List Sembuf) (pid : Int32) (ch : Chan) :
    Outcome Errno (Set × Option (Chan × Int32)) :=
  match executeLoop (s.sems.map Sem.value) ops with
  | .fail e => .error e
  | .wait num value =>
    .ok ({ s with sems := s.sems.modify num fun sem =>
      { sem with waiters := sem.waiters ++ [⟨value, ch⟩] } }, some (ch, Int32.ofNat num))
  | .done tmpVals => do
    let sems ← (s.sems.zip tmpVals).mapM fun (sem, v) => do
      let sem ← { sem with value := v }.wakeWaiters
      pure { sem with pid := pid }
    pure ({ s with sems := sems }, none)

def ExecuteOps (s : Set) (ops : List Sembuf) (creds : Credentials) (pid : Int32) (ch : Chan) :
    Outcome Errno (Set × Option (Chan × Int32)) :=
  if s.dead then .error .EIDRM
  else if ops.any (fun op => (s.findSem (Int32.ofNat op.semNum.toNat)).isNone) then .error .EFBIG
  else
    let readOnly := ops.all (·.semOp = 0)
    if !s.checkPerms creds ⟨readOnly, !readOnly, false⟩ then .error .EACCES
    else s.executeOps ops pid ch

/-- `AbortWait`: drop the first waiter on channel `ch`, if it is still queued. -/
def abortWait (s : Set) (num : Int32) (ch : Chan) : Outcome Errno Set :=
  match s.findSem num with
  | none => .panic
  | some i => s.updateSem i fun sem => .ok { sem with waiters := sem.waiters.eraseP (·.ch = ch) }

/-- `destroy`. Its loop ranges over copies of the semaphores, so the
`Reset` of each waiter list resets a copy: the set's own lists are kept. -/
def destroy (s : Set) : Set := { s with dead := true }

end Set
end Semaphore
