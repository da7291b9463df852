import Mathlib
import Gvisor.Semaphore.Set
import Gvisor.Lib.Reachable

/-! The semaphore `Registry` and the whole system around it. Go's `*Set`
pointers are indices into `State.sets`, the sets created so far: a caller may
hold a set after `RemoveID` has taken it out of the registry, and operating
on such a dead set is part of the model. The registry's map is a list in order
of insertion; `findByKey` takes the first match where Go's map order is
unspecified. -/

namespace Semaphore
open Syserror

structure Registry where
  semaphores : List (Int32 × ℕ)
  lastIDUsed : Int32
  deriving DecidableEq, Repr

structure State where
  registry : Registry
  sets : List Set
  deriving DecidableEq, Repr

/-- `NewRegistry`. -/
def State.new : State := ⟨⟨[], 0⟩, []⟩

namespace State

def findByKey (st : State) (key : Int32) : Option ℕ :=
  (st.registry.semaphores.find? fun (_, p) => (st.sets[p]?.map (·.key)) = some key).map (·.2)

def totalSems (st : State) : ℕ :=
  (st.registry.semaphores.map fun (_, p) => (st.sets[p]?.map Set.size).getD 0).sum

/-- The ID loop of `newSet` from `id`, with `fuel` turns left: on wrap-around
it sets `id = 0`, and the loop's `id++` then moves on to 1. -/
def findID (st : State) : ℕ → Int32 → Option Int32
  | 0, _ => none
  | fuel + 1, id =>
    if id = st.registry.lastIDUsed then none
    else if id < 0 then st.findID fuel 1
    else if (st.registry.semaphores.lookup id).isNone then some id
    else st.findID fuel (id + 1)

/-- `newSet`: a set of `nsems` zero semaphores under the next free ID. -/
def newSet (st : State) (key : Int32) (owner creator : FileOwner) (perms : FilePermissions)
    (nsems : ℕ) : Outcome Errno (State × ℕ) :=
  match st.findID (2 ^ 32) (st.registry.lastIDUsed + 1) with
  | none => .error .ENOMEM
  | some id =>
    let set : Set := ⟨id, key, creator, owner, perms, List.replicate nsems ⟨0, [], 0⟩, false⟩
    .ok (⟨⟨st.registry.semaphores ++ [(id, st.sets.length)], id⟩, st.sets ++ [set]⟩,
      st.sets.length)

def FindOrCreate (st : State) (creds : Credentials) (key nsems : Int32) (mode : FileMode)
    (isPrivate create exclusive : Bool) : Outcome Errno (State × ℕ) :=
  if nsems < 0 ∨ nsems > semaphoresMax then .error .EINVAL
  else
    let found := if isPrivate then none else st.findByKey key
    match found with
    | some p =>
      match st.sets[p]? with
      | none => .panic
      | some set =>
        if !set.checkPerms creds (permsFromMode mode) then .error .EACCES
        else if nsems.toInt > set.size then .error .EINVAL
        else if create ∧ exclusive then .error .EEXIST
        else .ok (st, p)
    | none =>
      if !isPrivate ∧ !create then .error .ENOENT
      else if nsems = 0 then .error .EINVAL
      else if setsMax ≤ st.registry.semaphores.length then .error .EINVAL
      else if (semaphoresTotalMax - nsems).toInt < st.totalSems then .error .EINVAL
      else st.newSet key creds.fileOwner creds.fileOwner (filePermsFromMode mode) nsems.toInt.toNat

def RemoveID (st : State) (id : Int32) (creds : Credentials) : Outcome Errno State :=
  match st.registry.semaphores.lookup id with
  | none => .error .EINVAL
  | some p =>
    match st.sets[p]? with
    | none => .panic
    | some set =>
      if !set.checkCredentials creds ∧ !set.checkCapability creds then .error .EACCES
      else .ok ⟨⟨st.registry.semaphores.eraseP (·.1 = id), st.registry.lastIDUsed⟩,
        st.sets.set p set.destroy⟩

/-- Run an operation on the set at `p` and store the set it leaves. -/
def onSet {β : Type} (st : State) (p : ℕ) (f : Set → Outcome Errno (Set × β)) :
    Outcome Errno State :=
  match st.sets[p]? with
  | none => .panic
  | some set => do
    let (set, _) ← f set
    pure { st with sets := st.sets.set p set }

end State

/-- The calls a task makes on the system: the registry's, and those on a set
it holds. `ch` is the channel `newWaiter` makes if the operations block. -/
inductive Call where
  | findOrCreate (creds : Credentials) (key nsems : Int32) (mode : FileMode)
      (isPrivate create exclusive : Bool)
  | removeID (id : Int32) (creds : Credentials)
  | setVal (p : ℕ) (num : Int32) (val : Int16) (creds : Credentials) (pid : Int32)
  | setValAll (p : ℕ) (vals : List UInt16) (creds : Credentials) (pid : Int32)
  | executeOps (p : ℕ) (ops : List Sembuf) (creds : Credentials) (pid : Int32) (ch : Chan)
  | abortWait (p : ℕ) (num : Int32) (ch : Chan)

def State.call (st : State) : Call → Outcome Errno State
  | .findOrCreate creds key nsems mode isPrivate create exclusive => do
    let (st, _) ← st.FindOrCreate creds key nsems mode isPrivate create exclusive
    pure st
  | .removeID id creds => st.RemoveID id creds
  | .setVal p num val creds pid => st.onSet p fun s => do
    let s ← s.setVal num val creds pid
    pure (s, ())
  | .setValAll p vals creds pid => st.onSet p fun s => do
    let s ← s.setValAll vals creds pid
    pure (s, ())
  | .executeOps p ops creds pid ch => st.onSet p fun s => s.ExecuteOps ops creds pid ch
  | .abortWait p num ch => st.onSet p fun s => do
    let s ← s.abortWait num ch
    pure (s, ())

/-- A call that returns with the state `st'`; a call that fails leaves the
state as it was. -/
def Step (st st' : State) : Prop := ∃ c, st.call c = .ok st'

/-- The states reachable from `NewRegistry`. -/
def Reachable : State → Prop := Transition.Reachable (· = State.new) Step

theorem Reachable.new : Reachable State.new := Transition.Reachable.of_init rfl

theorem Reachable.call {st st' : State} (h : Reachable st) {c : Call}
    (hc : st.call c = .ok st') : Reachable st' :=
  Transition.Reachable.tail h ⟨c, hc⟩

end Semaphore
