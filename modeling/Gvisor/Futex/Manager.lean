import Mathlib.Logic.Function.Basic
import Gvisor.Lib.Reachable
import Gvisor.Syserror
import Gvisor.Usermem.Addr

/-! The futex `Manager` of pkg/sentry/kernel/futex as a state machine over the
buckets' waiter lists and the `Waiter`s they link. Each operation is one step,
atomic under the bucket locks it takes; which locks, and in what order, is not
modelled. A `Manager` is its identity (that of its array of private buckets)
and its shared bucket, which `Fork` passes on.

`Target` is what an operation observes of memory. A compare-and-swap loop
retries against memory that another task has changed, so a loop is modelled by
the round that ends it, and an operation whose round would retry on a `Target`
gives no result (`none`).

Two ghost fields of the state hold what the waiters' tasks see: the sends on
each waiter's channel `C` since its last `WaitPrepare` or `LockPI`, and
whether its task is between a successful `WaitPrepare` (or a `LockPI` that
queued it) and `WaitComplete`. -/

namespace Futex

open Syserror Usermem

inductive KeyKind where
  | kindPrivate
  | kindSharedPrivate
  | kindSharedMappable
  deriving DecidableEq, Repr

/-- `Key`, with the mapped object by its identity; `MappingIdentity` only
counts references and is left out. -/
structure Key where
  kind : KeyKind
  mappable : Option ℕ
  offset : UInt64
  deriving DecidableEq, Repr

namespace Key

def release (k : Key) : Key := { k with mappable := none }

def addr (k : Key) : Addr := k.offset

end Key

/-- `matches`: a wake-up on `k2` wakes a waiter on `k`. -/
def Key.matches (k k2 : Key) : Bool :=
  k.kind == k2.kind && k.mappable == k2.mappable && k.offset == k2.offset

/-- `Target`: the memory accesses and shared keys of one operation. -/
structure Target where
  swapUint32 : Addr → UInt32 → Except Errno UInt32
  compareAndSwapUint32 : Addr → UInt32 → UInt32 → Except Errno UInt32
  loadUint32 : Addr → Except Errno UInt32
  getSharedKey : Addr → Except Errno Key

def futexOpSet : UInt32 := 0
def futexOpAdd : UInt32 := 1
def futexOpOr : UInt32 := 2
def futexOpAndn : UInt32 := 3
def futexOpXor : UInt32 := 4
def futexOpOpargShift : UInt32 := 8
def futexOpCmpEq : UInt32 := 0
def futexOpCmpNe : UInt32 := 1
def futexOpCmpLt : UInt32 := 2
def futexOpCmpLe : UInt32 := 3
def futexOpCmpGt : UInt32 := 4
def futexOpCmpGe : UInt32 := 5
def futexTidMask : UInt32 := 0x3fffffff
def futexWaiters : UInt32 := 0x80000000
def futexOwnerDied : UInt32 := 0x40000000

def check (t : Target) (addr : Addr) (val : UInt32) : Except Errno Unit :=
  match t.loadUint32 addr with
  | .error e => .error e
  | .ok cur => if cur ≠ val then .error .EAGAIN else .ok ()

/-- The new value of the word for a `FUTEX_OP` other than `FUTEX_OP_SET`,
`none` for an operation `atomicOp` does not know. -/
def opNewVal (opType opArg oldVal : UInt32) : Option UInt32 :=
  if opType = futexOpAdd then some (oldVal + opArg)
  else if opType = futexOpOr then some (oldVal ||| opArg)
  else if opType = futexOpAndn then some (oldVal &&& ~~~opArg)
  else if opType = futexOpXor then some (oldVal ^^^ opArg)
  else none

/-- The comparison of `atomicOp` of the old value with `cmpArg`. -/
def opCmp (cmp cmpArg oldVal : UInt32) : Except Errno Bool :=
  if cmp = futexOpCmpEq then .ok (oldVal == cmpArg)
  else if cmp = futexOpCmpNe then .ok (oldVal != cmpArg)
  else if cmp = futexOpCmpLt then .ok (decide (oldVal < cmpArg))
  else if cmp = futexOpCmpLe then .ok (decide (oldVal ≤ cmpArg))
  else if cmp = futexOpCmpGt then .ok (decide (oldVal > cmpArg))
  else if cmp = futexOpCmpGe then .ok (decide (oldVal ≥ cmpArg))
  else .error .ENOSYS

/-- `atomicOp`. A shift of a `uint32` by 32 or more is 0 in Go. -/
def atomicOp (t : Target) (addr : Addr) (opIn : UInt32) : Option (Except Errno Bool) :=
  let opType := (opIn >>> 28) &&& 0xf
  let cmp := (opIn >>> 24) &&& 0xf
  let opArg := (opIn >>> 12) &&& 0xfff
  let cmpArg := opIn &&& 0xfff
  let (opType, opArg) :=
    if opType &&& futexOpOpargShift ≠ 0 then
      (opType &&& ~~~futexOpOpargShift, if opArg < 32 then 1 <<< opArg else 0)
    else (opType, opArg)
  let oldVal : Option (Except Errno UInt32) :=
    if opType = futexOpSet then some (t.swapUint32 addr opArg)
    else
      match t.loadUint32 addr with
      | .error e => some (.error e)
      | .ok oldVal =>
        match opNewVal opType opArg oldVal with
        | none => some (.error .ENOSYS)
        | some newVal =>
          match t.compareAndSwapUint32 addr oldVal newVal with
          | .error e => some (.error e)
          | .ok prev => if prev = oldVal then some (.ok oldVal) else none
  oldVal.map fun r => r.bind (opCmp cmp cmpArg)

def bucketCountBits : ℕ := 10

def bucketCount : ℕ := 1 <<< bucketCountBits

/-- `bucketIndexForAddr`, in the wrapping arithmetic of `uintptr`. -/
def bucketIndexForAddr (addr : Addr) : UInt64 :=
  let h1 := (addr >>> 2) + (addr >>> 12) + (addr >>> 22)
  let h2 := (addr >>> 32) + (addr >>> 42)
  (h1 + h2) % bucketCount.toUInt64

theorem bucketIndexForAddr_lt (addr : Addr) : (bucketIndexForAddr addr).toNat < bucketCount := by
  unfold bucketIndexForAddr
  rw [UInt64.toNat_mod]
  exact Nat.lt_of_lt_of_le (Nat.mod_lt _ (by decide)) (by decide)

/-- The index of the private bucket of a key. -/
def privateIndex (k : Key) : Fin bucketCount :=
  ⟨(bucketIndexForAddr k.addr).toNat, bucketIndexForAddr_lt _⟩

/-- The buckets of all managers: `priv id i` is `privateBuckets[i]` of the
manager `id`, and `shared id` a bucket that `NewManager` allocates. -/
inductive BucketId where
  | priv (id : ℕ) (i : Fin bucketCount)
  | shared (id : ℕ)
  deriving DecidableEq, Repr

structure Waiter where
  bucket : Option BucketId
  /-- The wake-ups in the channel `C`, which holds at most one. -/
  c : ℕ
  key : Key
  bitmask : UInt32
  tid : UInt32
  deriving DecidableEq, Repr

def newWaiter : Waiter := ⟨none, 0, ⟨.kindPrivate, none, 0⟩, 0, 0⟩

def Waiter.woken (w : Waiter) : Bool := w.c != 0

structure Manager where
  id : ℕ
  sharedBucket : ℕ
  deriving DecidableEq, Repr

namespace Manager

/-- `NewManager`, given fresh identities for the manager and its shared bucket. -/
def newManager (id shared : ℕ) : Manager := ⟨id, shared⟩

/-- `Fork`: the manager of identity `id` with `m`'s shared bucket. -/
def fork (m : Manager) (id : ℕ) : Manager := ⟨id, m.sharedBucket⟩

def lockBucket (m : Manager) (k : Key) : BucketId :=
  if k.kind = .kindSharedMappable then .shared m.sharedBucket
  else .priv m.id (privateIndex k)

/-- `lockBuckets`; the order in which it locks them is left out. -/
def lockBuckets (m : Manager) (k1 k2 : Key) : BucketId × BucketId :=
  if k1.kind ≠ .kindSharedMappable ∧ k2.kind ≠ .kindSharedMappable then
    (.priv m.id (privateIndex k1), .priv m.id (privateIndex k2))
  else if k1.kind ≠ .kindSharedMappable then (m.lockBucket k1, .shared m.sharedBucket)
  else if k2.kind ≠ .kindSharedMappable then (.shared m.sharedBucket, m.lockBucket k2)
  else (.shared m.sharedBucket, .shared m.sharedBucket)

end Manager

def getKey (t : Target) (addr : Addr) (priv : Bool) : Except Errno Key :=
  if addr &&& 3 ≠ 0 then .error .EINVAL
  else if priv then .ok ⟨.kindPrivate, none, addr⟩
  else t.getSharedKey addr

structure State where
  waiters : ℕ → Waiter
  buckets : BucketId → List ℕ
  /-- The sends on each waiter's `C` since its last `WaitPrepare` or `LockPI`. -/
  sends : ℕ → ℕ
  /-- The waiter's task is between a successful `WaitPrepare`, or a `LockPI`
  that queued it, and `WaitComplete`. -/
  prepared : ℕ → Bool

namespace State

/-- No waiter is queued and every one is as `NewWaiter` makes it. -/
def init : State := ⟨fun _ => newWaiter, fun _ => [], fun _ => 0, fun _ => false⟩

/-- `b.waiters.Remove(w)`. -/
@[simps]
def remove (s : State) (b : BucketId) (w : ℕ) : State :=
  { s with buckets := Function.update s.buckets b ((s.buckets b).erase w) }

/-- `b.waiters.PushBack(w)`. -/
@[simps]
def pushBack (s : State) (b : BucketId) (w : ℕ) : State :=
  { s with buckets := Function.update s.buckets b (s.buckets b ++ [w]) }

@[simps]
def modifyWaiter (s : State) (w : ℕ) (f : Waiter → Waiter) : State :=
  { s with waiters := Function.update s.waiters w (f (s.waiters w)) }

/-- `w.bucket.Store(b)`. -/
@[simps]
def setBucket (s : State) (w : ℕ) (b : Option BucketId) : State :=
  { s with waiters := Function.update s.waiters w { s.waiters w with bucket := b } }

/-- `w.key.release()`. -/
@[simps]
def releaseKey (s : State) (w : ℕ) : State :=
  { s with waiters := Function.update s.waiters w { s.waiters w with key := (s.waiters w).key.release } }

/-- `w.C <- struct{}{}`. -/
@[simps]
def send (s : State) (w : ℕ) : State :=
  { s with
    waiters := Function.update s.waiters w { s.waiters w with c := (s.waiters w).c + 1 }
    sends := Function.update s.sends w (s.sends w + 1) }

/-- `select { case <-w.C: default: }`, from which the sends are counted again. -/
@[simps]
def drain (s : State) (w : ℕ) : State :=
  { s with
    waiters := Function.update s.waiters w { s.waiters w with c := (s.waiters w).c - 1 }
    sends := Function.update s.sends w 0 }

@[simps]
def setPrepared (s : State) (w : ℕ) (p : Bool) : State :=
  { s with prepared := Function.update s.prepared w p }

def wakeWaiterLocked (s : State) (b : BucketId) (w : ℕ) : State :=
  ((s.remove b w).send w).setBucket w none

/-- The loop of `wakeLocked` over the rest `ws` of the list, `done` waiters
woken so far. -/
def wakeLoop (b : BucketId) (key : Key) (bitmask : UInt32) (n : ℤ) :
    State → List ℕ → ℤ → State × ℤ
  | s, [], done => (s, done)
  | s, w :: ws, done =>
    if done < n then
      if !(s.waiters w).key.matches key || (s.waiters w).bitmask &&& bitmask == 0 then
        wakeLoop b key bitmask n s ws done
      else wakeLoop b key bitmask n (s.wakeWaiterLocked b w) ws (done + 1)
    else (s, done)

def wakeLocked (s : State) (b : BucketId) (key : Key) (bitmask : UInt32) (n : ℤ) : State × ℤ :=
  wakeLoop b key bitmask n s (s.buckets b) 0

/-- The body of `requeueLocked` for the waiter `w`. -/
def requeueWaiter (s : State) (b toBucket : BucketId) (w : ℕ) (nkey : Key) : State :=
  (((s.remove b w).modifyWaiter w fun x => { x with key := nkey }).pushBack toBucket w).setBucket w
    (some toBucket)

/-- The loop of `requeueLocked`. `ws` is the rest of the list as the loop
visits it: a waiter requeued to the bucket it came from goes to the end of the
list and is visited again, unless it was the last, `w.Next()` being read before
it moved. -/
def requeueLoop (b toBucket : BucketId) (key nkey : Key) (n : ℤ) : State → List ℕ → ℤ → State × ℤ
  | s, [], done => (s, done)
  | s, w :: ws, done =>
    if done < n then
      if !(s.waiters w).key.matches key then requeueLoop b toBucket key nkey n s ws done
      else
        requeueLoop b toBucket key nkey n (s.requeueWaiter b toBucket w nkey)
          (if toBucket = b ∧ ws ≠ [] then ws ++ [w] else ws) (done + 1)
    else (s, done)
termination_by _ ws done => ((n - done).toNat, ws.length)

def requeueLocked (s : State) (b toBucket : BucketId) (key nkey : Key) (n : ℤ) : State × ℤ :=
  requeueLoop b toBucket key nkey n s (s.buckets b) 0

/-- `Wake`. -/
def wake (s : State) (m : Manager) (t : Target) (addr : Addr) (priv : Bool) (bitmask : UInt32)
    (n : ℤ) : State × Except Errno ℤ :=
  match getKey t addr priv with
  | .error e => (s, .error e)
  | .ok k =>
    let (s, r) := s.wakeLocked (m.lockBucket k) k bitmask n
    (s, .ok r)

def doRequeue (s : State) (m : Manager) (t : Target) (addr naddr : Addr) (priv checkval : Bool)
    (val : UInt32) (nwake nreq : ℤ) : State × Except Errno ℤ :=
  match getKey t addr priv with
  | .error e => (s, .error e)
  | .ok k1 =>
    match getKey t naddr priv with
    | .error e => (s, .error e)
    | .ok k2 =>
      let (b1, b2) := m.lockBuckets k1 k2
      let checked : Except Errno Unit := if checkval then check t addr val else .ok ()
      match checked with
      | .error e => (s, .error e)
      | .ok () =>
        let (s, done) := s.wakeLocked b1 k1 (~~~0) nwake
        let (s, _) := s.requeueLocked b1 b2 k1 k2 nreq
        (s, .ok done)

/-- `Requeue`. -/
def requeue (s : State) (m : Manager) (t : Target) (addr naddr : Addr) (priv : Bool)
    (nwake nreq : ℤ) : State × Except Errno ℤ :=
  s.doRequeue m t addr naddr priv false 0 nwake nreq

/-- `RequeueCmp`. -/
def requeueCmp (s : State) (m : Manager) (t : Target) (addr naddr : Addr) (priv : Bool)
    (val : UInt32) (nwake nreq : ℤ) : State × Except Errno ℤ :=
  s.doRequeue m t addr naddr priv true val nwake nreq

/-- `WakeOp`. -/
def wakeOp (s : State) (m : Manager) (t : Target) (addr1 addr2 : Addr) (priv : Bool)
    (nwake1 nwake2 : ℤ) (op : UInt32) : Option (State × Except Errno ℤ) :=
  match getKey t addr1 priv with
  | .error e => some (s, .error e)
  | .ok k1 =>
    match getKey t addr2 priv with
    | .error e => some (s, .error e)
    | .ok k2 =>
      let (b1, b2) := m.lockBuckets k1 k2
      (atomicOp t addr2 op).map fun
        | .error e => (s, .error e)
        | .ok cond =>
          let (s, done) := s.wakeLocked b1 k1 (~~~0) nwake1
          if cond then
            let (s, done2) := s.wakeLocked b2 k2 (~~~0) nwake2
            (s, .ok (done + done2))
          else (s, .ok done)

/-- `WaitPrepare`. -/
def waitPrepare (s : State) (m : Manager) (w : ℕ) (t : Target) (addr : Addr) (priv : Bool)
    (val bitmask : UInt32) : State × Except Errno Unit :=
  match getKey t addr priv with
  | .error e => (s, .error e)
  | .ok k =>
    let s := (s.drain w).modifyWaiter w fun x => { x with key := k, bitmask := bitmask }
    let b := m.lockBucket k
    match check t addr val with
    | .error e => (s.releaseKey w, .error e)
    | .ok () => ((((s.pushBack b w).setBucket w (some b))).setPrepared w true, .ok ())

/-- `WaitComplete`, whose loop ends at the bucket `w` is in when it holds that
bucket's lock. -/
def waitComplete (s : State) (w : ℕ) : State :=
  let s :=
    match (s.waiters w).bucket with
    | none => s
    | some b => (s.remove b w).setBucket w none
  (s.releaseKey w).setPrepared w false

/-- `lockPILocked`, `none` when the round's compare-and-swap fails. -/
def lockPILocked (s : State) (w : ℕ) (t : Target) (addr : Addr) (tid : UInt32) (b : BucketId)
    (tryLock : Bool) : Option (State × Except Errno Bool) :=
  match t.loadUint32 addr with
  | .error e => some (s, .error e)
  | .ok cur =>
    if cur &&& futexTidMask = tid then some (s, .error .EDEADLK)
    else if cur &&& futexTidMask = 0 then
      match t.compareAndSwapUint32 addr cur (tid ||| cur &&& futexOwnerDied) with
      | .error e => some (s, .error e)
      | .ok prev => if prev ≠ cur then none else some (s, .ok true)
    else if tryLock then some (s, .ok false)
    else
      let waitersSet : Option (Except Errno Unit) :=
        if cur &&& futexWaiters = 0 then
          match t.compareAndSwapUint32 addr cur (cur ||| futexWaiters) with
          | .error e => some (.error e)
          | .ok prev => if prev ≠ cur then none else some (.ok ())
        else some (.ok ())
      waitersSet.map fun
        | .error e => (s, .error e)
        | .ok () => ((s.pushBack b w).setBucket w (some b), .ok false)

/-- `LockPI`. -/
def lockPI (s : State) (m : Manager) (w : ℕ) (t : Target) (addr : Addr) (tid : UInt32)
    (priv tryLock : Bool) : Option (State × Except Errno Bool) :=
  match getKey t addr priv with
  | .error e => some (s, .error e)
  | .ok k =>
    let s := (s.drain w).modifyWaiter w fun x => { x with key := k, tid := tid }
    (s.lockPILocked w t addr tid (m.lockBucket k) tryLock).map fun
      | (s, .error e) => (s.releaseKey w, .error e)
      | (s, .ok success) =>
        if success || tryLock then (s.releaseKey w, .ok success)
        else (s.setPrepared w true, .ok success)

def unlockPILocked (s : State) (t : Target) (addr : Addr) (tid : UInt32) (b : BucketId)
    (key : Key) : State × Except Errno Unit :=
  match t.loadUint32 addr with
  | .error e => (s, .error e)
  | .ok cur =>
    if cur &&& futexTidMask ≠ tid then (s, .error .EPERM)
    else
      match (s.buckets b).filter fun w => (s.waiters w).key.matches key with
      | [] =>
        match t.compareAndSwapUint32 addr cur 0 with
        | .error e => (s, .error e)
        | .ok prev => if prev ≠ cur then (s, .error .EAGAIN) else (s, .ok ())
      | next :: rest =>
        let val := if rest = [] then (s.waiters next).tid else (s.waiters next).tid ||| futexWaiters
        match t.compareAndSwapUint32 addr cur val with
        | .error e => (s, .error e)
        | .ok prev => if prev ≠ cur then (s, .error .EINVAL) else (s.wakeWaiterLocked b next, .ok ())

/-- `UnlockPI`. -/
def unlockPI (s : State) (m : Manager) (t : Target) (addr : Addr) (tid : UInt32) (priv : Bool) :
    State × Except Errno Unit :=
  match getKey t addr priv with
  | .error e => (s, .error e)
  | .ok k => s.unlockPILocked t addr tid (m.lockBucket k) k

/-- The waiter's task receives from `w.C`. -/
def receive (s : State) (w : ℕ) : State :=
  s.modifyWaiter w fun x => { x with c := x.c - 1 }

end State

/-- The steps of the futex state machine. A task calls `WaitPrepare` and
`LockPI` on its waiter only after `WaitComplete` has ended its previous wait. -/
inductive Step : State → State → Prop
  | waitPrepare (s : State) (m : Manager) (w : ℕ) (t : Target) (addr : Addr) (priv : Bool)
      (val bitmask : UInt32) :
      s.prepared w = false → Step s (s.waitPrepare m w t addr priv val bitmask).1
  | waitComplete (s : State) (w : ℕ) : Step s (s.waitComplete w)
  | wake (s : State) (m : Manager) (t : Target) (addr : Addr) (priv : Bool) (bitmask : UInt32)
      (n : ℤ) : Step s (s.wake m t addr priv bitmask n).1
  | requeue (s : State) (m : Manager) (t : Target) (addr naddr : Addr) (priv : Bool)
      (nwake nreq : ℤ) : Step s (s.requeue m t addr naddr priv nwake nreq).1
  | requeueCmp (s : State) (m : Manager) (t : Target) (addr naddr : Addr) (priv : Bool)
      (val : UInt32) (nwake nreq : ℤ) : Step s (s.requeueCmp m t addr naddr priv val nwake nreq).1
  | wakeOp (s s' : State) (m : Manager) (t : Target) (addr1 addr2 : Addr) (priv : Bool)
      (nwake1 nwake2 : ℤ) (op : UInt32) (r : Except Errno ℤ) :
      s.wakeOp m t addr1 addr2 priv nwake1 nwake2 op = some (s', r) → Step s s'
  | lockPI (s s' : State) (m : Manager) (w : ℕ) (t : Target) (addr : Addr) (tid : UInt32)
      (priv tryLock : Bool) (r : Except Errno Bool) :
      s.prepared w = false → s.lockPI m w t addr tid priv tryLock = some (s', r) → Step s s'
  | unlockPI (s : State) (m : Manager) (t : Target) (addr : Addr) (tid : UInt32) (priv : Bool) :
      Step s (s.unlockPI m t addr tid priv).1
  | receive (s : State) (w : ℕ) : 0 < (s.waiters w).c → Step s (s.receive w)

/-- The states the futex state machine reaches from `State.init`. -/
def Reachable (s : State) : Prop := Transition.Reachable (· = State.init) Step s

end Futex
