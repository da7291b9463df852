import Mathlib.Data.List.Nodup
import Gvisor.Futex.AtomicOp

/-! The waiter lists of the futex state machine. In every reachable state a
waiter is in the list of at most one bucket, the one its `bucket` field names
and that `lockBucket` computes from its key, and is there once; a waiter is
sent at most one wake-up after each `WaitPrepare`; and a wake that wakes fewer
waiters than it was asked to has woken every prepared waiter it finds and whose
key matches. -/

namespace Futex

open Syserror Usermem

theorem Key.matches_iff {k k2 : Key} : k.matches k2 = true ↔ k = k2 := by
  cases k
  cases k2
  simp [Key.matches, and_assoc]

namespace Manager

theorem lockBucket_kind_ne {m : Manager} {k : Key} (h : k.kind ≠ .kindSharedMappable) :
    m.lockBucket k = .priv m.id (privateIndex k) := by
  simp [lockBucket, h]

theorem lockBuckets_eq (m : Manager) (k1 k2 : Key) :
    m.lockBuckets k1 k2 = (m.lockBucket k1, m.lockBucket k2) := by
  by_cases h1 : k1.kind = .kindSharedMappable <;> by_cases h2 : k2.kind = .kindSharedMappable <;>
    simp [lockBuckets, lockBucket, h1, h2]

/-- Managers related by `Fork` agree on the bucket of a shared-mappable key. -/
theorem fork_lockBucket (m : Manager) (id : ℕ) {k : Key} (h : k.kind = .kindSharedMappable) :
    (m.fork id).lockBucket k = m.lockBucket k := by
  simp [lockBucket, fork, h]

end Manager

namespace State

variable {s : State} {b b' toBucket : BucketId} {w x : ℕ}

theorem mem_remove_of_ne (h : x ≠ w) : x ∈ (s.remove b w).buckets b' ↔ x ∈ s.buckets b' := by
  simp only [remove_buckets, Function.update_apply]
  split_ifs with hb
  · subst hb
    exact List.mem_erase_of_ne h
  · rfl

theorem mem_pushBack_of_ne (h : x ≠ w) : x ∈ (s.pushBack b w).buckets b' ↔ x ∈ s.buckets b' := by
  simp only [pushBack_buckets, Function.update_apply]
  split_ifs with hb
  · subst hb
    simp [h]
  · rfl

theorem mem_remove_self (hnd : (s.buckets b).Nodup) :
    w ∈ (s.remove b w).buckets b' ↔ b' ≠ b ∧ w ∈ s.buckets b' := by
  simp only [remove_buckets, Function.update_apply]
  split_ifs with hb
  · subst hb
    simpa using hnd.not_mem_erase
  · simp [hb]

theorem mem_pushBack_self : w ∈ (s.pushBack b w).buckets b' ↔ b' = b ∨ w ∈ s.buckets b' := by
  simp only [pushBack_buckets, Function.update_apply]
  split_ifs with hb <;> simp [hb]

theorem nodup_remove (hnd : ∀ b, (s.buckets b).Nodup) (b' : BucketId) :
    ((s.remove b w).buckets b').Nodup := by
  simp only [remove_buckets, Function.update_apply]
  split_ifs
  · exact (hnd b).erase w
  · exact hnd b'

theorem nodup_pushBack (hnd : ∀ b, (s.buckets b).Nodup) (hw : w ∉ s.buckets b) (b' : BucketId) :
    ((s.pushBack b w).buckets b').Nodup := by
  simp only [pushBack_buckets, Function.update_apply]
  split_ifs with hb
  · subst hb
    exact List.nodup_append.2 ⟨hnd _, by simp, fun x hx y hy => by
      rw [List.mem_singleton.1 hy]
      exact fun h => hw (h ▸ hx)⟩
  · exact hnd b'

theorem wakeWaiterLocked_buckets : (s.wakeWaiterLocked b w).buckets = (s.remove b w).buckets := rfl

theorem requeueWaiter_buckets {nkey : Key} :
    (s.requeueWaiter b toBucket w nkey).buckets = ((s.remove b w).pushBack toBucket w).buckets := rfl

theorem releaseKey_eq : s.releaseKey w = s.modifyWaiter w fun x => { x with key := x.key.release } :=
  rfl

/-- The invariant of one waiter: its lists, its bucket, and its channel. -/
structure WaiterInv (s : State) (w : ℕ) : Prop where
  mem_iff : ∀ b, w ∈ s.buckets b ↔ (s.waiters w).bucket = some b
  lockBucket : ∀ b, (s.waiters w).bucket = some b → ∃ m : Manager, b = m.lockBucket (s.waiters w).key
  queued : (s.waiters w).bucket ≠ none → s.prepared w = true ∧ s.sends w = 0
  c_le : (s.waiters w).c ≤ s.sends w
  sends_le : s.sends w ≤ 1
  prepared : s.prepared w = true → (s.waiters w).bucket ≠ none ∨ s.sends w = 1

structure Inv (s : State) : Prop where
  nodup : ∀ b, (s.buckets b).Nodup
  waiter : ∀ w, WaiterInv s w

/-- A waiter whose fields, ghosts and lists an operation leaves alone keeps its
invariant. -/
theorem WaiterInv.frame {s' : State} (h : WaiterInv s x) (hw : s'.waiters x = s.waiters x)
    (hs : s'.sends x = s.sends x) (hp : s'.prepared x = s.prepared x)
    (hm : ∀ b, x ∈ s'.buckets b ↔ x ∈ s.buckets b) : WaiterInv s' x where
  mem_iff b := by rw [hm, hw]; exact h.mem_iff b
  lockBucket b := by rw [hw]; exact h.lockBucket b
  queued := by rw [hw, hs, hp]; exact h.queued
  c_le := by rw [hw, hs]; exact h.c_le
  sends_le := by rw [hs]; exact h.sends_le
  prepared := by rw [hw, hs, hp]; exact h.prepared

theorem Inv.not_mem_of_bucket_ne (hi : Inv s) (hb : (s.waiters w).bucket ≠ some b) :
    w ∉ s.buckets b := fun hm => hb (((hi.waiter w).mem_iff b).1 hm)

theorem Inv.bucket_none (hi : Inv s) (hp : s.prepared w = false) : (s.waiters w).bucket = none := by
  by_contra hb
  simp [((hi.waiter w).queued hb).1] at hp

theorem Inv.c_le_one (hi : Inv s) (w : ℕ) : (s.waiters w).c ≤ 1 :=
  ((hi.waiter w).c_le).trans (hi.waiter w).sends_le

theorem Inv.wakeWaiterLocked (hi : Inv s) (hw : w ∈ s.buckets b) : Inv (s.wakeWaiterLocked b w) := by
  have hb := ((hi.waiter w).mem_iff b).1 hw
  obtain ⟨-, hs⟩ := (hi.waiter w).queued (by simp [hb])
  have hc := (hi.waiter w).c_le
  refine ⟨fun b' => ?_, fun x => ?_⟩
  · simpa [State.wakeWaiterLocked] using nodup_remove hi.nodup b'
  by_cases hx : x = w
  · subst hx
    refine ⟨fun b' => ?_, by simp [State.wakeWaiterLocked], by simp [State.wakeWaiterLocked], ?_, ?_, ?_⟩
    · have := @mem_remove_self s b b' x (hi.nodup b)
      simp only [State.wakeWaiterLocked, setBucket_buckets, send_buckets, setBucket_waiters,
        Function.update_self, reduceCtorEq, iff_false] at this ⊢
      rw [this, (hi.waiter x).mem_iff, hb]
      simp [eq_comm]
    all_goals simp [State.wakeWaiterLocked, hs]
    omega
  · refine (hi.waiter x).frame (by simp [State.wakeWaiterLocked, hx]) (by simp [State.wakeWaiterLocked, hx])
      (by simp [State.wakeWaiterLocked]) fun b' => ?_
    simp only [State.wakeWaiterLocked, setBucket_buckets, send_buckets]
    exact mem_remove_of_ne hx

theorem Inv.requeueWaiter (hi : Inv s) (hw : w ∈ s.buckets b) {nkey : Key}
    (hm : ∃ m : Manager, toBucket = m.lockBucket nkey) : Inv (s.requeueWaiter b toBucket w nkey) := by
  have hb := ((hi.waiter w).mem_iff b).1 hw
  have hq := (hi.waiter w).queued (by simp [hb])
  have hgone : ∀ b', w ∉ (s.remove b w).buckets b' := fun b' h => by
    obtain ⟨hne, hmem⟩ := (mem_remove_self (hi.nodup b)).1 h
    exact hne (Option.some.inj ((((hi.waiter w).mem_iff b').1 hmem).symm.trans hb))
  refine ⟨fun b' => ?_, fun x => ?_⟩
  · rw [requeueWaiter_buckets]
    exact nodup_pushBack (nodup_remove hi.nodup) (hgone toBucket) b'
  by_cases hx : x = w
  · subst hx
    have hc := (hi.waiter x).c_le
    refine ⟨fun b' => ?_, fun b' hb' => ?_, fun _ => ?_, ?_, ?_, fun _ => ?_⟩
    · rw [requeueWaiter_buckets, mem_pushBack_self]
      simp [State.requeueWaiter, hgone b', -remove_buckets, eq_comm]
    · simp only [State.requeueWaiter, setBucket_waiters, Function.update_self,
        Option.some.injEq] at hb' ⊢
      simpa [hb'] using hm
    all_goals simp [State.requeueWaiter, hq]
    omega
  · refine (hi.waiter x).frame (by simp [State.requeueWaiter, hx]) (by simp [State.requeueWaiter])
      (by simp [State.requeueWaiter]) fun b' => ?_
    rw [requeueWaiter_buckets, mem_pushBack_of_ne hx]
    exact mem_remove_of_ne hx

/-- A change to one waiter that keeps its bucket, the key it is queued under
and its channel within the sends it was sent. -/
theorem Inv.modifyWaiter (hi : Inv s) {f : Waiter → Waiter}
    (hb : (f (s.waiters w)).bucket = (s.waiters w).bucket)
    (hk : (s.waiters w).bucket ≠ none → (f (s.waiters w)).key = (s.waiters w).key)
    (hc : (f (s.waiters w)).c ≤ s.sends w) : Inv (s.modifyWaiter w f) := by
  refine ⟨fun b' => by simpa using hi.nodup b', fun x => ?_⟩
  by_cases hx : x = w
  · subst hx
    have h := hi.waiter x
    refine ⟨fun b' => ?_, fun b' hb' => ?_, fun hq => ?_, ?_, ?_, fun hp => ?_⟩
    · simpa [hb] using h.mem_iff b'
    · simp only [modifyWaiter_waiters, Function.update_self] at hb' ⊢
      rw [hk (by simp [hb ▸ hb'])]
      exact h.lockBucket b' (hb ▸ hb')
    · simpa using h.queued (by simpa [hb] using hq)
    · simpa using hc
    · simpa using h.sends_le
    · simpa [hb] using h.prepared (by simpa using hp)
  · exact (hi.waiter x).frame (by simp [hx]) (by simp) (by simp) fun b' => by simp

theorem Inv.releaseKey (hi : Inv s) (hb : (s.waiters w).bucket = none) : Inv (s.releaseKey w) := by
  rw [releaseKey_eq]
  exact hi.modifyWaiter rfl (fun h => absurd hb h) (hi.waiter w).c_le

theorem Inv.receive (hi : Inv s) : Inv (s.receive w) :=
  hi.modifyWaiter rfl (fun _ => rfl) ((Nat.sub_le _ 1).trans (hi.waiter w).c_le)

/-- The drain at the start of `WaitPrepare` and `LockPI`, of a waiter whose task
is not waiting. -/
theorem Inv.drain (hi : Inv s) (hp : s.prepared w = false) : Inv (s.drain w) := by
  have hb := hi.bucket_none hp
  have hc := hi.c_le_one w
  refine ⟨fun b' => by simpa using hi.nodup b', fun x => ?_⟩
  by_cases hx : x = w
  · subst hx
    refine ⟨fun b' => ?_, fun b' hb' => ?_, fun hq => ?_, ?_, ?_, fun hp' => ?_⟩
    · simpa [hb] using (hi.waiter x).mem_iff b'
    all_goals simp_all
  · exact (hi.waiter x).frame (by simp [hx]) (by simp [hx]) (by simp) fun b' => by simp

/-- Queueing a drained waiter in the bucket of its key, as `WaitPrepare` and
`lockPILocked` do, with the task then waiting. -/
theorem Inv.enqueue (hi : Inv s) (hb : (s.waiters w).bucket = none) (hs : s.sends w = 0)
    (hm : ∃ m : Manager, b = m.lockBucket (s.waiters w).key) :
    Inv (((s.pushBack b w).setBucket w (some b)).setPrepared w true) := by
  have hnot : ∀ b', w ∉ s.buckets b' := fun b' => hi.not_mem_of_bucket_ne (by simp [hb])
  refine ⟨fun b' => by simpa using nodup_pushBack hi.nodup (hnot b) b', fun x => ?_⟩
  by_cases hx : x = w
  · subst hx
    have hc := (hi.waiter x).c_le
    refine ⟨fun b' => ?_, fun b' hb' => ?_, fun _ => ?_, ?_, ?_, fun _ => ?_⟩
    · rw [setPrepared_buckets, setBucket_buckets, mem_pushBack_self]
      simp [hnot b', eq_comm]
    · simp only [setPrepared_waiters, setBucket_waiters, Function.update_self,
        Option.some.injEq] at hb' ⊢
      simpa [hb'] using hm
    all_goals simp [hs]
    omega
  · refine (hi.waiter x).frame (by simp [hx]) (by simp) (by simp [hx]) fun b' => ?_
    rw [setPrepared_buckets, setBucket_buckets, mem_pushBack_of_ne hx]

/-- A waiter that is not queued can end its wait. -/
theorem Inv.setPrepared_false (hi : Inv s) (hb : (s.waiters w).bucket = none) :
    Inv (s.setPrepared w false) := by
  refine ⟨fun b' => by simpa using hi.nodup b', fun x => ?_⟩
  by_cases hx : x = w
  · subst hx
    have h := hi.waiter x
    exact ⟨fun b' => by simpa using h.mem_iff b', fun b' => by simpa using h.lockBucket b',
      fun hq => absurd hb (by simpa using hq), by simpa using h.c_le, by simpa using h.sends_le,
      fun hp => by simp at hp⟩
  · exact (hi.waiter x).frame (by simp) (by simp) (by simp [hx]) fun b' => by simp

/-- `WaitComplete` of a queued waiter takes it off its list. -/
theorem Inv.dequeue (hi : Inv s) (hb : (s.waiters w).bucket = some b) :
    Inv ((((s.remove b w).setBucket w none).releaseKey w).setPrepared w false) := by
  have hgone : ∀ b', w ∉ (s.remove b w).buckets b' := fun b' h => by
    obtain ⟨hne, hmem⟩ := (mem_remove_self (hi.nodup b)).1 h
    exact hne (Option.some.inj ((((hi.waiter w).mem_iff b').1 hmem).symm.trans hb))
  refine ⟨fun b' => by simpa using nodup_remove hi.nodup b', fun x => ?_⟩
  by_cases hx : x = w
  · subst hx
    have h := hi.waiter x
    refine ⟨fun b' => ?_, fun b' hb' => by simp at hb', fun hq => by simp at hq,
      by simpa using h.c_le, by simpa using h.sends_le, fun hp => by simp at hp⟩
    rw [setPrepared_buckets, releaseKey_buckets, setBucket_buckets]
    simp [hgone b', -remove_buckets]
  · refine (hi.waiter x).frame (by simp [hx]) (by simp) (by simp [hx]) fun b' => ?_
    rw [setPrepared_buckets, releaseKey_buckets, setBucket_buckets]
    exact mem_remove_of_ne hx

theorem Inv.waitComplete (hi : Inv s) : Inv (s.waitComplete w) := by
  unfold State.waitComplete
  cases hb : (s.waiters w).bucket with
  | none => exact (hi.releaseKey hb).setPrepared_false (by simpa using hb)
  | some b => exact hi.dequeue hb

/-- The loop of `wakeLocked` keeps the invariant while the rest of the list it
walks is a list of distinct waiters of the bucket. -/
theorem Inv.wakeLoop {key : Key} {bitmask : UInt32} {n : ℤ} :
    ∀ {s : State} {ws : List ℕ} {done : ℤ}, Inv s → ws.Nodup → (∀ x ∈ ws, x ∈ s.buckets b) →
      Inv (State.wakeLoop b key bitmask n s ws done).1
  | s, [], done, hi, _, _ => by simpa [State.wakeLoop] using hi
  | s, w :: ws, done, hi, hnd, hsub => by
    have hw := hsub w List.mem_cons_self
    have hrest : ∀ x ∈ ws, x ∈ s.buckets b := fun x hx => hsub x (List.mem_cons_of_mem _ hx)
    rw [State.wakeLoop]
    split_ifs
    · exact hi.wakeLoop hnd.of_cons hrest
    · refine (hi.wakeWaiterLocked hw).wakeLoop hnd.of_cons fun x hx => ?_
      have hne : x ≠ w := fun h => (List.nodup_cons.1 hnd).1 (h ▸ hx)
      rw [wakeWaiterLocked_buckets, mem_remove_of_ne hne]
      exact hrest x hx
    · exact hi

theorem Inv.wakeLocked (hi : Inv s) {key : Key} {bitmask : UInt32} {n : ℤ} :
    Inv (s.wakeLocked b key bitmask n).1 :=
  hi.wakeLoop (hi.nodup b) fun _ h => h

/-- The loop of `requeueLocked`, whose list is walked on through the waiters
it moves to its own end when the two buckets are one. -/
theorem Inv.requeueLoop {key nkey : Key} {n : ℤ} (hm : ∃ m : Manager, toBucket = m.lockBucket nkey)
    {s : State} {ws : List ℕ} {done : ℤ} (hi : Inv s) (hnd : ws.Nodup)
    (hsub : ∀ x ∈ ws, x ∈ s.buckets b) : Inv (State.requeueLoop b toBucket key nkey n s ws done).1 := by
  induction s, ws, done using State.requeueLoop.induct b toBucket key nkey n with
  | case1 s done => simpa [State.requeueLoop] using hi
  | case2 s w ws done hd hk ih =>
    rw [State.requeueLoop, if_pos hd, if_pos hk]
    exact ih hi hnd.of_cons fun x hx => hsub x (List.mem_cons_of_mem _ hx)
  | case3 s w ws done hd hk ih =>
    rw [State.requeueLoop, if_pos hd, if_neg hk]
    simp only [dite_eq_ite] at ih
    have hw := hsub w List.mem_cons_self
    have hnot : w ∉ ws := (List.nodup_cons.1 hnd).1
    have hkeep : ∀ x ∈ ws, x ∈ (s.requeueWaiter b toBucket w nkey).buckets b := fun x hx => by
      have hne : x ≠ w := fun h => hnot (h ▸ hx)
      rw [requeueWaiter_buckets, mem_pushBack_of_ne hne, mem_remove_of_ne hne]
      exact hsub x (List.mem_cons_of_mem _ hx)
    refine ih (hi.requeueWaiter hw hm) ?_ ?_
    · split_ifs
      · exact List.nodup_append.2 ⟨hnd.of_cons, by simp, fun x hx y hy => by
          rw [List.mem_singleton.1 hy]
          exact fun h => hnot (h ▸ hx)⟩
      · exact hnd.of_cons
    · split_ifs with ht
      · intro x hx
        rcases List.mem_append.1 hx with hx | hx
        · exact hkeep x hx
        · rw [List.mem_singleton.1 hx, requeueWaiter_buckets, mem_pushBack_self]
          exact .inl ht.1.symm
      · exact hkeep
  | case4 s w ws done hd => simpa [State.requeueLoop, hd] using hi

theorem Inv.requeueLocked (hi : Inv s) {key nkey : Key} {n : ℤ}
    (hm : ∃ m : Manager, toBucket = m.lockBucket nkey) :
    Inv (s.requeueLocked b toBucket key nkey n).1 :=
  hi.requeueLoop hm (hi.nodup b) fun _ h => h

theorem Inv.wake (hi : Inv s) (m : Manager) (t : Target) (addr : Addr) (priv : Bool)
    (bitmask : UInt32) (n : ℤ) : Inv (s.wake m t addr priv bitmask n).1 := by
  unfold State.wake
  cases getKey t addr priv with
  | error e => exact hi
  | ok k => exact hi.wakeLocked

theorem Inv.doRequeue (hi : Inv s) (m : Manager) (t : Target) (addr naddr : Addr)
    (priv checkval : Bool) (val : UInt32) (nwake nreq : ℤ) :
    Inv (s.doRequeue m t addr naddr priv checkval val nwake nreq).1 := by
  unfold State.doRequeue
  cases getKey t addr priv with
  | error e => exact hi
  | ok k1 =>
    cases getKey t naddr priv with
    | error e => exact hi
    | ok k2 =>
      simp only [Manager.lockBuckets_eq]
      split
      · exact hi
      · exact hi.wakeLocked.requeueLocked ⟨m, rfl⟩

theorem Inv.wakeOp (hi : Inv s) {m : Manager} {t : Target} {addr1 addr2 : Addr} {priv : Bool}
    {nwake1 nwake2 : ℤ} {op : UInt32} {s' : State} {r : Except Errno ℤ}
    (h : s.wakeOp m t addr1 addr2 priv nwake1 nwake2 op = some (s', r)) : Inv s' := by
  unfold State.wakeOp at h
  split at h
  · cases h
    exact hi
  split at h
  · cases h
    exact hi
  simp only [Manager.lockBuckets_eq, Option.map_eq_some_iff] at h
  obtain ⟨c, -, hc⟩ := h
  split at hc
  · cases hc
    exact hi
  · split_ifs at hc
    · cases hc
      exact hi.wakeLocked.wakeLocked
    · cases hc
      exact hi.wakeLocked

/-- The waiter as `WaitPrepare` and `LockPI` make it before they lock the
bucket: drained, with its new key. -/
theorem Inv.prepare (hi : Inv s) (hp : s.prepared w = false) (f : Waiter → Waiter)
    (hf : ∀ x, (f x).bucket = x.bucket ∧ (f x).c = x.c) : Inv ((s.drain w).modifyWaiter w f) := by
  have hd := hi.drain hp
  have hb : ((s.drain w).waiters w).bucket = none := by simpa using hi.bucket_none hp
  exact hd.modifyWaiter (hf _).1 (fun h => absurd hb h) (by rw [(hf _).2]; exact (hd.waiter w).c_le)

theorem Inv.waitPrepare (hi : Inv s) (hp : s.prepared w = false) (m : Manager) (t : Target)
    (addr : Addr) (priv : Bool) (val bitmask : UInt32) :
    Inv (s.waitPrepare m w t addr priv val bitmask).1 := by
  unfold State.waitPrepare
  cases getKey t addr priv with
  | error e => exact hi
  | ok k =>
    have h1 := hi.prepare hp (fun x => { x with key := k, bitmask := bitmask }) fun _ => ⟨rfl, rfl⟩
    have hb : (((s.drain w).modifyWaiter w fun x => { x with key := k, bitmask := bitmask }).waiters
        w).bucket = none := by simpa using hi.bucket_none hp
    cases check t addr val with
    | error e => exact h1.releaseKey hb
    | ok u => exact h1.enqueue hb (by simp) ⟨m, by simp⟩

/-- What `lockPILocked` does to the waiter lists: nothing, or it queues the
waiter, when the futex has an owner and the caller waits for it. -/
theorem lockPILocked_eq {t : Target} {addr : Addr} {tid : UInt32} {tryLock : Bool} {s' : State}
    {r : Except Errno Bool} (h : s.lockPILocked w t addr tid b tryLock = some (s', r)) :
    (s' = s ∧ (r = .ok false → tryLock = true)) ∨
      (s' = (s.pushBack b w).setBucket w (some b) ∧ r = .ok false ∧ tryLock = false) := by
  unfold State.lockPILocked at h
  split at h
  · cases h
    simp
  split_ifs at h with howner hfree htry hwaiters
  · cases h
    simp
  · split at h
    · cases h
      simp
    · split_ifs at h
      cases h
      simp
  · cases h
    simp [htry]
  · simp only [Option.map_eq_some_iff] at h
    obtain ⟨u, hu, hsr⟩ := h
    split at hu
    · cases hu
      cases hsr
      simp
    · split_ifs at hu
      cases hu
      cases hsr
      simp [htry]
  · simp only [Option.map_some, Option.some.injEq] at h
    cases h
    simp [htry]

theorem Inv.lockPI (hi : Inv s) (hp : s.prepared w = false) {m : Manager} {t : Target} {addr : Addr}
    {tid : UInt32} {priv tryLock : Bool} {s' : State} {r : Except Errno Bool}
    (h : s.lockPI m w t addr tid priv tryLock = some (s', r)) : Inv s' := by
  unfold State.lockPI at h
  split at h
  · cases h
    exact hi
  rename_i k _
  have h1 := hi.prepare hp (fun x => { x with key := k, tid := tid }) fun _ => ⟨rfl, rfl⟩
  have hb : (((s.drain w).modifyWaiter w fun x => { x with key := k, tid := tid }).waiters
      w).bucket = none := by simpa using hi.bucket_none hp
  simp only [Option.map_eq_some_iff] at h
  obtain ⟨⟨s1, r1⟩, hl, hr⟩ := h
  rcases lockPILocked_eq hl with ⟨rfl, htry⟩ | ⟨rfl, rfl, rfl⟩
  · cases r1 with
    | error e =>
      cases hr
      exact h1.releaseKey hb
    | ok success =>
      simp only at hr
      split_ifs at hr with hs
      · cases hr
        exact h1.releaseKey hb
      · simp only [Bool.or_eq_true, not_or, Bool.not_eq_true] at hs
        rw [hs.1] at htry
        simp [htry rfl] at hs
  · simp only [Bool.or_false, Bool.false_eq_true, if_false] at hr
    cases hr
    exact h1.enqueue hb (by simp) ⟨m, by simp⟩

/-- What `unlockPILocked` does to the waiter lists: nothing, or it wakes a
waiter of the bucket. -/
theorem unlockPILocked_eq {t : Target} {addr : Addr} {tid : UInt32} {key : Key} :
    (s.unlockPILocked t addr tid b key).1 = s ∨
      ∃ next ∈ s.buckets b, (s.unlockPILocked t addr tid b key).1 = s.wakeWaiterLocked b next := by
  unfold State.unlockPILocked
  split
  · exact .inl rfl
  split_ifs
  · exact .inl rfl
  split
  · split
    · exact .inl rfl
    · split_ifs <;> exact .inl rfl
  · rename_i next rest hf
    have hnext : next ∈ s.buckets b :=
      (List.mem_filter.1 (hf ▸ List.mem_cons_self : next ∈ (s.buckets b).filter _)).1
    simp only
    split
    · exact .inl rfl
    · split_ifs
      · exact .inl rfl
      · exact .inr ⟨next, hnext, rfl⟩

theorem Inv.unlockPI (hi : Inv s) (m : Manager) (t : Target) (addr : Addr) (tid : UInt32)
    (priv : Bool) : Inv (s.unlockPI m t addr tid priv).1 := by
  unfold State.unlockPI
  split
  · exact hi
  rcases unlockPILocked_eq with h | ⟨next, hnext, h⟩
  · rw [h]
    exact hi
  · rw [h]
    exact hi.wakeWaiterLocked hnext

theorem Inv.init : Inv State.init where
  nodup b := by simp [State.init]
  waiter w := ⟨fun b => by simp [State.init, newWaiter], fun b h => by simp [State.init, newWaiter] at h,
    fun h => by simp [State.init, newWaiter] at h, by simp [State.init, newWaiter],
    by simp [State.init], fun h => by simp [State.init] at h⟩

theorem Inv.step {s s' : State} (hi : Inv s) (h : Step s s') : Inv s' := by
  cases h with
  | waitPrepare m w t addr priv val bitmask hp => exact hi.waitPrepare hp m t addr priv val bitmask
  | waitComplete w => exact hi.waitComplete
  | wake m t addr priv bitmask n => exact hi.wake m t addr priv bitmask n
  | requeue m t addr naddr priv nwake nreq => exact hi.doRequeue m t addr naddr priv false 0 nwake nreq
  | requeueCmp m t addr naddr priv val nwake nreq =>
    exact hi.doRequeue m t addr naddr priv true val nwake nreq
  | wakeOp _ m t addr1 addr2 priv nwake1 nwake2 op r h => exact hi.wakeOp h
  | lockPI _ m w t addr tid priv tryLock r hp h => exact hi.lockPI hp h
  | unlockPI m t addr tid priv => exact hi.unlockPI m t addr tid priv
  | receive w _ => exact hi.receive

end State

theorem Reachable.inv {s : State} (h : Reachable s) : s.Inv :=
  Transition.Reachable.invariant State.Inv (fun _ h => by subst h; exact State.Inv.init)
    (fun _ _ hi hs => hi.step hs) h

namespace State

variable {s : State} {b : BucketId} {w x : ℕ}

/-- A wake leaves every waiter its key, bitmask and task, and its bucket
unless it took the waiter off it. -/
structure WakeFrame (s s' : State) (x : ℕ) : Prop where
  key : (s'.waiters x).key = (s.waiters x).key
  bitmask : (s'.waiters x).bitmask = (s.waiters x).bitmask
  prepared : s'.prepared x = s.prepared x
  bucket : (s'.waiters x).bucket = (s.waiters x).bucket ∨ (s'.waiters x).bucket = none

theorem WakeFrame.trans {s₁ s₂ s₃ : State} (h₁ : WakeFrame s₁ s₂ x) (h₂ : WakeFrame s₂ s₃ x) :
    WakeFrame s₁ s₃ x where
  key := h₂.key.trans h₁.key
  bitmask := h₂.bitmask.trans h₁.bitmask
  prepared := h₂.prepared.trans h₁.prepared
  bucket := by
    rcases h₂.bucket with h | h
    · rw [h]
      exact h₁.bucket
    · exact .inr h

theorem wakeFrame_wakeWaiterLocked : WakeFrame s (s.wakeWaiterLocked b w) x := by
  by_cases hx : x = w
  · subst hx
    exact ⟨by simp [State.wakeWaiterLocked], by simp [State.wakeWaiterLocked],
      by simp [State.wakeWaiterLocked], .inr (by simp [State.wakeWaiterLocked])⟩
  · exact ⟨by simp [State.wakeWaiterLocked, hx], by simp [State.wakeWaiterLocked, hx],
      by simp [State.wakeWaiterLocked], .inl (by simp [State.wakeWaiterLocked, hx])⟩

variable {key : Key} {bitmask : UInt32} {n : ℤ}

theorem wakeFrame_wakeLoop :
    ∀ {s : State} {ws : List ℕ} {done : ℤ}, WakeFrame s (State.wakeLoop b key bitmask n s ws done).1 x
  | s, [], done => ⟨rfl, rfl, rfl, .inl rfl⟩
  | s, w :: ws, done => by
    rw [State.wakeLoop]
    split_ifs
    · exact wakeFrame_wakeLoop
    · exact wakeFrame_wakeWaiterLocked.trans wakeFrame_wakeLoop
    · exact ⟨rfl, rfl, rfl, .inl rfl⟩

theorem le_wakeLoop : ∀ {s : State} {ws : List ℕ} {done : ℤ},
    done ≤ (State.wakeLoop b key bitmask n s ws done).2
  | s, [], done => le_rfl
  | s, w :: ws, done => by
    rw [State.wakeLoop]
    split_ifs
    · exact le_wakeLoop
    · exact (Int.le_add_one le_rfl).trans le_wakeLoop
    · exact le_rfl

/-- The wake loop sends only to the waiters it walks. -/
theorem wakeLoop_sends_of_not_mem : ∀ {s : State} {ws : List ℕ} {done : ℤ}, x ∉ ws →
    (State.wakeLoop b key bitmask n s ws done).1.sends x = s.sends x
  | s, [], done, _ => rfl
  | s, w :: ws, done, hx => by
    have hxw : x ≠ w := fun h => hx (h ▸ List.mem_cons_self)
    have hxs : x ∉ ws := fun h => hx (List.mem_cons_of_mem _ h)
    rw [State.wakeLoop]
    split_ifs
    · exact wakeLoop_sends_of_not_mem hxs
    · rw [wakeLoop_sends_of_not_mem hxs]
      simp [State.wakeWaiterLocked, hxw]
    · rfl

/-- A wake loop that ends below `n` has walked its whole list, and sent once to
each waiter of it whose key and bitmask match. -/
theorem wakeLoop_sends_of_mem : ∀ {s : State} {ws : List ℕ} {done : ℤ}, ws.Nodup → x ∈ ws →
    (s.waiters x).key.matches key = true → (s.waiters x).bitmask &&& bitmask ≠ 0 →
    (State.wakeLoop b key bitmask n s ws done).2 < n →
    (State.wakeLoop b key bitmask n s ws done).1.sends x = s.sends x + 1
  | s, [], done, _, hx, _, _, _ => absurd hx List.not_mem_nil
  | s, w :: ws, done, hnd, hx, hm, hbit, hr => by
    have hw : w ∉ ws := (List.nodup_cons.1 hnd).1
    rw [State.wakeLoop] at hr ⊢
    split_ifs at hr ⊢ with hd hskip
    · have hxw : x ≠ w := by
        rintro rfl
        simp [hm, hbit] at hskip
      exact wakeLoop_sends_of_mem hnd.of_cons (List.mem_cons.1 hx |>.resolve_left hxw) hm hbit hr
    · by_cases hxw : x = w
      · subst hxw
        rw [wakeLoop_sends_of_not_mem hw]
        simp [State.wakeWaiterLocked]
      · have hxs : x ∈ ws := List.mem_cons.1 hx |>.resolve_left hxw
        have hf : WakeFrame s (s.wakeWaiterLocked b w) x := wakeFrame_wakeWaiterLocked
        rw [wakeLoop_sends_of_mem hnd.of_cons hxs (hf.key ▸ hm) (hf.bitmask ▸ hbit) hr]
        simp [State.wakeWaiterLocked, hxw]
    · exact absurd hr hd

/-- A wake of bucket `b` that wakes fewer than `n` waiters has woken every
prepared waiter in `b` whose key and bitmask match. -/
theorem Inv.wakeLocked_sends (hi : Inv s) (hp : s.prepared w = true)
    (hb : ∀ b0, (s.waiters w).bucket = some b0 → b0 = b) (hm : (s.waiters w).key.matches key = true)
    (hbit : (s.waiters w).bitmask &&& bitmask ≠ 0) (hr : (s.wakeLocked b key bitmask n).2 < n) :
    (s.wakeLocked b key bitmask n).1.sends w = 1 := by
  cases hq : (s.waiters w).bucket with
  | none =>
    have hs : s.sends w = 1 := ((hi.waiter w).prepared hp).resolve_left (by simp [hq])
    rw [State.wakeLocked, wakeLoop_sends_of_not_mem (hi.not_mem_of_bucket_ne (by simp [hq])), hs]
  | some b0 =>
    obtain rfl := hb b0 hq
    have hs := ((hi.waiter w).queued (by simp [hq])).2
    rw [State.wakeLocked, wakeLoop_sends_of_mem (hi.nodup b0) (((hi.waiter w).mem_iff b0).2 hq) hm
      hbit hr, hs]

/-- A waiter already woken stays woken through a wake. -/
theorem Inv.wakeLocked_sends_of_woken (hi : Inv s) (hs : s.sends w = 1) :
    (s.wakeLocked b key bitmask n).1.sends w = 1 := by
  have hq : (s.waiters w).bucket = none := by
    by_contra h
    simp [((hi.waiter w).queued h).2] at hs
  rw [State.wakeLocked, wakeLoop_sends_of_not_mem (hi.not_mem_of_bucket_ne (by simp [hq])), hs]

end State

namespace State

variable {s s' : State} {m : Manager} {w : ℕ} {t : Target} {priv : Bool}

/-- Manager `m` looks for waiter `w` where it is queued: `w`'s bucket is the one
`m` locks for `w`'s key. -/
def WaitsOn (s : State) (m : Manager) (w : ℕ) : Prop :=
  ∀ b, (s.waiters w).bucket = some b → b = m.lockBucket (s.waiters w).key

/-- A successful `WaitPrepare` through `m` leaves the waiter where `m` looks
for it, its task waiting. -/
theorem waitPrepare_waitsOn {addr : Addr} {val bitmask : UInt32}
    (h : s.waitPrepare m w t addr priv val bitmask = (s', .ok ())) :
    s'.WaitsOn m w ∧ s'.prepared w = true := by
  unfold State.waitPrepare at h
  split at h
  · cases h
  split at h
  · cases h
  · cases h
    exact ⟨fun b hb => by simpa [eq_comm] using hb, by simp⟩

/-- Managers related by `Fork` look for a waiter on a shared-mappable key in
the same place. -/
theorem WaitsOn.fork (h : s.WaitsOn m w) (hk : (s.waiters w).key.kind = .kindSharedMappable)
    (id : ℕ) : s.WaitsOn (m.fork id) w := fun b hb => by
  rw [Manager.fork_lockBucket m id hk]
  exact h b hb

theorem Inv.wake_sends (hi : Inv s) (hp : s.prepared w = true) (hw : s.WaitsOn m w) {addr : Addr}
    {bitmask : UInt32} {n r : ℤ} {k : Key} (hk : getKey t addr priv = .ok k)
    (hm : (s.waiters w).key.matches k = true) (hbit : (s.waiters w).bitmask &&& bitmask ≠ 0)
    (h : s.wake m t addr priv bitmask n = (s', .ok r)) (hr : r < n) : s'.sends w = 1 := by
  simp only [State.wake, hk, Prod.mk.injEq, Except.ok.injEq] at h
  obtain ⟨rfl, rfl⟩ := h
  have hkey := Key.matches_iff.1 hm
  exact hi.wakeLocked_sends hp (fun b0 hb0 => hkey ▸ hw b0 hb0) hm hbit hr

theorem Inv.wakeOp_sends (hi : Inv s) (hp : s.prepared w = true) (hw : s.WaitsOn m w)
    {addr1 addr2 : Addr} {nwake1 nwake2 r : ℤ} {op : UInt32} (hbit : (s.waiters w).bitmask ≠ 0)
    (h : s.wakeOp m t addr1 addr2 priv nwake1 nwake2 op = some (s', .ok r)) :
    (∀ k1, getKey t addr1 priv = .ok k1 → (s.waiters w).key.matches k1 = true → r < nwake1 →
      s'.sends w = 1) ∧
    (∀ k2, getKey t addr2 priv = .ok k2 → (s.waiters w).key.matches k2 = true →
      atomicOp t addr2 op = some (.ok true) → r < nwake2 → s'.sends w = 1) := by
  have hbit' : (s.waiters w).bitmask &&& ~~~0 ≠ 0 := by simpa using hbit
  unfold State.wakeOp at h
  split at h
  · cases h
  rename_i k1 hk1
  split at h
  · cases h
  rename_i k2 hk2
  simp only [Manager.lockBuckets_eq, Option.map_eq_some_iff] at h
  obtain ⟨c, hc, hsr⟩ := h
  cases c with
  | error e => cases hsr
  | ok cond =>
    -- the first wake, and the waiter as it leaves it
    set s1 := (s.wakeLocked (m.lockBucket k1) k1 (~~~0) nwake1) with hs1
    have hi1 : Inv s1.1 := hi.wakeLocked
    have hf : WakeFrame s s1.1 w := wakeFrame_wakeLoop
    have hd1 : 0 ≤ s1.2 := le_wakeLoop
    have hd2 : 0 ≤ (s1.1.wakeLocked (m.lockBucket k2) k2 (~~~0) nwake2).2 := le_wakeLoop
    have hfirst : (s.waiters w).key.matches k1 = true → s1.2 < nwake1 → s1.1.sends w = 1 :=
      fun hm hr => hi.wakeLocked_sends hp (fun b0 hb0 => Key.matches_iff.1 hm ▸ hw b0 hb0) hm
        hbit' hr
    simp only at hsr
    refine ⟨fun k hk hm hr => ?_, fun k hk hm hop hr => ?_⟩
    · obtain rfl : k = k1 := Except.ok.inj (hk.symm.trans hk1)
      split_ifs at hsr
      · simp only [Prod.mk.injEq, Except.ok.injEq] at hsr
        obtain ⟨rfl, rfl⟩ := hsr
        exact hi1.wakeLocked_sends_of_woken (hfirst hm (by omega))
      · simp only [Prod.mk.injEq, Except.ok.injEq] at hsr
        obtain ⟨rfl, rfl⟩ := hsr
        exact hfirst hm hr
    · obtain rfl : k = k2 := Except.ok.inj (hk.symm.trans hk2)
      obtain rfl : cond = true := by simpa [hop] using hc.symm
      simp only [if_true, Prod.mk.injEq, Except.ok.injEq] at hsr
      obtain ⟨rfl, rfl⟩ := hsr
      refine hi1.wakeLocked_sends (hf.prepared.trans hp) (fun b0 hb0 => ?_) (hf.key ▸ hm)
        (hf.bitmask ▸ hbit') (by omega)
      rcases hf.bucket with hb | hb
      · rw [← Key.matches_iff.1 hm]
        exact hw b0 (hb ▸ hb0)
      · simp [hb] at hb0

end State

/-- Every queued waiter is in the list of exactly one bucket, once, the bucket
its `bucket` field names and that `lockBucket` computes from its key; a waiter
that is not queued is in no list. -/
def BucketsConsistent (s : State) : Prop :=
  ∀ w, (∀ b, w ∈ s.buckets b ↔ (s.waiters w).bucket = some b) ∧
    ∀ b, (s.waiters w).bucket = some b →
      (s.buckets b).count w = 1 ∧ ∃ m : Manager, b = m.lockBucket (s.waiters w).key

/-- No wake-up is lost from `s`: for a waiter whose task is waiting and that a
manager `m` finds where it is queued, a `Wake` through `m`, or either wake of a
`WakeOp` through `m`, on a key that matches the waiter's key, with a bitmask
that meets its own, and that wakes fewer waiters than it was asked to, leaves
the waiter woken. -/
def NoLostWakeup (s : State) : Prop :=
  ∀ (m : Manager) (w : ℕ) (t : Target) (priv : Bool), s.prepared w = true → s.WaitsOn m w →
    (∀ (addr : Addr) (bitmask : UInt32) (n : ℤ) (k : Key) (s' : State) (r : ℤ),
      getKey t addr priv = .ok k → (s.waiters w).key.matches k = true →
      (s.waiters w).bitmask &&& bitmask ≠ 0 → s.wake m t addr priv bitmask n = (s', .ok r) →
      r < n → s'.sends w = 1) ∧
    (∀ (addr1 addr2 : Addr) (nwake1 nwake2 : ℤ) (op : UInt32) (s' : State) (r : ℤ),
      (s.waiters w).bitmask ≠ 0 →
      s.wakeOp m t addr1 addr2 priv nwake1 nwake2 op = some (s', .ok r) →
      (∀ k1, getKey t addr1 priv = .ok k1 → (s.waiters w).key.matches k1 = true →
        r < nwake1 → s'.sends w = 1) ∧
      (∀ k2, getKey t addr2 priv = .ok k2 → (s.waiters w).key.matches k2 = true →
        atomicOp t addr2 op = some (.ok true) → r < nwake2 → s'.sends w = 1))

theorem State.Inv.bucketsConsistent {s : State} (hi : s.Inv) : BucketsConsistent s := fun w =>
  ⟨(hi.waiter w).mem_iff, fun b hb =>
    ⟨List.count_eq_one_of_mem (hi.nodup b) (((hi.waiter w).mem_iff b).2 hb),
      (hi.waiter w).lockBucket b hb⟩⟩

/-- In every state the futex managers reach, under any interleaving of their
operations on private and shared keys: the waiter lists agree with the
waiters' `bucket` fields and keys, each waiter is sent at most one wake-up
since its last `WaitPrepare` (or `LockPI`), and no wake-up is lost. -/
theorem reachable_futex_waiters {s : State} (hs : Reachable s) :
    BucketsConsistent s ∧ (∀ w, s.sends w ≤ 1) ∧ NoLostWakeup s := by
  have hi := hs.inv
  refine ⟨hi.bucketsConsistent, fun w => (hi.waiter w).sends_le, fun m w t priv hp hw => ?_⟩
  exact ⟨fun _ _ _ _ _ _ hk hm hbit h hr => hi.wake_sends hp hw hk hm hbit h hr,
    fun _ _ _ _ _ _ _ hbit h => hi.wakeOp_sends hp hw hbit h⟩

/-- Two tasks wait on the private word at address 0, which holds 0, and a wake of one
waiter follows. -/
theorem reachable_two_waiters_wake_one :
    Reachable (((State.init.waitPrepare (.newManager 0 0) 0 (wordTarget 0) 0 true 0 0xffffffff).1
      |>.waitPrepare (.newManager 0 0) 1 (wordTarget 0) 0 true 0 0xffffffff).1
      |>.wake (.newManager 0 0) (wordTarget 0) 0 true 0xffffffff 1).1 :=
  (((Transition.Reachable.of_init rfl : Reachable State.init).tail
    (Step.waitPrepare _ _ 0 _ _ _ _ _ rfl)).tail
    (Step.waitPrepare _ _ 1 _ _ _ _ _ rfl)).tail (Step.wake _ _ _ _ _ _ _)

theorem reachable_futex_waiters_wake_one :
    BucketsConsistent (((State.init.waitPrepare (.newManager 0 0) 0 (wordTarget 0) 0 true 0
        0xffffffff).1
      |>.waitPrepare (.newManager 0 0) 1 (wordTarget 0) 0 true 0 0xffffffff).1
      |>.wake (.newManager 0 0) (wordTarget 0) 0 true 0xffffffff 1).1 ∧
    (∀ w, ((((State.init.waitPrepare (.newManager 0 0) 0 (wordTarget 0) 0 true 0 0xffffffff).1
      |>.waitPrepare (.newManager 0 0) 1 (wordTarget 0) 0 true 0 0xffffffff).1
      |>.wake (.newManager 0 0) (wordTarget 0) 0 true 0xffffffff 1).1).sends w ≤ 1) ∧
    NoLostWakeup (((State.init.waitPrepare (.newManager 0 0) 0 (wordTarget 0) 0 true 0
        0xffffffff).1
      |>.waitPrepare (.newManager 0 0) 1 (wordTarget 0) 0 true 0 0xffffffff).1
      |>.wake (.newManager 0 0) (wordTarget 0) 0 true 0xffffffff 1).1 :=
  reachable_futex_waiters reachable_two_waiters_wake_one

end Futex
