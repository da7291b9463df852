import Gvisor.Semaphore.Registry
import Gvisor.Lib.MachineInt
import Gvisor.Lib.List

/-! The value invariant of semaphore sets: every value in `[0, valueMax]` and
every queued waiter's value at most 0, which is what keeps `wakeWaiters` from
spinning. Every call whose operations avoid `SemOp = -32768` keeps it and
comes back; an operation `-32768` slips past the range check of
`executeOps`, since its negation wraps to itself, and drives a value below 0. -/

namespace Semaphore
open Syserror Outcome

def InRange (v : Int16) : Prop := 0 ≤ v ∧ v ≤ valueMax

def Sem.Valid (s : Sem) : Prop := InRange s.value ∧ ∀ w ∈ s.waiters, w.value ≤ 0

def Set.Valid (s : Set) : Prop := ∀ sem ∈ s.sems, sem.Valid

def State.Valid (st : State) : Prop := ∀ s ∈ st.sets, s.Valid

/-- The calls whose semaphore operations avoid `SemOp = -32768`. -/
def Call.AvoidsMinOp : Call → Prop
  | .executeOps _ ops _ _ _ => ∀ op ∈ ops, op.semOp ≠ Int16.minValue
  | _ => True

/-! ### `wakeWaiters` -/

theorem wakeLoop_eq_hang {value : Int16} {ws : List Waiter} :
    wakeLoop value ws = .hang ↔ ∃ w ∈ ws, value < w.value := by
  induction ws with
  | nil => simp [wakeLoop]
  | cons w ws ih =>
    by_cases h : value < w.value
    · simp [wakeLoop, h]
    · simp [wakeLoop, h, ih]

theorem wakeLoop_eq_ok {value : Int16} {ws : List Waiter} (h : ∀ w ∈ ws, w.value ≤ value) :
    wakeLoop value ws = .ok () := by
  induction ws with
  | nil => rfl
  | cons w ws ih =>
    have hw : ¬ value < w.value := Int16.not_lt.mpr (h w List.mem_cons_self)
    rw [wakeLoop, if_neg hw]
    exact ih fun w' hw' => h w' (List.mem_cons_of_mem w hw')

/-- When `wakeLoop` returns, the turns of the loop have removed every waiter. -/
theorem wakeIter_iterate_of_ok {value : Int16} {ws : List Waiter}
    (h : wakeLoop value ws = .ok ()) : (wakeIter value)^[ws.length] ws = [] := by
  induction ws with
  | nil => rfl
  | cons w ws ih =>
    have hw : ¬ value < w.value := fun hlt => by simp [wakeLoop, hlt] at h
    rw [List.length_cons, Function.iterate_succ_apply, wakeIter, if_neg hw]
    exact ih (by simpa [wakeLoop, hw] using h)

/-- When `wakeLoop` hangs, no number of turns ends the loop. -/
theorem wakeIter_iterate_of_hang {value : Int16} {ws : List Waiter}
    (h : wakeLoop value ws = .hang) (n : ℕ) : (wakeIter value)^[n] ws ≠ [] := by
  induction ws generalizing n with
  | nil => simp [wakeLoop] at h
  | cons w ws ih =>
    by_cases hw : value < w.value
    · have hfix : wakeIter value (w :: ws) = w :: ws := by simp [wakeIter, hw]
      rw [Function.iterate_fixed hfix]
      exact List.cons_ne_nil w ws
    · cases n with
      | zero => exact List.cons_ne_nil w ws
      | succ n =>
        rw [Function.iterate_succ_apply, wakeIter, if_neg hw]
        exact ih (by simpa [wakeLoop, hw] using h) n

theorem Sem.wakeWaiters_of_valid {s : Sem} (hv : InRange s.value)
    (hw : ∀ w ∈ s.waiters, w.value ≤ 0) : s.wakeWaiters = .ok { s with waiters := [] } := by
  have hle : ∀ w ∈ s.waiters, w.value ≤ s.value := fun w h => Int16.le_trans (hw w h) hv.1
  simp [Sem.wakeWaiters, wakeLoop_eq_ok hle]

theorem Sem.wakeWaiters_returns {s : Sem} (hv : InRange s.value)
    (hw : ∀ w ∈ s.waiters, w.value ≤ 0) : Returns Sem.Valid s.wakeWaiters := by
  rw [Sem.wakeWaiters_of_valid hv hw]
  exact .ok ⟨hv, by simp⟩

/-! ### Range arithmetic -/

theorem inRange_iff {v : Int16} : InRange v ↔ 0 ≤ v.toInt ∧ v.toInt ≤ 32767 := by
  simp only [InRange, Int16.le_iff_toInt_le]
  rfl

theorem inRange_zero : InRange 0 := ⟨by decide, by decide⟩

/-- A decrement that passes the check `-op > v` of `executeOps`. -/
theorem inRange_add_of_neg {v op : Int16} (hv : InRange v) (hop : op < 0)
    (hmin : op ≠ Int16.minValue) (h : ¬ -op > v) : InRange (v + op) := by
  rw [inRange_iff] at hv ⊢
  have h0 : (0 : Int16).toInt = 0 := rfl
  have hneg := Int16.toInt_neg_of_ne_minValue hmin
  simp only [gt_iff_lt, not_lt, Int16.lt_iff_toInt_lt, hneg, h0] at h hop
  rw [Int16.toInt_add_of_bounds (by omega) (by omega)]
  omega

/-- An increment that passes the check `v > valueMax - op` of `executeOps`. -/
theorem inRange_add_of_pos {v op : Int16} (hv : InRange v) (hop : 0 < op)
    (h : ¬ v > valueMax - op) : InRange (v + op) := by
  rw [inRange_iff] at hv ⊢
  have h0 : (0 : Int16).toInt = 0 := rfl
  have hm : valueMax.toInt = 32767 := rfl
  have hhi := op.toInt_lt
  simp only [gt_iff_lt, not_lt, Int16.lt_iff_toInt_lt, h0] at h hop
  rw [Int16.toInt_sub_of_bounds (by omega) (by omega), hm] at h
  rw [Int16.toInt_add_of_bounds (by omega) (by omega)]
  omega

theorem inRange_toInt16 {v : UInt16} (h : ¬ v > 32767) : InRange v.toInt16 := by
  have hv : v.toNat ≤ 32767 := by simpa [UInt16.lt_iff_toNat_lt] using h
  rw [inRange_iff, UInt16.toInt_toInt16_of_lt (by omega)]
  omega

/-! ### The loop of `executeOps` -/

/-- A blocking operation ends the loop with a wait for its own value, or
with `ErrWouldBlock` under `IPC_NOWAIT`. -/
theorem executeLoop_block (op : Sembuf) (n : ℕ) (hle : op.semOp ≤ 0) (rest : Prop) :
    ((if op.semFlg &&& ipcNowait ≠ 0 then OpsResult.fail .errWouldBlock else .wait n op.semOp) =
        .wait n op.semOp ∧ op.semOp ≤ 0) ∨
      (∃ e, (if op.semFlg &&& ipcNowait ≠ 0 then OpsResult.fail .errWouldBlock
        else .wait n op.semOp) = .fail e) ∨ rest := by
  by_cases hnw : op.semFlg &&& ipcNowait ≠ 0
  · rw [if_pos hnw]
    exact .inr (.inl ⟨_, rfl⟩)
  · rw [if_neg hnw]
    exact .inl ⟨rfl, hle⟩

/-- What one turn of `executeLoop` does: it stops on a wait for a value at
most 0 or on an error, goes on unchanged, or goes on after a change that
passed the range checks. -/
theorem executeLoop_cons_cases (tmp : List Int16) (op : Sembuf) (ops : List Sembuf) :
    (executeLoop tmp (op :: ops) = .wait op.semNum.toNat op.semOp ∧ op.semOp ≤ 0) ∨
    (∃ e, executeLoop tmp (op :: ops) = .fail e) ∨
    (executeLoop tmp (op :: ops) = executeLoop tmp ops ∧ op.semOp = 0 ∧
      tmp.getD op.semNum.toNat 0 = 0) ∨
    (executeLoop tmp (op :: ops) =
        executeLoop (tmp.set op.semNum.toNat (tmp.getD op.semNum.toNat 0 + op.semOp)) ops ∧
      (op.semOp < 0 ∧ ¬ -op.semOp > tmp.getD op.semNum.toNat 0 ∨
        0 < op.semOp ∧ ¬ tmp.getD op.semNum.toNat 0 > valueMax - op.semOp)) := by
  rw [executeLoop]
  by_cases h0 : op.semOp = 0
  · rw [if_pos h0]
    by_cases hv : tmp.getD op.semNum.toNat 0 ≠ 0
    · rw [if_pos hv]
      exact executeLoop_block op _ (h0 ▸ Int16.le_refl 0) _
    · rw [if_neg hv]
      exact .inr (.inr (.inl ⟨rfl, h0, not_not.1 hv⟩))
  · rw [if_neg h0]
    by_cases hneg : op.semOp < 0
    · rw [if_pos hneg]
      by_cases hmax : -op.semOp > valueMax
      · rw [if_pos hmax]
        exact .inr (.inl ⟨_, rfl⟩)
      · rw [if_neg hmax]
        by_cases hgt : -op.semOp > tmp.getD op.semNum.toNat 0
        · rw [if_pos hgt]
          exact executeLoop_block op _ (Int16.le_of_lt hneg) _
        · rw [if_neg hgt]
          exact .inr (.inr (.inr ⟨rfl, .inl ⟨hneg, hgt⟩⟩))
    · rw [if_neg hneg]
      have hpos : 0 < op.semOp := Int16.lt_of_le_of_ne (Int16.not_lt.mp hneg) (Ne.symm h0)
      by_cases hgt : tmp.getD op.semNum.toNat 0 > valueMax - op.semOp
      · rw [if_pos hgt]
        exact .inr (.inl ⟨_, rfl⟩)
      · rw [if_neg hgt]
        exact .inr (.inr (.inr ⟨rfl, .inr ⟨hpos, hgt⟩⟩))

theorem executeLoop_done_inRange {ops : List Sembuf}
    (hops : ∀ op ∈ ops, op.semOp ≠ Int16.minValue) :
    ∀ {tmp tmp' : List Int16}, executeLoop tmp ops = .done tmp' →
      (∀ v ∈ tmp, InRange v) → ∀ v ∈ tmp', InRange v := by
  induction ops with
  | nil =>
    intro tmp tmp' h htmp
    cases h
    exact htmp
  | cons op ops ih =>
    intro tmp tmp' h htmp
    have htail := fun op' h' => hops op' (List.mem_cons_of_mem op h')
    rcases executeLoop_cons_cases tmp op ops with ⟨he, -⟩ | ⟨e, he⟩ | ⟨he, -⟩ | ⟨he, hcase⟩
    · rw [he] at h
      cases h
    · rw [he] at h
      cases h
    · rw [he] at h
      exact ih htail h htmp
    · rw [he] at h
      have hv : InRange (tmp.getD op.semNum.toNat 0) := by
        rcases List.getD_mem_or_eq tmp op.semNum.toNat 0 with hm | hd
        · exact htmp _ hm
        · rw [hd]
          exact inRange_zero
      refine ih htail h (List.forall_mem_set htmp ?_)
      rcases hcase with ⟨hneg, hgt⟩ | ⟨hpos, hgt⟩
      · exact inRange_add_of_neg hv hneg (hops op List.mem_cons_self) hgt
      · exact inRange_add_of_pos hv hpos hgt

theorem executeLoop_wait_nonpos {ops : List Sembuf} :
    ∀ {tmp : List Int16} {num : ℕ} {value : Int16},
      executeLoop tmp ops = .wait num value → value ≤ 0 := by
  induction ops with
  | nil =>
    intro tmp num value h
    cases h
  | cons op ops ih =>
    intro tmp num value h
    rcases executeLoop_cons_cases tmp op ops with ⟨he, hle⟩ | ⟨e, he⟩ | ⟨he, -⟩ | ⟨he, -⟩
    · rw [he] at h
      cases h
      exact hle
    · rw [he] at h
      cases h
    · rw [he] at h
      exact ih h
    · rw [he] at h
      exact ih h

/-! ### The operations of a set -/

namespace Set

theorem updateSem_returns {s : Set} {i : ℕ} {f : Sem → Outcome Errno Sem} (hs : s.Valid)
    (hf : ∀ sem ∈ s.sems, Returns Sem.Valid (f sem)) : Returns Set.Valid (s.updateSem i f) := by
  unfold updateSem
  cases h : s.sems[i]? with
  | none => exact .panic
  | some sem =>
    refine (hf sem (List.mem_of_getElem? h)).bind fun sem' hv => .ok ?_
    exact List.forall_mem_set hs hv

theorem setVal_returns {s : Set} (hs : s.Valid) (num : Int32) (val : Int16)
    (creds : Credentials) (pid : Int32) : Returns Set.Valid (s.setVal num val creds pid) := by
  unfold setVal
  split_ifs with hrange
  · exact .error _
  · exact .error _
  · have hv : InRange val := by
      simp only [not_or, gt_iff_lt, Int16.not_lt] at hrange
      exact ⟨hrange.1, hrange.2⟩
    split
    · exact .error _
    · exact updateSem_returns hs fun sem hsem =>
        @Sem.wakeWaiters_returns { sem with value := val, pid := pid } hv (hs sem hsem).2

theorem setValAll_returns {s : Set} (hs : s.Valid) (vals : List UInt16) (creds : Credentials)
    (pid : Int32) : Returns Set.Valid (s.setValAll vals creds pid) := by
  unfold setValAll
  split_ifs with hlen hany
  · exact .panic
  · exact .error _
  · exact .error _
  · refine Returns.foldlM (fun t c hc ht => ?_) s hs
    have hval : ¬ c.1 > 32767 := by
      have hmem := List.fst_mem_of_mem_zipIdx hc
      simp only [List.any_eq_true, decide_eq_true_eq, not_exists, not_and] at hany
      exact fun hgt => hany c.1 hmem hgt
    exact updateSem_returns ht fun sem hsem =>
      @Sem.wakeWaiters_returns { sem with value := c.1.toInt16, pid := pid }
        (inRange_toInt16 hval) (ht sem hsem).2

theorem executeOps_returns {s : Set} (hs : s.Valid) {ops : List Sembuf}
    (hops : ∀ op ∈ ops, op.semOp ≠ Int16.minValue) (pid : Int32) (ch : Chan) :
    Returns (fun r => r.1.Valid) (s.executeOps ops pid ch) := by
  unfold executeOps
  split
  · exact .error _
  · next num value hl =>
    have hle := executeLoop_wait_nonpos hl
    refine .ok (List.forall_mem_modify hs fun sem hsem => ⟨(hs sem hsem).1, ?_⟩)
    intro w hw
    rcases List.mem_append.mp hw with hw | hw
    · exact (hs sem hsem).2 w hw
    · rw [List.mem_singleton.mp hw]
      exact hle
  · next tmp hl =>
    have htmp := executeLoop_done_inRange hops hl fun v hv => by
      obtain ⟨sem, hsem, rfl⟩ := List.mem_map.mp hv
      exact (hs sem hsem).1
    refine (Returns.mapM fun c hc => ?_).bind fun sems hsems => .ok hsems
    obtain ⟨sem, v⟩ := c
    obtain ⟨hsem, hv⟩ := List.of_mem_zip hc
    have hin := htmp v hv
    dsimp only
    rw [@Sem.wakeWaiters_of_valid { sem with value := v } hin (hs sem hsem).2]
    exact .ok ⟨hin, by simp⟩

theorem ExecuteOps_returns {s : Set} (hs : s.Valid) {ops : List Sembuf}
    (hops : ∀ op ∈ ops, op.semOp ≠ Int16.minValue) (creds : Credentials) (pid : Int32)
    (ch : Chan) : Returns (fun r => r.1.Valid) (s.ExecuteOps ops creds pid ch) := by
  unfold ExecuteOps
  split_ifs
  · exact .error _
  · exact .error _
  · dsimp only
    split_ifs
    · exact .error _
    · exact executeOps_returns hs hops pid ch

theorem abortWait_returns {s : Set} (hs : s.Valid) (num : Int32) (ch : Chan) :
    Returns Set.Valid (s.abortWait num ch) := by
  unfold abortWait
  split
  · exact .panic
  · refine updateSem_returns hs fun sem hsem => .ok ⟨(hs sem hsem).1, ?_⟩
    exact fun w hw => (hs sem hsem).2 w (List.mem_of_mem_eraseP hw)

theorem destroy_valid {s : Set} (hs : s.Valid) : s.destroy.Valid := hs

end Set

/-! ### The system -/

namespace State

theorem onSet_returns {β : Type} {st : State} (hst : st.Valid) (p : ℕ)
    {f : Set → Outcome Errno (Set × β)}
    (hf : ∀ s ∈ st.sets, s.Valid → Returns (fun r => r.1.Valid) (f s)) :
    Returns State.Valid (st.onSet p f) := by
  unfold onSet
  cases h : st.sets[p]? with
  | none => exact .panic
  | some s =>
    have hmem := List.mem_of_getElem? h
    refine (hf s hmem (hst s hmem)).bind fun r hr => .ok ?_
    exact List.forall_mem_set hst hr

theorem newSet_returns {st : State} (hst : st.Valid) (key : Int32) (owner creator : FileOwner)
    (perms : FilePermissions) (nsems : ℕ) :
    Returns (fun r => r.1.Valid) (st.newSet key owner creator perms nsems) := by
  unfold newSet
  split
  · exact .error _
  · refine .ok fun s hs => ?_
    rcases List.mem_append.mp hs with hs | hs
    · exact hst s hs
    · rw [List.mem_singleton.mp hs]
      intro sem hsem
      rw [List.eq_of_mem_replicate hsem]
      exact ⟨inRange_zero, by simp⟩

theorem FindOrCreate_returns {st : State} (hst : st.Valid) (creds : Credentials)
    (key nsems : Int32) (mode : FileMode) (isPrivate create exclusive : Bool) :
    Returns (fun r => r.1.Valid)
      (st.FindOrCreate creds key nsems mode isPrivate create exclusive) := by
  unfold FindOrCreate
  split
  · exact .error _
  · dsimp only
    split
    · split
      · exact .panic
      · split_ifs
        · exact .error _
        · exact .error _
        · exact .error _
        · exact .ok hst
    · split_ifs
      · exact .error _
      · exact .error _
      · exact .error _
      · exact .error _
      · exact newSet_returns hst _ _ _ _ _

theorem RemoveID_returns {st : State} (hst : st.Valid) (id : Int32) (creds : Credentials) :
    Returns State.Valid (st.RemoveID id creds) := by
  unfold RemoveID
  split
  · exact .error _
  · split
    · exact .panic
    · next s hs =>
      split_ifs
      · exact .error _
      · exact .ok (List.forall_mem_set hst (Set.destroy_valid (hst s (List.mem_of_getElem? hs))))

/-- One call from a valid state that avoids `SemOp = -32768` comes back, and
leaves a valid state. -/
theorem call_returns {st : State} (hst : st.Valid) {c : Call} (hc : c.AvoidsMinOp) :
    Returns State.Valid (st.call c) := by
  cases c with
  | findOrCreate creds key nsems mode isPrivate create exclusive =>
    exact (FindOrCreate_returns hst creds key nsems mode isPrivate create exclusive).bind
      fun r hr => .ok hr
  | removeID id creds => exact RemoveID_returns hst id creds
  | setVal p num val creds pid =>
    exact onSet_returns hst p fun s _ hs => (s.setVal_returns hs num val creds pid).bind
      fun s' hs' => .ok hs'
  | setValAll p vals creds pid =>
    exact onSet_returns hst p fun s _ hs => (s.setValAll_returns hs vals creds pid).bind
      fun s' hs' => .ok hs'
  | executeOps p ops creds pid ch =>
    exact onSet_returns hst p fun s _ hs => s.ExecuteOps_returns hs hc creds pid ch
  | abortWait p num ch =>
    exact onSet_returns hst p fun s _ hs => (s.abortWait_returns hs num ch).bind
      fun s' hs' => .ok hs'

end State

/-- A step by a call that avoids `SemOp = -32768`. -/
def SafeStep (st st' : State) : Prop := ∃ c, c.AvoidsMinOp ∧ st.call c = .ok st'

/-- Along every run of calls that avoid `SemOp = -32768`, every semaphore
value stays in `[0, valueMax]` and every waiter's value at most 0. -/
theorem safeReachable_valid {st : State} (h : Transition.Reachable (· = State.new) SafeStep st) :
    st.Valid := by
  refine Transition.Reachable.invariant State.Valid ?_ ?_ h
  · rintro s rfl
    simp [State.Valid, State.new]
  · rintro s s' hs ⟨c, hc, hcall⟩
    have hr := State.call_returns hs hc
    rw [hcall] at hr
    exact returns_ok.mp hr

/-- In every state such a run reaches, no such call hangs. -/
theorem safeReachable_call_ne_hang {st : State}
    (h : Transition.Reachable (· = State.new) SafeStep st) {c : Call} (hc : c.AvoidsMinOp) :
    st.call c ≠ .hang :=
  (State.call_returns (safeReachable_valid h) hc).ne_hang

/-- A task with effective KUID and KGID 1000 and no capabilities. -/
def minOpCreds : Credentials := ⟨1000, 1000, [], fun _ => false⟩

/-- The system after `semget(1, 1, IPC_CREAT | 0600)` by that task, its one
semaphore at `value` with `waiters` queued, last changed by `pid`. -/
def minOpState (value : Int16) (waiters : List Waiter) (pid : Int32) : State :=
  ⟨⟨[(1, 0)], 1⟩,
    [⟨1, 1, ⟨1000, 1000⟩, ⟨1000, 1000⟩, filePermsFromMode 0o600, [⟨value, waiters, pid⟩], false⟩]⟩

/-- `semop` with `SemOp = -32768` on a semaphore at 0 leaves it at -32768; a
wait for zero then queues a waiter of value 0, and the next increment makes
`wakeWaiters` spin on it. -/
theorem executeOps_min_semop_hangs :
    Reachable (minOpState (-32768) [⟨0, 1⟩] 1) ∧
      (minOpState (-32768) [⟨0, 1⟩] 1).call (.executeOps 0 [⟨0, 1, 0⟩] minOpCreds 1 2) =
        .hang := by
  have h₁ : State.new.call (.findOrCreate minOpCreds 1 1 0o600 false true false) =
      .ok (minOpState 0 [] 0) := by decide
  have h₂ : (minOpState 0 [] 0).call (.executeOps 0 [⟨0, -32768, 0⟩] minOpCreds 1 0) =
      .ok (minOpState (-32768) [] 1) := by decide
  have h₃ : (minOpState (-32768) [] 1).call (.executeOps 0 [⟨0, 0, 0⟩] minOpCreds 1 1) =
      .ok (minOpState (-32768) [⟨0, 1⟩] 1) := by decide
  refine ⟨?_, by decide⟩
  exact ((Reachable.new.call h₁).call h₂).call h₃

end Semaphore
