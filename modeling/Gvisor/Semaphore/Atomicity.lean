import Gvisor.Semaphore.Invariant

/-! What `ExecuteOps` does to the values of a set, against the operations of
`semop` applied in order to the values as integers: a wait for zero needs the
running value to be 0, a decrement needs it to be at least the amount, and an
increment always applies. An error changes nothing, since no set is returned.
On a wait the set gains one waiter on the semaphore that blocked and nothing
else changes. On success every value is what the operations give and every
semaphore carries the caller's pid. The first holds for every list of
operations without `SemOp = -32768`, whose negation wraps, so that a decrement
by 32768 passes the checks on every value. -/

namespace Semaphore
open Syserror

/-- One operation of `semop` on the values as integers, `none` where it
blocks. -/
def applyOp (vals : List ℤ) (op : Sembuf) : Option (List ℤ) :=
  let n := op.semNum.toNat
  let v := vals.getD n 0
  if op.semOp = 0 then (if v = 0 then some vals else none)
  else if op.semOp < 0 ∧ v < -op.semOp.toInt then none
  else some (vals.set n (v + op.semOp.toInt))

/-- The operations applied in order, `none` where one of them blocks. -/
def applyOps (vals : List ℤ) (ops : List Sembuf) : Option (List ℤ) := ops.foldlM applyOp vals

/-- The values of the semaphores of a set, as integers. -/
def Set.values (s : Set) : List ℤ := s.sems.map fun sem => sem.value.toInt

theorem applyOps_cons (vals : List ℤ) (op : Sembuf) (ops : List Sembuf) :
    applyOps vals (op :: ops) = (applyOp vals op).bind fun vals' => applyOps vals' ops := by
  rw [applyOps, List.foldlM_cons]
  rfl

theorem getD_map_toInt (tmp : List Int16) (n : ℕ) :
    (tmp.map Int16.toInt).getD n 0 = (tmp.getD n 0).toInt :=
  List.getD_map tmp 0 Int16.toInt

/-! ### The loop of `executeOps` -/

/-- A decrement that passes the checks of `executeOps` is one that `applyOp`
applies, and the sum does not wrap. -/
theorem applyOp_of_neg {v op : Int16} (hop : op ≠ Int16.minValue) (hneg : op < 0)
    (hgt : ¬ -op > v) : ¬ (op < 0 ∧ v.toInt < -op.toInt) ∧ (v + op).toInt = v.toInt + op.toInt := by
  have hn := Int16.toInt_neg_of_ne_minValue hop
  have hge : -op.toInt ≤ v.toInt := by
    rw [← hn]
    exact Int16.le_iff_toInt_le.1 (Int16.not_lt.1 hgt)
  have hv := v.toInt_lt
  have ho := Int16.lt_iff_toInt_lt.1 hneg
  refine ⟨fun h => by omega, Int16.toInt_add_of_bounds (by omega) (by simp at ho; omega)⟩

/-- An increment that passes the check against `valueMax` does not wrap. -/
theorem add_toInt_of_pos {v op : Int16} (hpos : 0 < op) (hgt : ¬ v > valueMax - op) :
    (v + op).toInt = v.toInt + op.toInt := by
  have ho := Int16.lt_iff_toInt_lt.1 hpos
  have hom := op.toInt_lt
  have hsub : (valueMax - op).toInt = 32767 - op.toInt :=
    Int16.toInt_sub_of_bounds (by simp [valueMax] at ho ⊢; omega) (by simp [valueMax] at ho ⊢; omega)
  have hle : v.toInt ≤ 32767 - op.toInt := by
    rw [← hsub]
    exact Int16.le_iff_toInt_le.1 (Int16.not_lt.1 hgt)
  have hv := v.le_toInt
  exact Int16.toInt_add_of_bounds (by simp at ho; omega) (by omega)

/-- One turn of `executeLoop` that goes on is one `applyOp` on the integers,
for an operation other than `-32768`. -/
theorem executeLoop_cons_done {tmp tmp' : List Int16} {op : Sembuf} {ops : List Sembuf}
    (hop : op.semOp ≠ Int16.minValue) (h : executeLoop tmp (op :: ops) = .done tmp') :
    ∃ tmp₁, executeLoop tmp₁ ops = .done tmp' ∧
      applyOp (tmp.map Int16.toInt) op = some (tmp₁.map Int16.toInt) := by
  rcases executeLoop_cons_cases tmp op ops with ⟨he, -⟩ | ⟨e, he⟩ | ⟨he, h0, hv⟩ | ⟨he, hcase⟩
  · rw [he] at h
    cases h
  · rw [he] at h
    cases h
  · -- a wait for zero on a zero goes on with the values as they are
    refine ⟨tmp, he ▸ h, ?_⟩
    simp only [applyOp, getD_map_toInt, hv, h0, Int16.toInt_zero, if_true]
  · refine ⟨_, he ▸ h, ?_⟩
    have hne : op.semOp ≠ 0 := by
      rcases hcase with ⟨hneg, -⟩ | ⟨hpos, -⟩
      · exact Int16.ne_of_lt hneg
      · exact Ne.symm (Int16.ne_of_lt hpos)
    rcases hcase with ⟨hneg, hgt⟩ | ⟨hpos, hgt⟩
    · obtain ⟨hpass, hsum⟩ := applyOp_of_neg hop hneg hgt
      simp only [applyOp, getD_map_toInt, if_neg hne, if_neg hpass, List.map_set, hsum]
    · have hpass : ¬ (op.semOp < 0 ∧ (tmp.getD op.semNum.toNat 0).toInt < -op.semOp.toInt) :=
        fun h => Int16.lt_asymm h.1 hpos
      simp only [applyOp, getD_map_toInt, if_neg hne, if_neg hpass, List.map_set,
        add_toInt_of_pos hpos hgt]

/-- The loop run to its end without `-32768` is `applyOps` on the integers. -/
theorem executeLoop_done_applyOps {ops : List Sembuf}
    (hops : ∀ op ∈ ops, op.semOp ≠ Int16.minValue) :
    ∀ {tmp tmp' : List Int16}, executeLoop tmp ops = .done tmp' →
      applyOps (tmp.map Int16.toInt) ops = some (tmp'.map Int16.toInt) := by
  induction ops with
  | nil =>
    intro tmp tmp' h
    cases h
    rfl
  | cons op ops ih =>
    intro tmp tmp' h
    obtain ⟨tmp₁, h₁, hstep⟩ := executeLoop_cons_done (hops op List.mem_cons_self) h
    rw [applyOps_cons, hstep]
    exact ih (fun op' h' => hops op' (List.mem_cons_of_mem op h')) h₁

theorem executeLoop_done_length {ops : List Sembuf} :
    ∀ {tmp tmp' : List Int16}, executeLoop tmp ops = .done tmp' → tmp'.length = tmp.length := by
  induction ops with
  | nil =>
    intro tmp tmp' h
    cases h
    rfl
  | cons op ops ih =>
    intro tmp tmp' h
    rcases executeLoop_cons_cases tmp op ops with ⟨he, -⟩ | ⟨e, he⟩ | ⟨he, -⟩ | ⟨he, -⟩
    · rw [he] at h
      cases h
    · rw [he] at h
      cases h
    · rw [he] at h
      exact ih h
    · rw [he] at h
      rw [ih h, List.length_set]

/-! ### `executeOps` -/

theorem Sem.wakeWaiters_eq_ok {s s' : Sem} (h : s.wakeWaiters = .ok s') :
    s' = { s with waiters := [] } := by
  unfold Sem.wakeWaiters at h
  obtain ⟨_, -, h⟩ := Outcome.bind_eq_ok.1 h
  exact (Outcome.ok.inj h).symm

namespace Set

/-- On a wait, `executeOps` queues one waiter on the semaphore that blocked and
changes nothing else. -/
theorem executeOps_wait {s s' : Set} {ops : List Sembuf} {pid : Int32} {ch c : Chan} {num : Int32}
    (h : s.executeOps ops pid ch = .ok (s', some (c, num))) :
    ∃ n value, num = Int32.ofNat n ∧
      s' = { s with sems := s.sems.modify n fun sem =>
        { sem with waiters := sem.waiters ++ [⟨value, ch⟩] } } := by
  unfold executeOps at h
  split at h
  · cases h
  · next n value _ =>
    obtain ⟨hs, hc⟩ := Prod.mk.inj (Outcome.ok.inj h)
    obtain ⟨-, hnum⟩ := Prod.mk.inj (Option.some.inj hc)
    exact ⟨n, value, hnum.symm, hs.symm⟩
  · obtain ⟨_, -, h⟩ := Outcome.bind_eq_ok.1 h
    cases h

/-- On success, `executeOps` stores the values its loop computed, wakes the
waiters and sets every semaphore's pid to the caller's. -/
theorem executeOps_done {s s' : Set} {ops : List Sembuf} {pid : Int32} {ch : Chan}
    (h : s.executeOps ops pid ch = .ok (s', none)) :
    ∃ tmp, executeLoop (s.sems.map Sem.value) ops = .done tmp ∧
      s'.sems.map Sem.value = tmp ∧ (∀ sem ∈ s'.sems, sem.pid = pid) ∧
      s' = { s with sems := s'.sems } := by
  unfold executeOps at h
  split at h
  · cases h
  · cases h
  · next tmp hl =>
    obtain ⟨sems, hsems, h⟩ := Outcome.bind_eq_ok.1 h
    rw [Outcome.pure_eq] at h
    obtain ⟨hs', -⟩ := Prod.mk.inj (Outcome.ok.inj h)
    subst hs'
    -- each semaphore comes back from its wake-up with its new value and the pid
    have hsem : ∀ (c : Sem × Int16) sem, (do
        let sem ← { c.1 with value := c.2 }.wakeWaiters
        pure { sem with pid := pid }) = Outcome.ok sem → sem.value = c.2 ∧ sem.pid = pid := by
      intro c sem hc
      obtain ⟨sem₁, hw, hp⟩ := Outcome.bind_eq_ok.1 hc
      rw [Sem.wakeWaiters_eq_ok hw, Outcome.pure_eq] at hp
      rw [← Outcome.ok.inj hp]
      exact ⟨rfl, rfl⟩
    have hlen : tmp.length ≤ s.sems.length := by
      rw [executeLoop_done_length hl, List.length_map]
    refine ⟨tmp, hl, ?_, ?_, rfl⟩
    · rw [← List.map_snd_zip hlen]
      exact Outcome.mapM_eq_ok_map (fun c a hc => (hsem c a hc).1) hsems
    · exact Outcome.mapM_eq_ok_forall_mem (fun c a hc => (hsem c a hc).2) hsems

/-- `ExecuteOps` that returns has passed its checks and is `executeOps`. -/
theorem ExecuteOps_eq_ok {s : Set} {ops : List Sembuf} {creds : Credentials} {pid : Int32}
    {ch : Chan} {r : Set × Option (Chan × Int32)} (h : s.ExecuteOps ops creds pid ch = .ok r) :
    s.executeOps ops pid ch = .ok r := by
  unfold ExecuteOps at h
  dsimp only at h
  split_ifs at h
  exact h

theorem values_modify_waiters (s : Set) (n : ℕ) (w : Waiter) :
    (s.sems.modify n fun sem => { sem with waiters := sem.waiters ++ [w] }).map (·.value.toInt) =
      s.values :=
  List.map_modify_of_comp (g := fun sem => { sem with waiters := sem.waiters ++ [w] }) _
    (fun _ => rfl) s.sems n

end Set

/-- `ExecuteOps` is all-or-nothing on the values and pids of the set, except
for a decrement by 32768. An error returns no set. A wait queues one waiter on
the semaphore that blocked and leaves every value and pid as it was. A success
without `SemOp = -32768` stores what the operations give when applied in order
to the values as integers, and sets the caller's pid on every semaphore. But
`SemOp = -32768` passes both checks of a decrement, since its negation wraps to
itself: on a semaphore at 0, where the decrement should block, `ExecuteOps`
succeeds and stores -32768. -/
theorem ExecuteOps_all_or_nothing_but_min_semop :
    (∀ (s s' : Set) (ops : List Sembuf) (creds : Credentials) (pid : Int32) (ch : Chan),
      (∀ op ∈ ops, op.semOp ≠ Int16.minValue) → s.ExecuteOps ops creds pid ch = .ok (s', none) →
      applyOps s.values ops = some s'.values ∧ (∀ sem ∈ s'.sems, sem.pid = pid) ∧
        s' = { s with sems := s'.sems }) ∧
    (∀ (s s' : Set) (ops : List Sembuf) (creds : Credentials) (pid : Int32) (ch c : Chan)
      (num : Int32), s.ExecuteOps ops creds pid ch = .ok (s', some (c, num)) →
      s'.values = s.values ∧ s'.sems.map Sem.pid = s.sems.map Sem.pid ∧
        ∃ n value, num = Int32.ofNat n ∧
          s' = { s with sems := s.sems.modify n fun sem =>
            { sem with waiters := sem.waiters ++ [⟨value, ch⟩] } }) ∧
    (⟨1, 1, ⟨1000, 1000⟩, ⟨1000, 1000⟩, filePermsFromMode 0o600, [⟨0, [], 0⟩], false⟩ : Set).ExecuteOps
        [⟨0, -32768, 0⟩] minOpCreds 1 0 =
      .ok (⟨1, 1, ⟨1000, 1000⟩, ⟨1000, 1000⟩, filePermsFromMode 0o600, [⟨-32768, [], 1⟩], false⟩, none) ∧
    applyOps [0] [⟨0, -32768, 0⟩] = none := by
  refine ⟨?_, ?_, by decide, by decide⟩
  · intro s s' ops creds pid ch hops h
    obtain ⟨tmp, hl, hv, hpid, hs'⟩ := Set.executeOps_done (Set.ExecuteOps_eq_ok h)
    have happ := executeLoop_done_applyOps hops hl
    rw [List.map_map, ← hv, List.map_map] at happ
    exact ⟨happ, hpid, hs'⟩
  · intro s s' ops creds pid ch c num h
    obtain ⟨n, value, hnum, rfl⟩ := Set.executeOps_wait (Set.ExecuteOps_eq_ok h)
    exact ⟨Set.values_modify_waiters s n _,
      List.map_modify_of_comp (g := fun sem => { sem with waiters := sem.waiters ++ [⟨value, ch⟩] })
        _ (fun _ => rfl) s.sems n, n, value, hnum, rfl⟩

/-- A decrement by one of a semaphore at 3 stores 2, as `applyOps` computes,
and one of a semaphore at 0 waits, keeping the value 0. -/
theorem ExecuteOps_all_or_nothing_but_min_semop_decrement :
    applyOps [3] [⟨0, -1, 0⟩] = some [2] ∧
      Set.values ⟨1, 1, ⟨1000, 1000⟩, ⟨1000, 1000⟩, filePermsFromMode 0o600, [⟨0, [⟨-1, 0⟩], 0⟩], false⟩ =
        [0] :=
  ⟨(ExecuteOps_all_or_nothing_but_min_semop.1
      ⟨1, 1, ⟨1000, 1000⟩, ⟨1000, 1000⟩, filePermsFromMode 0o600, [⟨3, [], 0⟩], false⟩
      ⟨1, 1, ⟨1000, 1000⟩, ⟨1000, 1000⟩, filePermsFromMode 0o600, [⟨2, [], 1⟩], false⟩
      [⟨0, -1, 0⟩] minOpCreds 1 0 (by decide) (by decide)).1,
    (ExecuteOps_all_or_nothing_but_min_semop.2.1
      ⟨1, 1, ⟨1000, 1000⟩, ⟨1000, 1000⟩, filePermsFromMode 0o600, [⟨0, [], 0⟩], false⟩
      ⟨1, 1, ⟨1000, 1000⟩, ⟨1000, 1000⟩, filePermsFromMode 0o600, [⟨0, [⟨-1, 0⟩], 0⟩], false⟩
      [⟨0, -1, 0⟩] minOpCreds 1 0 0 0 (by decide)).1⟩

end Semaphore
