import Gvisor.Epoll.Lists
import Gvisor.Lib.Acyclic
import Mathlib.Data.Set.Finite.Basic

/-! The event polls of a system, and the graph of which poll observes which.
Every reachable system keeps the lists of each poll (`EventPoll.Inv`).

`observes` searches the graph to a depth, and its answer is exact:
`observes_iff` says it finds `ep` when a path of at most `depthLeft` steps
reaches it, and also whenever some path is `depthLeft` steps long. So the
check of `AddEntry` refuses every edge that closes a cycle, and the graph of
every reachable system is acyclic; as only finitely many polls have files,
every descent along it ends, which is what makes the recursion of `Readiness`
through nested polls end.

The check looks only below the poll added: a path of four steps below it is
refused, but nothing bounds the paths above the poll it is added to. `chain`
builds, from the top down, a path as long as any `n`. -/

namespace Epoll

namespace System

open EventPoll Relation

variable {sys : System} {k j a b c d : ℕ} {rd : Readiness} {op : Op}
  {id x : FileIdentifier} {flags : EntryFlags} {mask : EventMask} {data : Int32 × Int32}
  {e e' : EventPoll}

section Steps

@[simp] theorem setPoll_polls : (sys.setPoll k e).polls j = if j = k then e else sys.polls j :=
  Function.update_apply ..

theorem step_polls :
    (sys.step k rd op).polls j = if j = k then sys.stepPoll k rd op else sys.polls j :=
  setPoll_polls

theorem addEntry_of_mem (h : id ∈ (sys.polls k).files) :
    sys.addEntry k id flags mask data rd = .error .EEXIST :=
  if_pos h

/-- What a successful `AddEntry` checked, and the poll it returns. -/
theorem addEntry_eq_ok (h : sys.addEntry k id flags mask data rd = .ok e') :
    id ∉ (sys.polls k).files ∧ e' = (sys.polls k).insertEntry id flags mask data rd ∧
      ∀ ep, id.file = .eventPoll ep → k ≠ ep ∧ sys.observes ep k 4 = false := by
  unfold addEntry at h
  dsimp only at h
  split_ifs at h with hid
  refine ⟨hid, ?_⟩
  split at h
  · rename_i ep hf
    split_ifs at h with hk hobs
    exact ⟨(Except.ok.inj h).symm, fun ep' hf' => by
      obtain rfl : ep = ep' := File.eventPoll.inj (hf ▸ hf')
      exact ⟨hk, by simpa using hobs⟩⟩
  · rename_i n hf
    exact ⟨(Except.ok.inj h).symm, fun ep hf' => by simp [hf] at hf'⟩

theorem stepPoll_addEntry_of_mem (h : id ∈ (sys.polls k).files) :
    sys.stepPoll k rd (.addEntry id flags mask data) = sys.polls k := by
  simp [stepPoll, addEntry_of_mem h, Except.toOption]

/-- A file of a poll after a step was there before, or the step added it. -/
theorem mem_files_stepPoll (hx : x ∈ (sys.stepPoll k rd op).files) :
    x ∈ (sys.polls k).files ∨ ∃ flags mask data e', op = .addEntry x flags mask data ∧
      sys.addEntry k x flags mask data rd = .ok e' := by
  cases op with
  | addEntry y flags mask data =>
    simp only [stepPoll] at hx
    cases hres : sys.addEntry k y flags mask data rd with
    | error err => simp_all [Except.toOption]
    | ok e' =>
      obtain ⟨-, rfl, -⟩ := addEntry_eq_ok hres
      simp only [hres, Except.toOption, Option.getD_some, files_insertEntry, List.mem_append,
        List.mem_singleton] at hx
      rcases hx with hx | rfl
      · exact .inl hx
      · exact .inr ⟨flags, mask, data, _, rfl, hres⟩
  | updateEntry y flags mask data =>
    simp only [stepPoll] at hx
    cases hres : (sys.polls k).updateEntry y flags mask data rd with
    | error err => simp_all [Except.toOption]
    | ok e' => simp_all [Except.toOption, files_updateEntry hres]
  | removeEntry y =>
    simp only [stepPoll] at hx
    cases hres : (sys.polls k).removeEntry y with
    | error err => simp_all [Except.toOption]
    | ok e' =>
      simp only [hres, Except.toOption, Option.getD_some, files_removeEntry hres] at hx
      exact .inl (List.mem_of_mem_erase hx)
  | readEvents max => exact .inl (by simpa [stepPoll, readEvents] using hx)
  | readiness mask => exact .inl (by simpa [stepPoll] using hx)
  | callback y => exact .inl (by simpa [stepPoll] using hx)

theorem inv_stepPoll (h : Inv (sys.polls k)) : Inv (sys.stepPoll k rd op) := by
  cases op with
  | addEntry y flags mask data =>
    simp only [System.stepPoll]
    cases hres : sys.addEntry k y flags mask data rd with
    | error err => simpa [Except.toOption] using h
    | ok e' =>
      obtain ⟨hy, rfl, -⟩ := addEntry_eq_ok hres
      simpa [Except.toOption] using h.insertEntry hy
  | updateEntry y flags mask data =>
    simp only [System.stepPoll]
    cases hres : (sys.polls k).updateEntry y flags mask data rd with
    | error err => simpa [Except.toOption] using h
    | ok e' => simpa [Except.toOption] using h.updateEntry hres
  | removeEntry y =>
    simp only [System.stepPoll]
    cases hres : (sys.polls k).removeEntry y with
    | error err => simpa [Except.toOption] using h
    | ok e' => simpa [Except.toOption] using h.removeEntry hres
  | readEvents max => exact h.readEventsWith
  | readiness mask => exact h.readiness mask
  | callback y => exact h.callback

theorem init_polls (k : ℕ) : init.polls k = newEventPoll := rfl

theorem Reachable.init : Reachable init := Transition.Reachable.of_init rfl

theorem Reachable.step (h : Reachable sys) (k : ℕ) (rd : Readiness) (op : Op) :
    Reachable (sys.step k rd op) :=
  Transition.Reachable.tail h ⟨k, rd, op, rfl⟩

/-- Every poll of a reachable system keeps its lists. -/
theorem Reachable.inv (h : Reachable sys) (k : ℕ) : Inv (sys.polls k) := by
  refine Transition.Reachable.invariant (fun sys : System => ∀ k, EventPoll.Inv (sys.polls k))
    ?_ ?_ h k
  · rintro _ rfl k
    exact newEventPoll_inv
  · rintro sys _ hinv ⟨k', rd, op, rfl⟩ j
    rw [step_polls]
    split_ifs with hj
    · subst hj
      exact inv_stepPoll (hinv j)
    · exact hinv j

end Steps

section Observes

/-- Poll `a` has poll `b` among its files. -/
def Observes (sys : System) (a b : ℕ) : Prop :=
  ∃ id ∈ (sys.polls a).files, id.file = .eventPoll b

theorem observes_zero : sys.observes a b 0 = true := rfl

theorem observes_succ :
    sys.observes a b (d + 1) = true ↔
      ∃ f, Observes sys a f ∧ (f = b ∨ sys.observes f b d = true) := by
  simp only [observes, List.any_eq_true, Observes]
  constructor
  · rintro ⟨id, hid, h⟩
    split at h
    · rename_i f hf
      exact ⟨f, ⟨id, hid, hf⟩, by simpa using h⟩
    · exact absurd h Bool.false_ne_true
  · rintro ⟨f, ⟨id, hid, hf⟩, h⟩
    exact ⟨id, hid, by simpa [hf] using h⟩

/-- `observes` answers exactly: `ep` is reached in at most `depthLeft` steps,
or some path is `depthLeft` steps long. -/
theorem observes_iff :
    sys.observes a b d = true ↔
      (∃ n, 0 < n ∧ n ≤ d ∧ Relation.Path (Observes sys) n a b) ∨
        ∃ c, Relation.Path (Observes sys) d a c := by
  induction d generalizing a with
  | zero => exact ⟨fun _ => .inr ⟨a, .refl a⟩, fun _ => observes_zero⟩
  | succ d ih =>
    rw [observes_succ]
    constructor
    · rintro ⟨f, hf, rfl | hobs⟩
      · exact .inl ⟨1, by omega, by omega, .single hf⟩
      · rcases ih.1 hobs with ⟨n, hn, hnd, p⟩ | ⟨c, p⟩
        · exact .inl ⟨n + 1, by omega, by omega, .cons hf p⟩
        · exact .inr ⟨c, .cons hf p⟩
    · rintro (⟨n, hn, hnd, p⟩ | ⟨c, p⟩)
      · obtain ⟨m, rfl⟩ : ∃ m, n = m + 1 := ⟨n - 1, by omega⟩
        cases p with
        | cons hf p =>
          rcases Nat.eq_zero_or_pos m with rfl | hm
          · cases p
            exact ⟨_, hf, .inl rfl⟩
          · exact ⟨_, hf, .inr (ih.2 (.inl ⟨m, hm, by omega, p⟩))⟩
      · cases p with
        | cons hf p => exact ⟨_, hf, .inr (ih.2 (.inr ⟨c, p⟩))⟩

/-- Whatever the depth, `observes` finds a poll reached by a path. -/
theorem observes_of_transGen (h : TransGen (Observes sys) a b) (d : ℕ) :
    sys.observes a b d = true := by
  obtain ⟨n, hn, p⟩ := h.exists_path
  rcases Nat.lt_or_ge d n with hd | hd
  · obtain ⟨c, p'⟩ := p.exists_prefix hd.le
    exact observes_iff.2 (.inr ⟨c, p'⟩)
  · exact observes_iff.2 (.inl ⟨n, hn, hd, p⟩)

/-- What the check of `AddEntry` guarantees: no path of four steps starts at
the poll added. -/
theorem addEntry_no_path_four (h : sys.addEntry k id flags mask data rd = .ok e')
    {ep : ℕ} (hf : id.file = .eventPoll ep) : ¬ ∃ c, Relation.Path (Observes sys) 4 ep c := by
  intro hp
  have hobs := ((addEntry_eq_ok h).2.2 ep hf).2
  rw [← Bool.not_eq_true, observes_iff] at hobs
  exact hobs (.inr hp)

/-- `AddEntry` refuses an edge that would close a cycle: with `EINVAL` for the
poll itself, with `ELOOP` when the poll added already reaches it. -/
theorem addEntry_of_reflTransGen (hid : id ∉ (sys.polls k).files) {ep : ℕ}
    (hf : id.file = .eventPoll ep) (hr : ReflTransGen (Observes sys) ep k) :
    sys.addEntry k id flags mask data rd = .error .EINVAL ∨
      sys.addEntry k id flags mask data rd = .error .ELOOP := by
  unfold addEntry
  dsimp only
  rw [if_neg hid]
  split
  · rename_i ep' hf'
    obtain rfl : ep = ep' := File.eventPoll.inj (hf ▸ hf')
    by_cases hk : k = ep
    · exact .inl (if_pos hk)
    · rw [if_neg hk]
      rcases hr.cases_head with heq | hr
      · exact absurd heq.symm hk
      · exact .inr (if_pos (observes_of_transGen (TransGen.head'_iff.2 hr) 4))
  · rename_i n hf'
    simp [hf] at hf'

theorem observes_step_of_files
    (hf : ∀ x ∈ (sys.stepPoll k rd op).files, x ∈ (sys.polls k).files)
    (h : Observes (sys.step k rd op) a b) : Observes sys a b := by
  obtain ⟨id, hid, hfile⟩ := h
  rw [step_polls] at hid
  split_ifs at hid with ha
  · subst ha
    exact ⟨id, hf id hid, hfile⟩
  · exact ⟨id, hid, hfile⟩

/-- After a successful `AddEntry` of `x` to poll `k`, the only new edge is from
`k` to the poll `x` is. -/
theorem observes_step_addEntry (h : Observes (sys.step k rd (.addEntry x flags mask data)) a b) :
    Observes sys a b ∨ a = k ∧ x.file = .eventPoll b ∧
      ∃ e', sys.addEntry k x flags mask data rd = .ok e' := by
  obtain ⟨id, hid, hfile⟩ := h
  rw [step_polls] at hid
  split_ifs at hid with ha
  · subst ha
    rcases mem_files_stepPoll hid with hid | ⟨flags', mask', data', e', hop, hres⟩
    · exact .inl ⟨id, hid, hfile⟩
    · cases hop
      exact .inr ⟨rfl, hfile, e', hres⟩
  · exact .inl ⟨id, hid, hfile⟩

/-- A step keeps the graph acyclic: the only edge it can add is checked by
`AddEntry` not to close a cycle. -/
theorem acyclic_step (h : Acyclic (Observes sys)) (k : ℕ) (rd : Readiness) (op : Op) :
    Acyclic (Observes (sys.step k rd op)) := by
  cases op with
  | addEntry x flags mask data =>
    cases hres : sys.addEntry k x flags mask data rd with
    | error err =>
      refine h.mono fun a b hab => observes_step_of_files (fun y hy => ?_) hab
      simpa [stepPoll, hres, Except.toOption] using hy
    | ok e' =>
      cases hfile : x.file with
      | other n =>
        refine h.mono fun a b hab => ?_
        rcases observes_step_addEntry hab with hab | ⟨-, hx, -⟩
        · exact hab
        · simp [hfile] at hx
      | eventPoll ep =>
        have hba : ¬ ReflTransGen (Observes sys) ep k := fun hr => by
          rcases addEntry_of_reflTransGen (addEntry_eq_ok hres).1 hfile hr with he | he <;>
            rw [hres] at he <;> cases he
        refine (h.addEdge hba).mono fun a b hab => ?_
        rcases observes_step_addEntry hab with hab | ⟨rfl, hx, -⟩
        · exact .inl hab
        · exact .inr ⟨rfl, File.eventPoll.inj (hfile ▸ hx).symm⟩
  | updateEntry y flags mask data =>
    refine h.mono fun a b hab => observes_step_of_files (fun x hx => ?_) hab
    rcases mem_files_stepPoll hx with hx | ⟨_, _, _, _, hop, -⟩
    · exact hx
    · cases hop
  | removeEntry y =>
    refine h.mono fun a b hab => observes_step_of_files (fun x hx => ?_) hab
    rcases mem_files_stepPoll hx with hx | ⟨_, _, _, _, hop, -⟩
    · exact hx
    · cases hop
  | readEvents max =>
    exact h.mono fun a b hab => observes_step_of_files (fun x hx => by
      simpa [stepPoll, readEvents] using hx) hab
  | readiness mask =>
    exact h.mono fun a b hab => observes_step_of_files (fun x hx => by
      simpa [stepPoll] using hx) hab
  | callback y =>
    exact h.mono fun a b hab => observes_step_of_files (fun x hx => by
      simpa [stepPoll] using hx) hab

/-- No reachable system has a cycle of polls observing each other. -/
theorem Reachable.acyclic (h : Reachable sys) : Acyclic (Observes sys) := by
  refine Transition.Reachable.invariant (fun sys => Acyclic (Observes sys)) ?_ ?_ h
  · rintro _ rfl a hcyc
    obtain ⟨n, hn, p⟩ := hcyc.exists_path
    cases p with
    | refl => omega
    | cons hab _ =>
      obtain ⟨id, hid, -⟩ := hab
      simp [init_polls, newEventPoll] at hid
  · rintro sys _ hacyc ⟨k, rd, op, rfl⟩
    exact acyclic_step hacyc k rd op

/-- Only finitely many polls of a reachable system have files. -/
theorem Reachable.files_eventually_nil (h : Reachable sys) :
    ∃ N, ∀ j, N ≤ j → (sys.polls j).files = [] := by
  refine Transition.Reachable.invariant
    (fun sys => ∃ N, ∀ j, N ≤ j → (sys.polls j).files = []) ?_ ?_ h
  · rintro _ rfl
    exact ⟨0, fun j _ => rfl⟩
  · rintro sys _ ⟨N, hN⟩ ⟨k, rd, op, rfl⟩
    refine ⟨max N (k + 1), fun j hj => ?_⟩
    rw [step_polls, if_neg (by omega)]
    exact hN j (by omega)

/-- Every descent along the polls a poll observes ends: the recursion of
`Readiness` through nested polls terminates. -/
theorem Reachable.wellFounded (h : Reachable sys) : WellFounded (Function.swap (Observes sys)) := by
  obtain ⟨N, hN⟩ := h.files_eventually_nil
  refine h.acyclic.wellFounded (Set.finite_lt_nat N) fun a b hab => ?_
  obtain ⟨id, hid, -⟩ := hab
  by_contra ha
  simp [hN a (by simpa using ha)] at hid

end Observes

section Chain

/-- Polls `0, …, n` observing each other in a line, built from the top down:
poll `i` adds poll `i + 1` while that poll observes nothing yet. -/
def chain : ℕ → System
  | 0 => init
  | n + 1 => (chain n).step n (fun _ _ => 0)
      (.addEntry ⟨.eventPoll (n + 1), 0⟩ 0 eventIn (0, 0))

theorem chain_reachable (n : ℕ) : Reachable (chain n) := by
  induction n with
  | zero => exact Reachable.init
  | succ n ih => exact ih.step _ _ _

theorem chain_files (n j : ℕ) :
    ((chain n).polls j).files = if j < n then [⟨.eventPoll (j + 1), 0⟩] else [] := by
  induction n generalizing j with
  | zero => rfl
  | succ n ih =>
    rw [chain, step_polls]
    split_ifs with hj hjn hjn
    · subst j
      -- poll `n + 1` has no files yet, so the check of depth passes
      have hobs : (chain n).observes (n + 1) n 4 = false := by
        simp [observes, ih (n + 1)]
      have hres : (chain n).addEntry n ⟨.eventPoll (n + 1), 0⟩ 0 eventIn (0, 0) (fun _ _ => 0) =
          .ok (((chain n).polls n).insertEntry ⟨.eventPoll (n + 1), 0⟩ 0 eventIn (0, 0)
            (fun _ _ => 0)) := by
        simp [addEntry, ih n, hobs]
      simp [stepPoll, hres, Except.toOption, ih n]
    · omega
    · rw [ih j, if_pos (by omega)]
    · rw [ih j, if_neg (by omega)]

theorem chain_observes {n j : ℕ} (hj : j < n) : Observes (chain n) j (j + 1) :=
  ⟨⟨.eventPoll (j + 1), 0⟩, by simp [chain_files, hj], rfl⟩

/-- The chain has a path of `n` steps, from poll `0` to poll `n`. -/
theorem chain_path (n : ℕ) : Relation.Path (Observes (chain n)) n 0 n := by
  suffices h : ∀ m ≤ n, Relation.Path (Observes (chain n)) m (n - m) n by
    simpa using h n le_rfl
  intro m hm
  induction m with
  | zero => simpa using Relation.Path.refl n
  | succ m ih =>
    have hstep : Observes (chain n) (n - (m + 1)) (n - m) := by
      have := chain_observes (n := n) (j := n - (m + 1)) (by omega)
      rwa [show n - (m + 1) + 1 = n - m by omega] at this
    exact .cons hstep (ih (by omega))

end Chain

end System

end Epoll
