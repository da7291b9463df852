import Gvisor.Epoll.Graph

/-! How the entries of a poll are reported over runs of the system. An entry
on a list stays as it is through every step but the few that name it
(`entry_stepPoll`): an `UpdateEntry` or `RemoveEntry` of it, a callback while
it waits, and, while it is ready, a `ReadEvents` or `Readiness` that finds its
file not ready or the entry not level-triggered. From there:

* a one-shot entry, once reported, sits on the disabled list and is not
  reported again until it is re-armed;
* an edge-triggered entry, once reported, waits until a callback;
* a level-triggered entry whose file stays ready stays on the ready list, and
  every `ReadEvents` that returns fewer than `max` events reports it. -/

namespace Epoll

/-- `op` re-arms the entry `id`: an `UpdateEntry` of it, or a `RemoveEntry`
that ends it. -/
def Op.Rearms (id : FileIdentifier) : Op → Prop
  | .updateEntry x _ _ _ => x = id
  | .removeEntry x => x = id
  | _ => False

namespace System

open EventPoll

variable {sys sys' : System} {k : ℕ} {rd : Readiness} {op : Op} {id : FileIdentifier}
  {en : PollEntry} {c : ListKind} {max : ℤ} {P : ℕ → Readiness → Op → Prop}

/-- The entries that `ReadEvents` with `max` reports on poll `k`. -/
def reported (sys : System) (k : ℕ) (max : ℤ) (rd : Readiness) : List FileIdentifier :=
  ((sys.polls k).readEventsWith max rd).2.map Prod.fst

/-- Runs of the steps that `P` allows. -/
def RunOf (P : ℕ → Readiness → Op → Prop) : System → System → Prop :=
  Relation.ReflTransGen fun s s' => ∃ k rd op, P k rd op ∧ s' = s.step k rd op

theorem mask_ne_zero_of_fires (h : Fires rd id en) : rd id en.mask ≠ 0 := fun h0 => by
  simp [Fires, h0] at h

/-- An entry reported by `ReadEvents` was on the ready list, and its file was
ready. -/
theorem fires_of_reported (h : Inv (sys.polls k)) (hrep : id ∈ sys.reported k max rd) :
    id ∈ (sys.polls k).list .ready ∧ Fires rd id ((sys.polls k).entry id) := by
  obtain ⟨p, hp, rfl⟩ := List.mem_map.1 hrep
  obtain ⟨hl, hf, -⟩ := readEventsWith_mem h hp
  exact ⟨hl, hf⟩

theorem not_reported_of_curList (h : Inv (sys.polls k))
    (hc : ((sys.polls k).entry id).curList ≠ some .ready) (max : ℤ) (rd : Readiness) :
    id ∉ sys.reported k max rd := fun hrep =>
  hc (h.curList_of_mem (fires_of_reported h hrep).1)

/-- The steps that leave an entry on a list as it is. -/
theorem entry_stepPoll (h : Inv (sys.polls k)) (hen : (sys.polls k).entry id = en)
    (hc : en.curList = some c) (hop : ¬ op.Rearms id) (hcb : op = .callback id → c ≠ .waiting)
    (hready : c = .ready → Fires rd id en ∧ Level en) :
    (sys.stepPoll k rd op).entry id = en := by
  have hfiles : id ∈ (sys.polls k).files := h.mem_files_of_curList (hen ▸ hc)
  have hlist : ∀ j, id ∈ (sys.polls k).list j ↔ j = c := fun j => by
    rw [h.mem_list, hen, hc, Option.some_inj, eq_comm]
  cases op with
  | addEntry x flags mask data =>
    by_cases hx : x = id
    · subst hx
      rw [stepPoll_addEntry_of_mem hfiles, hen]
    · cases hres : sys.addEntry k x flags mask data rd with
      | error err => simp [stepPoll, hres, Except.toOption, hen]
      | ok e' =>
        obtain ⟨-, rfl, -⟩ := addEntry_eq_ok hres
        simp [stepPoll, hres, Except.toOption, insertEntry_entry_of_ne (Ne.symm hx), hen]
  | updateEntry x flags mask data =>
    have hx : id ≠ x := fun hx => hop hx.symm
    cases hres : (sys.polls k).updateEntry x flags mask data rd with
    | error err => simp [stepPoll, hres, Except.toOption, hen]
    | ok e' => simp [stepPoll, hres, Except.toOption, updateEntry_entry_of_ne hx hres, hen]
  | removeEntry x =>
    have hx : id ≠ x := fun hx => hop hx.symm
    cases hres : (sys.polls k).removeEntry x with
    | error err => simp [stepPoll, hres, Except.toOption, hen]
    | ok e' => simp [stepPoll, hres, Except.toOption, removeEntry_entry_of_ne hx hres, hen]
  | readEvents max =>
    simp only [stepPoll, readEvents]
    by_cases hr : c = .ready
    · subst hr
      obtain ⟨hf, hl⟩ := hready rfl
      rw [readEventsWith_entry_of_level h ((hlist _).2 rfl) (hen ▸ hf) (hen ▸ hl), hen]
    · rw [readEventsWith_entry_of_not_mem h (fun hm => hr ((hlist _).1 hm).symm), hen]
  | readiness mask =>
    simp only [stepPoll]
    by_cases hr : c = .ready
    · rw [readiness_entry_of_ne_zero h mask (hen ▸ mask_ne_zero_of_fires (hready hr).1), hen]
    · rw [readiness_entry_of_not_mem h mask (fun hm => hr ((hlist _).1 hm).symm), hen]
  | callback x =>
    simp only [stepPoll]
    by_cases hx : x = id
    · subst hx
      rw [callback_of_ne_waiting (by rw [hen, hc]; simpa using hcb rfl), hen]
    · rw [callback_entry_of_ne (Ne.symm hx), hen]

/-- Along a run whose steps on poll `k` all leave the entry `id` as it is, it
stays so; the run stays among the reachable systems. -/
theorem RunOf.entry_eq (hs : Reachable sys) (hen : (sys.polls k).entry id = en)
    (hc : en.curList = some c)
    (hP : ∀ rd op, P k rd op →
      ¬ op.Rearms id ∧ (op = .callback id → c ≠ .waiting) ∧
        (c = .ready → Fires rd id en ∧ Level en))
    (hrun : RunOf P sys sys') : Reachable sys' ∧ (sys'.polls k).entry id = en := by
  induction hrun with
  | refl => exact ⟨hs, hen⟩
  | tail _ hstep ih =>
    obtain ⟨k', rd, op, hp, rfl⟩ := hstep
    refine ⟨ih.1.step k' rd op, ?_⟩
    rw [step_polls]
    split_ifs with hk
    · subst hk
      obtain ⟨hop, hcb, hready⟩ := hP rd op hp
      exact entry_stepPoll (ih.1.inv _) ih.2 hc hop hcb hready
    · exact ih.2

/-- After `ReadEvents` reports a one-shot entry, no `ReadEvents` reports it
again until an `UpdateEntry` re-arms it or a `RemoveEntry` ends it. -/
theorem oneShot_not_reported_again (hs : Reachable sys)
    (hos : ((sys.polls k).entry id).flags &&& oneShot ≠ 0) (hrep : id ∈ sys.reported k max rd)
    (hrun : RunOf (fun k' _ op => k' = k → ¬ op.Rearms id)
      (sys.step k rd (.readEvents max)) sys')
    (max' : ℤ) (rd' : Readiness) : id ∉ sys'.reported k max' rd' := by
  have h := hs.inv k
  have hf := (fires_of_reported h hrep).2
  have hen : ((sys.step k rd (.readEvents max)).polls k).entry id =
      { (sys.polls k).entry id with curList := some .disabled } := by
    rw [step_polls, if_pos rfl, stepPoll, readEvents, readEventsWith_entry_of_reported h hrep,
      fate_of_oneShot hf hos]
  obtain ⟨hs', hen'⟩ := RunOf.entry_eq (hs.step k rd _) hen rfl
    (fun _ _ hp => ⟨hp rfl, fun _ => by decide, fun h => by cases h⟩) hrun
  exact not_reported_of_curList (hs'.inv k) (by simp [hen']) max' rd'

/-- After `ReadEvents` reports an edge-triggered entry, no `ReadEvents` reports
it again until a callback for it (or an `UpdateEntry` or `RemoveEntry`). -/
theorem edgeTriggered_not_reported_before_callback (hs : Reachable sys)
    (hos : ((sys.polls k).entry id).flags &&& oneShot = 0)
    (het : ((sys.polls k).entry id).flags &&& edgeTriggered ≠ 0)
    (hrep : id ∈ sys.reported k max rd)
    (hrun : RunOf (fun k' _ op => k' = k → ¬ op.Rearms id ∧ op ≠ .callback id)
      (sys.step k rd (.readEvents max)) sys')
    (max' : ℤ) (rd' : Readiness) : id ∉ sys'.reported k max' rd' := by
  have h := hs.inv k
  have hf := (fires_of_reported h hrep).2
  have hen : ((sys.step k rd (.readEvents max)).polls k).entry id =
      { (sys.polls k).entry id with curList := some .waiting } := by
    rw [step_polls, if_pos rfl, stepPoll, readEvents, readEventsWith_entry_of_reported h hrep,
      fate_of_edgeTriggered hf hos het]
  obtain ⟨hs', hen'⟩ := RunOf.entry_eq (hs.step k rd _) hen rfl
    (fun _ _ hp => ⟨(hp rfl).1, fun hcb => absurd hcb (hp rfl).2, fun h => by cases h⟩) hrun
  exact not_reported_of_curList (hs'.inv k) (by simp [hen']) max' rd'

/-- A level-triggered entry on the ready list whose file stays ready is never
moved off the ready list, and every `ReadEvents` that returns fewer than `max`
events reports it. -/
theorem level_reported_while_ready (hs : Reachable sys) (hen : (sys.polls k).entry id = en)
    (hc : en.curList = some .ready) (hl : Level en)
    (hrun : RunOf (fun k' rd op => k' = k → ¬ op.Rearms id ∧ Fires rd id en) sys sys') :
    ((sys'.polls k).entry id).curList = some .ready ∧
      ∀ max rd, Fires rd id en →
        (((sys'.polls k).readEventsWith max rd).2.length : ℤ) < max →
        id ∈ sys'.reported k max rd := by
  obtain ⟨hs', hen'⟩ := RunOf.entry_eq hs hen hc
    (fun _ _ hp => ⟨(hp rfl).1, fun _ => by decide, fun _ => ⟨(hp rfl).2, hl⟩⟩) hrun
  refine ⟨hen' ▸ hc, fun max rd hf hlt => ?_⟩
  have h := hs'.inv k
  exact readEventsWith_reported_of_lt h hlt (h.mem_list _ _ |>.2 (hen' ▸ hc)) (hen' ▸ hf)

/-- Event polls over every run. Each entry of `files` is on exactly the list
its `curList` names, and a removed one on none. No reachable graph of polls has
a cycle, and every descent along it ends. `AddEntry` refuses an edge that would
close a cycle, and accepts only a poll with no path of four steps below it.
`ReadEvents` returns at most `max` events, each the event of a ready entry with
its user data. One-shot, edge- and level-triggered entries are reported as
their flags say. But the check bounds only the paths below the poll added:
built from the top down, `chain n` is reachable and has a path of `n` steps,
for every `n`. -/
theorem addEntry_nests_beyond_depth_four :
    (∀ sys, Reachable sys → ∀ k id,
      (id ∈ (sys.polls k).files → ∃ j, ((sys.polls k).entry id).curList = some j ∧
        ∀ j', id ∈ (sys.polls k).list j' ↔ j' = j) ∧
      (id ∉ (sys.polls k).files → ((sys.polls k).entry id).curList = none ∧
        ∀ j, id ∉ (sys.polls k).list j)) ∧
    (∀ sys, Reachable sys →
      Relation.Acyclic (Observes sys) ∧ WellFounded (Function.swap (Observes sys))) ∧
    (∀ sys k id flags mask data rd ep, id ∉ (sys.polls k).files → id.file = .eventPoll ep →
      Relation.ReflTransGen (Observes sys) ep k →
      sys.addEntry k id flags mask data rd = .error .EINVAL ∨
        sys.addEntry k id flags mask data rd = .error .ELOOP) ∧
    (∀ sys k id flags mask data rd e' ep, sys.addEntry k id flags mask data rd = .ok e' →
      id.file = .eventPoll ep → ¬ ∃ c, Relation.Path (Observes sys) 4 ep c) ∧
    (∀ sys, Reachable sys → ∀ k max rd,
      ((sys.polls k).readEvents max rd).2.length ≤ max.toNat ∧
      ∀ p ∈ ((sys.polls k).readEventsWith max rd).2, p.1 ∈ (sys.polls k).list .ready ∧
        Fires rd p.1 ((sys.polls k).entry p.1) ∧ p.2 = event rd p.1 ((sys.polls k).entry p.1)) ∧
    (∀ sys sys' k id max rd, Reachable sys →
      ((sys.polls k).entry id).flags &&& oneShot ≠ 0 →
      id ∈ sys.reported k max rd →
      RunOf (fun k' _ op => k' = k → ¬ op.Rearms id) (sys.step k rd (.readEvents max)) sys' →
      ∀ max' rd', id ∉ sys'.reported k max' rd') ∧
    (∀ sys sys' k id max rd, Reachable sys → ((sys.polls k).entry id).flags &&& oneShot = 0 →
      ((sys.polls k).entry id).flags &&& edgeTriggered ≠ 0 → id ∈ sys.reported k max rd →
      RunOf (fun k' _ op => k' = k → ¬ op.Rearms id ∧ op ≠ .callback id)
        (sys.step k rd (.readEvents max)) sys' →
      ∀ max' rd', id ∉ sys'.reported k max' rd') ∧
    (∀ sys sys' k id en, Reachable sys → (sys.polls k).entry id = en →
      en.curList = some .ready → Level en →
      RunOf (fun k' rd op => k' = k → ¬ op.Rearms id ∧ Fires rd id en) sys sys' →
      ((sys'.polls k).entry id).curList = some .ready ∧
      ∀ max rd, Fires rd id en →
        (((sys'.polls k).readEventsWith max rd).2.length : ℤ) < max →
        id ∈ sys'.reported k max rd) ∧
    (∀ n, Reachable (chain n) ∧ Relation.Path (Observes (chain n)) n 0 n) := by
  refine ⟨fun sys hs k id => ⟨(hs.inv k).exactly_one, (hs.inv k).not_mem_list⟩,
    fun sys hs => ⟨hs.acyclic, hs.wellFounded⟩,
    fun _ _ _ _ _ _ _ _ hid hf hr => addEntry_of_reflTransGen hid hf hr,
    fun _ _ _ _ _ _ _ _ _ h hf => addEntry_no_path_four h hf,
    fun sys hs k max rd => ⟨?_, fun p hp => readEventsWith_mem (hs.inv k) hp⟩,
    fun _ _ _ _ _ _ hs hos hrep hrun => oneShot_not_reported_again hs hos hrep hrun,
    fun _ _ _ _ _ _ hs hos het hrep hrun =>
      edgeTriggered_not_reported_before_callback hs hos het hrep hrun,
    fun _ _ _ _ _ hs hen hc hl hrun => level_reported_while_ready hs hen hc hl hrun,
    fun n => ⟨chain_reachable n, chain_path n⟩⟩
  simpa [readEvents] using readEventsWith_length_le (hs.inv k) max rd

theorem addEntry_nests_beyond_depth_four_chain :
    Relation.Acyclic (Observes (chain 5)) ∧ Relation.Path (Observes (chain 5)) 5 0 5 :=
  ⟨(addEntry_nests_beyond_depth_four.2.1 (chain 5) (chain_reachable 5)).1,
    (addEntry_nests_beyond_depth_four.2.2.2.2.2.2.2.2 5).2⟩

end System

end Epoll
