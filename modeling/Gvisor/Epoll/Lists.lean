import Gvisor.Epoll.EventPoll
import Mathlib.Data.List.Nodup

/-! The three lists of an event poll. `Inv` says that each list holds an entry
at most once, that an entry is on exactly the list its `curList` names, and
that the entries with a list are those of `files`. Every operation keeps it:
each is built from taking an entry off its list (`Detached`, the invariant
with that entry on no list) and pushing it to the back of one.

The loops of `eventsAvailable` and `ReadEvents` visit a prefix of the ready
list. Each entry visited ends on the list `fate` names, with its other fields
unchanged, and `ReadEvents` reports the visited entries whose file is ready.
During `ReadEvents` the level-triggered entries wait on the local list; seen
with that list put back (`withLocal`), each visit is one `move`. -/

namespace Epoll

namespace EventPoll

variable {e e' : EventPoll} {id x : FileIdentifier} {j k : ListKind} {en : PollEntry}
  {f : List FileIdentifier → List FileIdentifier} {rd : Readiness}

section Fields

theorem list_modifyList : (e.modifyList k f).list j = if j = k then f (e.list j) else e.list j := by
  cases k <;> cases j <;> rfl

@[simp] theorem files_modifyList : (e.modifyList k f).files = e.files := by cases k <;> rfl

@[simp] theorem entry_modifyList : (e.modifyList k f).entry = e.entry := by cases k <;> rfl

@[simp] theorem list_setEntry : (e.setEntry id en).list k = e.list k := by cases k <;> rfl

@[simp] theorem files_setEntry : (e.setEntry id en).files = e.files := rfl

@[simp] theorem entry_setEntry : (e.setEntry id en).entry = Function.update e.entry id en := rfl

@[simp] theorem list_removeFrom :
    (e.removeFrom k id).list j = if j = k then (e.list j).erase id else e.list j :=
  list_modifyList

@[simp] theorem files_removeFrom : (e.removeFrom k id).files = e.files := files_modifyList

@[simp] theorem entry_removeFrom : (e.removeFrom k id).entry = e.entry := entry_modifyList

@[simp] theorem list_pushBack :
    (e.pushBack k id).list j = if j = k then e.list j ++ [id] else e.list j := by
  simp [pushBack, list_modifyList]

@[simp] theorem files_pushBack : (e.pushBack k id).files = e.files := by simp [pushBack]

@[simp] theorem entry_pushBack :
    (e.pushBack k id).entry = Function.update e.entry id { e.entry id with curList := some k } := by
  simp [pushBack]

@[simp] theorem list_with_files (l : List FileIdentifier) :
    ({ e with files := l } : EventPoll).list k = e.list k := by
  cases k <;> rfl

/-- The poll with `localList` put back at the end of its ready list, as
`ReadEvents` does when its loop ends. -/
def withLocal (e : EventPoll) (localList : List FileIdentifier) : EventPoll :=
  { e with readyList := e.readyList ++ localList }

@[simp] theorem list_withLocal (localList : List FileIdentifier) :
    (e.withLocal localList).list k =
      if k = .ready then e.list .ready ++ localList else e.list k := by
  cases k <;> rfl

@[simp] theorem files_withLocal (localList : List FileIdentifier) :
    (e.withLocal localList).files = e.files := rfl

@[simp] theorem entry_withLocal (localList : List FileIdentifier) :
    (e.withLocal localList).entry = e.entry := rfl

@[simp] theorem withLocal_nil : e.withLocal [] = e := by simp [withLocal]

theorem list_move_ready (hr : e.list .ready = id :: l) (hj : j ≠ .ready) :
    (e.move id .ready j).list .ready = l := by
  simp [move, hr, Ne.symm hj]

/-- A visit that moves the front entry off the ready list is one `move` of the
poll with its local list put back. -/
theorem withLocal_move (hr : e.list .ready = id :: l) (hj : j ≠ .ready)
    (localList : List FileIdentifier) :
    (e.move id .ready j).withLocal localList = (e.withLocal localList).move id .ready j := by
  obtain ⟨files, entry, readyList, waitingList, disabledList⟩ := e
  change readyList = id :: l at hr
  subst hr
  cases j <;> simp_all [move, removeFrom, pushBack, modifyList, setEntry, withLocal]

/-- A level-triggered visit sends the front entry to the local list: the poll
with that list put back has the entry moved to the back of its ready list. -/
theorem withLocal_removeFrom (hr : e.list .ready = id :: l)
    (hc : (e.entry id).curList = some .ready) (localList : List FileIdentifier) :
    (e.removeFrom .ready id).withLocal (localList ++ [id]) =
      (e.withLocal localList).move id .ready .ready := by
  have hen : { e.entry id with curList := some .ready } = e.entry id := by rw [← hc]
  obtain ⟨files, entry, readyList, waitingList, disabledList⟩ := e
  change readyList = id :: l at hr
  subst hr
  simp only at hen
  simp [move, removeFrom, pushBack, modifyList, setEntry, withLocal, hen]

end Fields

/-- The lists of an event poll: each holds an entry once, an entry is on the
list its `curList` names, and the entries with a list are those of `files`. -/
structure Inv (e : EventPoll) : Prop where
  files_nodup : e.files.Nodup
  list_nodup : ∀ k, (e.list k).Nodup
  mem_list : ∀ k x, x ∈ e.list k ↔ (e.entry x).curList = some k
  mem_files : ∀ x, x ∈ e.files ↔ (e.entry x).curList.isSome

/-- `Inv` with the entry `id` taken off every list, its `curList` not yet
set. -/
structure Detached (e : EventPoll) (id : FileIdentifier) : Prop where
  files_nodup : e.files.Nodup
  list_nodup : ∀ k, (e.list k).Nodup
  mem_list : ∀ k x, x ≠ id → (x ∈ e.list k ↔ (e.entry x).curList = some k)
  mem_files : ∀ x, x ≠ id → (x ∈ e.files ↔ (e.entry x).curList.isSome)
  not_mem : ∀ k, id ∉ e.list k

theorem newEventPoll_inv : Inv newEventPoll where
  files_nodup := List.nodup_nil
  list_nodup k := by cases k <;> exact List.nodup_nil
  mem_list k x := by cases k <;> simp [newEventPoll, newPollEntry, list]
  mem_files x := by simp [newEventPoll, newPollEntry]

namespace Inv

theorem curList_of_mem (h : Inv e) (hx : x ∈ e.list k) : (e.entry x).curList = some k :=
  (h.mem_list k x).1 hx

theorem mem_files_of_curList (h : Inv e) (hc : (e.entry x).curList = some k) : x ∈ e.files :=
  (h.mem_files x).2 (by simp [hc])

theorem curList_of_not_mem_files (h : Inv e) (hx : x ∉ e.files) : (e.entry x).curList = none := by
  simpa using (h.mem_files x).not.1 hx

theorem detached (h : Inv e) (hc : (e.entry id).curList = none) : Detached e id where
  files_nodup := h.files_nodup
  list_nodup := h.list_nodup
  mem_list k x _ := h.mem_list k x
  mem_files x _ := h.mem_files x
  not_mem k := by simp [h.mem_list, hc]

/-- `list.Remove(entry)` on the list the entry is on. -/
theorem removeFrom (h : Inv e) (hc : (e.entry id).curList = some k) :
    Detached (e.removeFrom k id) id where
  files_nodup := by simpa using h.files_nodup
  list_nodup j := by
    rw [list_removeFrom]
    split_ifs
    · exact (h.list_nodup j).erase id
    · exact h.list_nodup j
  mem_list j x hx := by
    rw [list_removeFrom, entry_removeFrom]
    split_ifs
    · rw [(h.list_nodup j).mem_erase_iff]
      simp [hx, h.mem_list]
    · exact h.mem_list j x
  mem_files x _ := by simpa using h.mem_files x
  not_mem j := by
    rw [list_removeFrom]
    split_ifs with hj
    · simp [(h.list_nodup j).mem_erase_iff]
    · simpa [h.mem_list, hc] using Ne.symm hj

/-- An entry of `files` is on exactly one list, the one its `curList` names. -/
theorem exactly_one (h : Inv e) (hid : id ∈ e.files) :
    ∃ k, (e.entry id).curList = some k ∧ ∀ j, id ∈ e.list j ↔ j = k := by
  obtain ⟨k, hk⟩ := Option.isSome_iff_exists.1 ((h.mem_files id).1 hid)
  exact ⟨k, hk, fun j => by rw [h.mem_list, hk, Option.some_inj, eq_comm]⟩

/-- An entry not in `files` is on no list, and its `curList` is nil. -/
theorem not_mem_list (h : Inv e) (hid : id ∉ e.files) :
    (e.entry id).curList = none ∧ ∀ j, id ∉ e.list j := by
  have hc := h.curList_of_not_mem_files hid
  exact ⟨hc, fun j => by simp [h.mem_list, hc]⟩

end Inv

namespace Detached

theorem setEntry (h : Detached e id) (en : PollEntry) : Detached (e.setEntry id en) id where
  files_nodup := h.files_nodup
  list_nodup k := by simpa using h.list_nodup k
  mem_list k x hx := by simpa [Function.update_of_ne hx] using h.mem_list k x hx
  mem_files x hx := by simpa [Function.update_of_ne hx] using h.mem_files x hx
  not_mem k := by simpa using h.not_mem k

theorem appendFile (h : Detached e id) (hid : id ∉ e.files) :
    Detached { e with files := e.files ++ [id] } id where
  files_nodup := h.files_nodup.append (List.nodup_singleton id) (by simpa using hid)
  list_nodup k := by simpa using h.list_nodup k
  mem_list k x hx := by simpa using h.mem_list k x hx
  mem_files x hx := by simpa [hx] using h.mem_files x hx
  not_mem k := by simpa using h.not_mem k

theorem eraseFile (h : Detached e id) : Detached { e with files := e.files.erase id } id where
  files_nodup := h.files_nodup.erase id
  list_nodup k := by simpa using h.list_nodup k
  mem_list k x hx := by simpa using h.mem_list k x hx
  mem_files x hx := by
    rw [h.files_nodup.mem_erase_iff]
    simpa [hx] using h.mem_files x hx
  not_mem k := by simpa using h.not_mem k

/-- `list.PushBack(entry); entry.curList = &list` puts a detached entry back. -/
theorem pushBack (h : Detached e id) (hid : id ∈ e.files) : Inv (e.pushBack k id) where
  files_nodup := by simpa using h.files_nodup
  list_nodup j := by
    rw [list_pushBack]
    split_ifs
    · exact (h.list_nodup j).append (List.nodup_singleton id) (by simpa using h.not_mem j)
    · exact h.list_nodup j
  mem_list j x := by
    rw [list_pushBack, entry_pushBack]
    by_cases hx : x = id
    · subst hx
      split_ifs with hj
      · simp [hj]
      · simpa [h.not_mem j] using Ne.symm hj
    · rw [Function.update_of_ne hx, ← h.mem_list j x hx]
      split_ifs with hj
      · simp [hj, hx]
      · rfl
  mem_files x := by
    by_cases hx : x = id
    · subst hx
      simp [hid]
    · simpa [Function.update_of_ne hx] using h.mem_files x hx

/-- An entry off every list, out of `files` and with no `curList`, is gone. -/
theorem inv (h : Detached e id) (hid : id ∉ e.files) (hc : (e.entry id).curList = none) :
    Inv e where
  files_nodup := h.files_nodup
  list_nodup := h.list_nodup
  mem_list k x := by
    by_cases hx : x = id
    · subst hx
      simp [hc, h.not_mem k]
    · exact h.mem_list k x hx
  mem_files x := by
    by_cases hx : x = id
    · subst hx
      simp [hc, hid]
    · exact h.mem_files x hx

end Detached

section Operations

variable {flags : EntryFlags} {mask : EventMask} {data : Int32 × Int32}

theorem Inv.move (h : Inv e) (hc : (e.entry id).curList = some k) (j : ListKind) :
    Inv (e.move id k j) :=
  (h.removeFrom hc).pushBack (by simpa using h.mem_files_of_curList hc)

theorem Inv.callback (h : Inv e) : Inv (e.callback id) := by
  unfold EventPoll.callback
  split_ifs with hc
  · exact h.move hc .ready
  · exact h

theorem Detached.initEntryReadiness (h : Detached e id) (hid : id ∈ e.files) :
    Inv (e.initEntryReadiness id rd) := by
  unfold EventPoll.initEntryReadiness
  dsimp only
  split_ifs
  · exact (h.pushBack hid).callback
  · exact h.pushBack hid

theorem Inv.insertEntry (h : Inv e) (hid : id ∉ e.files) :
    Inv (e.insertEntry id flags mask data rd) :=
  (((h.detached (h.curList_of_not_mem_files hid)).appendFile hid).setEntry _).initEntryReadiness
    (by simp)

/-- An entry of `files` is on the list its `curList` names. -/
theorem Inv.exists_curList (h : Inv e) (hid : id ∈ e.files) :
    ∃ k, (e.entry id).curList = some k :=
  Option.isSome_iff_exists.1 ((h.mem_files id).1 hid)

theorem Inv.updateEntry (h : Inv e) (hu : e.updateEntry id flags mask data rd = .ok e') :
    Inv e' := by
  unfold EventPoll.updateEntry at hu
  split_ifs at hu with hid
  obtain ⟨k, hk⟩ := h.exists_curList hid
  dsimp only at hu
  simp only [hk, Except.ok.injEq] at hu
  subst hu
  exact ((h.removeFrom hk).setEntry _).initEntryReadiness (by simpa using hid)

theorem Inv.removeEntry (h : Inv e) (hu : e.removeEntry id = .ok e') : Inv e' := by
  unfold EventPoll.removeEntry at hu
  split_ifs at hu with hid
  obtain ⟨k, hk⟩ := h.exists_curList hid
  dsimp only at hu
  simp only [hk, Except.ok.injEq] at hu
  subst hu
  have hd := (h.removeFrom hk).setEntry { e.entry id with curList := none }
  exact hd.eraseFile.inv (by simp [h.files_nodup.mem_erase_iff]) (by simp)

end Operations

section Loops

variable {l rest visited localList : List FileIdentifier} {max : ℤ}
  {ret : List (FileIdentifier × Event)}

/-- An entry's file is ready for the events its mask asks. -/
def Fires (rd : Readiness) (x : FileIdentifier) (en : PollEntry) : Prop :=
  rd x en.mask &&& en.mask ≠ 0

/-- The event `ReadEvents` reports for an entry. -/
def event (rd : Readiness) (x : FileIdentifier) (en : PollEntry) : Event :=
  ⟨(rd x en.mask &&& en.mask).toUInt32, en.userData⟩

/-- What a visit of `ReadEvents` reports for an entry: its event, if its file
is ready. -/
def fired (rd : Readiness) (x : FileIdentifier) (en : PollEntry) :
    List (FileIdentifier × Event) :=
  if rd x en.mask &&& en.mask = 0 then [] else [(x, event rd x en)]

/-- The list an entry visited by `ReadEvents` ends on: the waiting list when
its file is not ready, and after its event the disabled list when it is
one-shot, the waiting list when it is edge-triggered, the ready list when it
is level-triggered. -/
def fate (rd : Readiness) (x : FileIdentifier) (en : PollEntry) : ListKind :=
  if rd x en.mask &&& en.mask = 0 then .waiting
  else if en.flags &&& oneShot ≠ 0 then .disabled
  else if en.flags &&& edgeTriggered ≠ 0 then .waiting
  else .ready

theorem mem_fired {p : FileIdentifier × Event} :
    p ∈ fired rd x en ↔ Fires rd x en ∧ p = (x, event rd x en) := by
  unfold fired Fires
  split_ifs <;> simp_all

theorem eventsAvailableLoop_cons (id : FileIdentifier) :
    eventsAvailableLoop rd e (id :: rest) =
      if rd id (e.entry id).mask ≠ 0 then (e, true)
      else eventsAvailableLoop rd (e.move id .ready .waiting) rest := rfl

/-- `eventsAvailable` moves a prefix of the ready list, of entries whose file
is not ready, to the waiting list. -/
theorem eventsAvailableLoop_spec (hl : e.list .ready = l) (hnd : l.Nodup) :
    ∃ visited ⊆ l, (∀ x ∈ visited, rd x (e.entry x).mask = 0) ∧
      ∀ x, (eventsAvailableLoop rd e l).1.entry x =
        if x ∈ visited then { e.entry x with curList := some .waiting } else e.entry x := by
  induction l generalizing e with
  | nil => exact ⟨[], by simp, by simp, by simp [eventsAvailableLoop]⟩
  | cons id rest ih =>
    rw [eventsAvailableLoop_cons]
    split_ifs with hrd
    · exact ⟨[], by simp, by simp, by simp⟩
    · obtain ⟨hid, hnd'⟩ := List.nodup_cons.1 hnd
      obtain ⟨v, hv, hz, he⟩ := ih (list_move_ready (j := .waiting) hl (by decide)) hnd'
      have hmove : ∀ x ∈ v, (e.move id .ready .waiting).entry x = e.entry x := fun x hx =>
        Function.update_of_ne (by rintro rfl; exact hid (hv hx)) _ _
      refine ⟨id :: v, List.cons_subset_cons id hv, ?_, fun x => ?_⟩
      · rintro x (_ | ⟨_, hx⟩)
        · exact not_not.1 hrd
        · simpa [hmove x hx] using hz x hx
      · rw [he x]
        by_cases hx : x ∈ v
        · simp [hx, hmove x hx]
        · by_cases hxid : x = id
          · subst hxid
            simp [move, hx]
          · simp [move, hx, hxid]

theorem Inv.eventsAvailableLoop (h : Inv e) (hl : e.list .ready = l) :
    Inv (eventsAvailableLoop rd e l).1 := by
  induction l generalizing e with
  | nil => exact h
  | cons id rest ih =>
    rw [eventsAvailableLoop_cons]
    split_ifs
    · exact h
    · exact ih (h.move (h.curList_of_mem (hl ▸ List.mem_cons_self)) .waiting)
        (list_move_ready (j := .waiting) hl (by decide))

theorem Inv.readiness (h : Inv e) (mask : EventMask) : Inv (e.readiness mask rd).1 := by
  unfold EventPoll.readiness eventsAvailable
  split_ifs
  · exact h.eventsAvailableLoop rfl
  · exact h

/-- `Readiness` changes only entries of the ready list whose file is not
ready, and only their `curList`. -/
theorem readiness_entry (h : Inv e) (rd : Readiness) (mask : EventMask) :
    ∃ visited ⊆ e.list .ready, (∀ x ∈ visited, rd x (e.entry x).mask = 0) ∧
      ∀ x, (e.readiness mask rd).1.entry x =
        if x ∈ visited then { e.entry x with curList := some .waiting } else e.entry x := by
  unfold EventPoll.readiness eventsAvailable
  split_ifs
  · exact eventsAvailableLoop_spec rfl (h.list_nodup .ready)
  · exact ⟨[], by simp, by simp, by simp⟩

/-- One visit of the loop of `ReadEvents`, to the entry at the front of the
ready list: what it reports, and, seen with the local list put back, one
`move` of that entry to the list `fate` names. -/
theorem readLoop_cons (rd : Readiness) (localList : List FileIdentifier)
    (hr : e.list .ready = id :: rest) (hc : (e.entry id).curList = some .ready)
    (hlt : (ret.length : ℤ) < max) :
    ∃ e₁ localList₁, readLoop rd max e (id :: rest) localList ret =
        readLoop rd max e₁ rest localList₁ (ret ++ fired rd id (e.entry id)) ∧
      e₁.list .ready = rest ∧
      e₁.withLocal localList₁ =
        (e.withLocal localList).move id .ready (fate rd id (e.entry id)) := by
  rw [readLoop, if_pos hlt]
  dsimp only
  split_ifs with h0 h1 h2
  · exact ⟨e.move id .ready .waiting, localList, by simp [fired, h0],
      list_move_ready hr (by decide),
      by simpa [fate, h0] using withLocal_move hr (by decide) localList⟩
  · exact ⟨e.move id .ready .disabled, localList, by simp [fired, h0, event, move],
      list_move_ready hr (by decide),
      by simpa [fate, h0, h1] using withLocal_move hr (by decide) localList⟩
  · exact ⟨e.move id .ready .waiting, localList, by simp [fired, h0, event, move],
      list_move_ready hr (by decide),
      by simpa [fate, h0, h1, h2] using withLocal_move hr (by decide) localList⟩
  · exact ⟨e.removeFrom .ready id, localList ++ [id], by simp [fired, h0, event], by simp [hr],
      by simpa [fate, h0, h1, h2] using withLocal_removeFrom hr hc localList⟩

/-- The loop of `ReadEvents` keeps `Inv` of the poll with its local list put
back. -/
theorem Inv.readLoop (h : Inv (e.withLocal localList)) (hl : e.list .ready = l) :
    Inv ((readLoop rd max e l localList ret).1.withLocal
      (readLoop rd max e l localList ret).2.1) := by
  induction l generalizing e localList ret with
  | nil => simpa [EventPoll.readLoop] using h
  | cons id rest ih =>
    have hc : (e.entry id).curList = some .ready := by
      simpa using h.curList_of_mem (k := .ready) (x := id) (by simp [hl])
    by_cases hlt : (ret.length : ℤ) < max
    · obtain ⟨e₁, localList₁, heq, hr₁, hv⟩ := readLoop_cons rd localList hl hc hlt
      rw [heq]
      exact ih (hv ▸ h.move (by simpa using hc) _) hr₁
    · simpa [EventPoll.readLoop, hlt] using h

/-- The loop of `ReadEvents` visits a prefix of the ready list, stopped only
by `max`; it reports the visited entries whose file is ready, and each visited
entry ends on the list `fate` names. -/
theorem readLoop_spec (rd : Readiness) (max : ℤ) (hl : e.list .ready = l) (hnd : l.Nodup)
    (hc : ∀ x ∈ l, (e.entry x).curList = some .ready) (localList : List FileIdentifier)
    (ret : List (FileIdentifier × Event)) :
    ∃ visited rest, l = visited ++ rest ∧
      (readLoop rd max e l localList ret).2.2 =
        ret ++ visited.flatMap (fun x => fired rd x (e.entry x)) ∧
      (rest ≠ [] → max ≤ ((readLoop rd max e l localList ret).2.2.length : ℤ)) ∧
      (((readLoop rd max e l localList ret).2.2.length : ℤ) ≤ max ∨
        (readLoop rd max e l localList ret).2.2 = ret) ∧
      ∀ x, (readLoop rd max e l localList ret).1.entry x =
        if x ∈ visited then { e.entry x with curList := some (fate rd x (e.entry x)) }
        else e.entry x := by
  induction l generalizing e localList ret with
  | nil => exact ⟨[], [], by simp, by simp [EventPoll.readLoop], by simp,
      .inr (by simp [EventPoll.readLoop]), by simp [EventPoll.readLoop]⟩
  | cons id rest ih =>
    by_cases hlt : (ret.length : ℤ) < max
    · obtain ⟨hid, hnd'⟩ := List.nodup_cons.1 hnd
      obtain ⟨e₁, localList₁, heq, hr₁, hv⟩ :=
        readLoop_cons rd localList hl (hc id List.mem_cons_self) hlt
      have he₁ : e₁.entry = Function.update e.entry id
          { e.entry id with curList := some (fate rd id (e.entry id)) } := by
        simpa [move] using congrArg EventPoll.entry hv
      have hrest : ∀ x ∈ rest, e₁.entry x = e.entry x := fun x hx => by
        rw [he₁, Function.update_of_ne (by rintro rfl; exact hid hx)]
      obtain ⟨v, r, hsplit, hret, hstop, hlen, hent⟩ := ih hr₁ hnd'
        (fun x hx => (hrest x hx).symm ▸ hc x (List.mem_cons_of_mem _ hx))
        localList₁ (ret ++ fired rd id (e.entry id))
      have hv' : ∀ x ∈ v, e₁.entry x = e.entry x := fun x hx =>
        hrest x (hsplit ▸ List.mem_append_left _ hx)
      rw [heq]
      refine ⟨id :: v, r, by simp [hsplit], ?_, hstop, ?_, fun x => ?_⟩
      · rw [hret, List.flatMap_cons, List.append_assoc,
          List.flatMap_congr (fun x hx => by rw [hv' x hx])]
      · rcases hlen with hlen | hlen
        · exact .inl hlen
        · left
          rw [hlen, List.length_append]
          unfold fired
          split_ifs <;> simp <;> omega
      · rw [hent x]
        by_cases hx : x ∈ v
        · simp [hx, hv' x hx]
        · have hx' : x ∈ id :: v ↔ x = id := by simp [hx]
          rw [if_neg hx, if_congr hx' rfl rfl, he₁]
          by_cases hxid : x = id
          · subst hxid
            simp
          · simp [hxid]
    · exact ⟨[], id :: rest, by simp, by simp [EventPoll.readLoop, hlt],
        fun _ => by simp [EventPoll.readLoop, hlt]; omega,
        .inr (by simp [EventPoll.readLoop, hlt]), by simp [EventPoll.readLoop, hlt]⟩

theorem readEventsWith_eq :
    e.readEventsWith max rd =
      ((readLoop rd max e (e.list .ready) [] []).1.withLocal
        (readLoop rd max e (e.list .ready) [] []).2.1,
        (readLoop rd max e (e.list .ready) [] []).2.2) := rfl

theorem Inv.readEventsWith (h : Inv e) : Inv (e.readEventsWith max rd).1 := by
  rw [readEventsWith_eq]
  exact Inv.readLoop (by simpa using h) rfl

/-- `ReadEvents` visits a prefix of the ready list, stopped only by `max`, and
reports at most `max` events: one for each visited entry whose file is
ready. -/
theorem readEventsWith_spec (h : Inv e) (max : ℤ) (rd : Readiness) :
    ∃ visited rest, e.list .ready = visited ++ rest ∧
      (e.readEventsWith max rd).2 = visited.flatMap (fun x => fired rd x (e.entry x)) ∧
      (rest ≠ [] → max ≤ ((e.readEventsWith max rd).2.length : ℤ)) ∧
      (e.readEventsWith max rd).2.length ≤ max.toNat ∧
      ∀ x, (e.readEventsWith max rd).1.entry x =
        if x ∈ visited then { e.entry x with curList := some (fate rd x (e.entry x)) }
        else e.entry x := by
  obtain ⟨v, r, hsplit, hret, hstop, hlen, hent⟩ := readLoop_spec rd max rfl
    (h.list_nodup .ready) (fun x hx => h.curList_of_mem hx) [] []
  rw [readEventsWith_eq]
  refine ⟨v, r, hsplit, by simpa using hret, hstop, ?_, by simpa using hent⟩
  dsimp only
  rcases hlen with hlen | hlen
  · omega
  · simp [hlen]

end Loops

section Entries

variable {flags : EntryFlags} {mask : EventMask} {data : Int32 × Int32} {max : ℤ}
  {p : FileIdentifier × Event}

/-! Each operation changes the entry it is called on, and `ReadEvents` and
`Readiness` change only entries of the ready list. -/

theorem move_entry_of_ne (hx : x ≠ id) (src dst : ListKind) :
    (e.move id src dst).entry x = e.entry x := by
  simp [move, hx]

theorem callback_of_ne_waiting (h : (e.entry id).curList ≠ some .waiting) : e.callback id = e :=
  if_neg h

theorem callback_entry_of_ne (hx : x ≠ id) : (e.callback id).entry x = e.entry x := by
  unfold callback
  split_ifs
  · exact move_entry_of_ne hx _ _
  · rfl

theorem initEntryReadiness_entry_of_ne (hx : x ≠ id) :
    (e.initEntryReadiness id rd).entry x = e.entry x := by
  unfold initEntryReadiness
  dsimp only
  split_ifs <;> simp [callback_entry_of_ne hx, hx]

theorem insertEntry_entry_of_ne (hx : x ≠ id) :
    (e.insertEntry id flags mask data rd).entry x = e.entry x := by
  simp [insertEntry, initEntryReadiness_entry_of_ne hx, hx]

theorem updateEntry_entry_of_ne (hx : x ≠ id)
    (hu : e.updateEntry id flags mask data rd = .ok e') : e'.entry x = e.entry x := by
  unfold updateEntry at hu
  split_ifs at hu
  dsimp only at hu
  rw [Except.ok.injEq] at hu
  subst hu
  rw [initEntryReadiness_entry_of_ne hx]
  split <;> simp [hx]

theorem removeEntry_entry_of_ne (hx : x ≠ id) (hu : e.removeEntry id = .ok e') :
    e'.entry x = e.entry x := by
  unfold removeEntry at hu
  split_ifs at hu
  dsimp only at hu
  rw [Except.ok.injEq] at hu
  subst hu
  split <;> simp [hx]

/-- A level-triggered entry: neither one-shot nor edge-triggered. -/
def Level (en : PollEntry) : Prop :=
  en.flags &&& oneShot = 0 ∧ en.flags &&& edgeTriggered = 0

theorem fate_of_oneShot (hf : Fires rd x en) (h : en.flags &&& oneShot ≠ 0) :
    fate rd x en = .disabled := by
  simp_all [fate, Fires]

theorem fate_of_edgeTriggered (hf : Fires rd x en) (h₁ : en.flags &&& oneShot = 0)
    (h₂ : en.flags &&& edgeTriggered ≠ 0) : fate rd x en = .waiting := by
  simp_all [fate, Fires]

theorem fate_of_level (hf : Fires rd x en) (h : Level en) : fate rd x en = .ready := by
  simp_all [fate, Fires, Level]

theorem readEventsWith_length_le (h : Inv e) (max : ℤ) (rd : Readiness) :
    (e.readEventsWith max rd).2.length ≤ max.toNat := by
  obtain ⟨_, _, _, _, _, hlen, _⟩ := readEventsWith_spec h max rd
  exact hlen

/-- Each event `ReadEvents` returns is the event of an entry of the ready list
whose file is ready. -/
theorem readEventsWith_mem (h : Inv e) (hp : p ∈ (e.readEventsWith max rd).2) :
    p.1 ∈ e.list .ready ∧ Fires rd p.1 (e.entry p.1) ∧ p.2 = event rd p.1 (e.entry p.1) := by
  obtain ⟨v, r, hsplit, hret, -⟩ := readEventsWith_spec h max rd
  rw [hret, List.mem_flatMap] at hp
  obtain ⟨y, hy, hpy⟩ := hp
  obtain ⟨hf, rfl⟩ := mem_fired.1 hpy
  exact ⟨hsplit ▸ List.mem_append_left _ hy, hf, rfl⟩

theorem readEventsWith_entry_of_not_mem (h : Inv e) (hx : x ∉ e.list .ready) :
    (e.readEventsWith max rd).1.entry x = e.entry x := by
  obtain ⟨v, r, hsplit, -, -, -, hent⟩ := readEventsWith_spec h max rd
  have hxv : x ∉ v := fun hv => hx (hsplit ▸ List.mem_append_left _ hv)
  simp [hent, hxv]

/-- An entry reported by `ReadEvents` ends on the list `fate` names. -/
theorem readEventsWith_entry_of_reported (h : Inv e)
    (hx : x ∈ (e.readEventsWith max rd).2.map Prod.fst) :
    (e.readEventsWith max rd).1.entry x =
      { e.entry x with curList := some (fate rd x (e.entry x)) } := by
  obtain ⟨v, r, -, hret, -, -, hent⟩ := readEventsWith_spec h max rd
  obtain ⟨p, hp, rfl⟩ := List.mem_map.1 hx
  rw [hret, List.mem_flatMap] at hp
  obtain ⟨y, hy, hpy⟩ := hp
  obtain ⟨-, rfl⟩ := mem_fired.1 hpy
  simp [hent, hy]

/-- A `ReadEvents` that returns fewer than `max` events visited the whole
ready list, so it reports every entry of it whose file is ready. -/
theorem readEventsWith_reported_of_lt (h : Inv e)
    (hlt : ((e.readEventsWith max rd).2.length : ℤ) < max) (hx : x ∈ e.list .ready)
    (hf : Fires rd x (e.entry x)) : x ∈ (e.readEventsWith max rd).2.map Prod.fst := by
  obtain ⟨v, r, hsplit, hret, hstop, -⟩ := readEventsWith_spec h max rd
  have hr : r = [] := by
    by_contra hr
    have := hstop hr
    omega
  rw [hsplit, hr, List.append_nil] at hx
  rw [hret]
  exact List.mem_map.2 ⟨(x, event rd x (e.entry x)),
    List.mem_flatMap.2 ⟨x, hx, mem_fired.2 ⟨hf, rfl⟩⟩, rfl⟩

/-- A level-triggered entry of the ready list whose file is ready stays on the
ready list through `ReadEvents`, unchanged. -/
theorem readEventsWith_entry_of_level (h : Inv e) (hx : x ∈ e.list .ready)
    (hf : Fires rd x (e.entry x)) (hl : Level (e.entry x)) :
    (e.readEventsWith max rd).1.entry x = e.entry x := by
  obtain ⟨v, r, -, -, -, -, hent⟩ := readEventsWith_spec h max rd
  have hc := h.curList_of_mem hx
  rw [hent, fate_of_level hf hl, ← hc]
  split_ifs <;> rfl

theorem readiness_entry_of_not_mem (h : Inv e) (mask : EventMask) (hx : x ∉ e.list .ready) :
    (e.readiness mask rd).1.entry x = e.entry x := by
  obtain ⟨v, hv, -, hent⟩ := readiness_entry h rd mask
  have hxv : x ∉ v := fun hxv => hx (hv hxv)
  simp [hent, hxv]

/-- `Readiness` leaves an entry whose file is ready where it is. -/
theorem readiness_entry_of_ne_zero (h : Inv e) (mask : EventMask)
    (hx : rd x (e.entry x).mask ≠ 0) : (e.readiness mask rd).1.entry x = e.entry x := by
  obtain ⟨v, -, hz, hent⟩ := readiness_entry h rd mask
  have hxv : x ∉ v := fun hxv => hx (hz x hxv)
  simp [hent, hxv]

end Entries

section Files

variable {flags : EntryFlags} {mask : EventMask} {data : Int32 × Int32} {max : ℤ}
  {l localList : List FileIdentifier} {ret : List (FileIdentifier × Event)}

/-! Only `AddEntry` and `RemoveEntry` change the files of a poll. -/

@[simp] theorem files_move (src dst : ListKind) : (e.move id src dst).files = e.files := by
  simp [move]

@[simp] theorem files_callback : (e.callback id).files = e.files := by
  unfold callback
  split_ifs <;> simp

@[simp] theorem files_initEntryReadiness : (e.initEntryReadiness id rd).files = e.files := by
  unfold initEntryReadiness
  dsimp only
  split_ifs <;> simp

@[simp] theorem files_insertEntry :
    (e.insertEntry id flags mask data rd).files = e.files ++ [id] := by
  simp [insertEntry]

theorem files_updateEntry (hu : e.updateEntry id flags mask data rd = .ok e') :
    e'.files = e.files := by
  unfold updateEntry at hu
  split_ifs at hu
  dsimp only at hu
  rw [Except.ok.injEq] at hu
  subst hu
  split <;> simp

theorem files_removeEntry (hu : e.removeEntry id = .ok e') : e'.files = e.files.erase id := by
  unfold removeEntry at hu
  split_ifs at hu
  dsimp only at hu
  rw [Except.ok.injEq] at hu
  subst hu
  split <;> simp

@[simp] theorem files_eventsAvailableLoop : (eventsAvailableLoop rd e l).1.files = e.files := by
  induction l generalizing e with
  | nil => rfl
  | cons id rest ih =>
    rw [eventsAvailableLoop_cons]
    split_ifs
    · rfl
    · simp [ih]

@[simp] theorem files_readiness (mask : EventMask) : (e.readiness mask rd).1.files = e.files := by
  unfold EventPoll.readiness eventsAvailable
  split_ifs <;> simp

@[simp] theorem files_readLoop : (readLoop rd max e l localList ret).1.files = e.files := by
  induction l generalizing e localList ret with
  | nil => rfl
  | cons id rest ih =>
    rw [readLoop]
    dsimp only
    split_ifs <;> simp [ih]

@[simp] theorem files_readEventsWith : (e.readEventsWith max rd).1.files = e.files := by
  simp [readEventsWith_eq]

end Files

end EventPoll

end Epoll
