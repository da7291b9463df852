import Gvisor.FdTable.Table
import Gvisor.FsLock.Invariant
import Gvisor.Lib.MachineInt

/-! What `set` does to a descriptor table, read through the entry `get` finds
at each descriptor, and the loops of `NewFDs` built on it: the install loop
fills the free descriptors from `fd` on in ascending order, and the unwinding
loop clears them again through `drop`. Every `drop` needs the lock set of the
file's inode to be one the lock calls can reach, so that `UnlockRegion`
returns. -/

namespace FdTable

open Syserror FsLock Segment

/-- The lock set of every inode is one the lock calls keep valid. -/
def LocksInv (locks : ℕ → LockSet) : Prop := ∀ n, FsLock.Inv (locks n)

/-- The end `NewFDs` computes from a finite soft limit is the limit modulo
`2^32` read as an `int32`: below `2^31` it is the limit, from there on it is
cut to a smaller number, negative up to `2^32`. -/
theorem toInt_allocEnd {c : UInt64} (hc : c ≠ infinity) :
    (allocEnd (some c)).toInt =
      if c.toNat % 2 ^ 32 < 2 ^ 31 then ((c.toNat % 2 ^ 32 : ℕ) : ℤ) else ((c.toNat % 2 ^ 32 : ℕ) : ℤ) - 2 ^ 32 := by
  show (if c ≠ infinity then c.toUInt32.toInt32 else Int32.maxValue).toInt = _
  rw [if_pos hc, UInt32.toInt_toInt32, UInt64.toNat_toUInt32]

theorem toInt_allocEnd_of_lt {c : UInt64} (hc : c ≠ infinity) (h : c.toNat < 2 ^ 31) :
    (allocEnd (some c)).toInt = c.toNat := by
  rw [toInt_allocEnd hc, Nat.mod_eq_of_lt (by omega), if_pos h]

theorem getD_grow (slice : List (Option Descriptor)) (fd j : ℕ) :
    (grow slice fd).getD j none = slice.getD j none := by
  unfold grow
  split_ifs with h
  · rw [List.getD_eq_getElem?_getD, List.getD_eq_getElem?_getD, List.getElem?_append]
    split_ifs with hj
    · rfl
    · rw [List.getElem?_eq_none (by omega : slice.length ≤ j), List.getElem?_replicate]
      split_ifs <;> rfl
  · rfl

theorem lt_length_grow (slice : List (Option Descriptor)) (fd : ℕ) : fd < (grow slice fd).length := by
  unfold grow
  split_ifs with h
  · rw [List.length_append, List.length_replicate]
    omega
  · omega

theorem countP_grow (slice : List (Option Descriptor)) (fd : ℕ) :
    (grow slice fd).countP Option.isSome = slice.countP Option.isSome := by
  unfold grow
  split_ifs
  · simp [List.countP_append, List.countP_replicate]
  · rfl

theorem getD_set_grow (slice : List (Option Descriptor)) (fd j : ℕ) (d : Option Descriptor) :
    ((grow slice fd).set fd d).getD j none = if j = fd then d else slice.getD j none := by
  rw [List.getD_eq_getElem?_getD, List.getElem?_set, if_pos (lt_length_grow slice fd)]
  by_cases hj : j = fd
  · rw [if_pos hj.symm, if_pos hj]
    rfl
  · rw [if_neg (Ne.symm hj), if_neg hj, ← List.getD_eq_getElem?_getD, getD_grow]

theorem countP_set_grow (slice : List (Option Descriptor)) (fd : ℕ) (d : Option Descriptor) :
    ((grow slice fd).set fd d).countP Option.isSome + (if (slice.getD fd none).isSome then 1 else 0) =
      slice.countP Option.isSome + (if d.isSome then 1 else 0) := by
  have hlt := lt_length_grow slice fd
  have hget : (grow slice fd)[fd] = slice.getD fd none := by
    rw [← getD_grow slice fd fd, ← List.getElem_eq_getD]
  have hle := @List.boole_getElem_le_countP _ Option.isSome _ _ hlt
  rw [List.countP_set hlt, hget]
  rw [hget, countP_grow] at hle
  rw [countP_grow]
  omega

theorem LocksInv.update {locks : ℕ → LockSet} (hl : LocksInv locks) {l : LockSet} (hinv : FsLock.Inv l)
    (i : ℕ) : LocksInv (Function.update locks i l) := by
  intro n
  by_cases hn : n = i
  · rw [hn, Function.update_self]
    exact hinv
  · rw [Function.update_of_ne hn]
    exact hl n

namespace State

/-- The descriptor at `fd`, `nil` beyond the slice: what `get` finds. -/
def entry (s : State) (fd : ℕ) : Option Descriptor := s.slice.getD fd none

theorem get_fst (s : State) (fd : ℕ) : (s.get fd).1 = s.entry fd := by
  unfold get entry
  split_ifs with h
  · rw [List.getD_eq_getElem?_getD, List.getElem?_eq_none h, Option.getD_none]
  · rfl

/-- `used` counts the descriptors that are not `nil`. -/
def UsedInv (s : State) : Prop := s.used = s.slice.countP Option.isSome

/-- `drop` releases the uid's locks on the file's inode, records its close
event and gives back the table's reference; it returns wherever the lock set
of the inode is valid. -/
theorem drop_ok {s : State} {file : File} (hl : FsLock.Inv (s.locks file.inode)) :
    ∃ l, FsLock.Inv l ∧ s.drop file = .ok { s with
      locks := Function.update s.locks file.inode l
      events := s.events ++ [closeEvent file]
      refs := Function.update s.refs file.id (s.refs file.id - 1) } := by
  obtain ⟨l, hunlock, hinv⟩ := @unlock_ok s.uid ⟨0, lockEOF⟩ _ hl (Nat.zero_le _)
  exact ⟨l, hinv, by simp [drop, hunlock]⟩

/-- Installing a file at a free descriptor takes one reference to it and
counts one more descriptor; nothing is dropped. -/
theorem set_of_free {s : State} {fd : ℕ} (h : s.entry fd = none) (f : File) (flags : FDFlags) :
    s.set fd (some f) flags = .ok { s with
      slice := (grow s.slice fd).set fd (some ⟨f, flags⟩)
      refs := Function.update s.refs f.id (s.refs f.id + 1)
      used := s.used + 1 } := by
  have horig : (grow s.slice fd).getD fd none = none := by rw [getD_grow]; exact h
  unfold set
  simp only [horig]
  simp

/-- Clearing a descriptor drops the file it held and counts one descriptor
less. -/
theorem set_none_of_entry {s : State} {fd : ℕ} {d : Descriptor} (h : s.entry fd = some d) (flags : FDFlags) :
    s.set fd none flags = ({ s with slice := (grow s.slice fd).set fd none } : State).drop d.file >>=
      fun s' => pure { s' with used := s'.used - 1 } := by
  have horig : (grow s.slice fd).getD fd none = some d := by rw [getD_grow]; exact h
  unfold set
  simp only [horig]
  simp

theorem set_none_of_free {s : State} {fd : ℕ} (h : s.entry fd = none) (flags : FDFlags) :
    s.set fd none flags = .ok { s with slice := (grow s.slice fd).set fd none } := by
  have horig : (grow s.slice fd).getD fd none = none := by rw [getD_grow]; exact h
  unfold set
  simp only [horig]
  rfl

/-- Installing a file over another takes a reference to the new one and drops
the old one; installing the same file again only changes the flags. -/
theorem set_some_of_entry {s : State} {fd : ℕ} {d : Descriptor} (h : s.entry fd = some d) (f : File)
    (flags : FDFlags) :
    s.set fd (some f) flags =
      if f = d.file then .ok { s with slice := (grow s.slice fd).set fd (some ⟨f, flags⟩) }
      else ({ s with
        slice := (grow s.slice fd).set fd (some ⟨f, flags⟩)
        refs := Function.update s.refs f.id (s.refs f.id + 1) } : State).drop d.file := by
  have horig : (grow s.slice fd).getD fd none = some d := by rw [getD_grow]; exact h
  unfold set
  simp only [horig]
  by_cases hf : f = d.file
  · subst hf
    simp
  · have hf' : ¬ d.file = f := Ne.symm hf
    simp [hf, hf']

/-- `set` returns wherever the lock sets are valid, and keeps them valid; it
writes the entry at `fd` alone, and keeps `used` the count of the entries
that are not `nil`. -/
theorem set_ok {s : State} (hl : LocksInv s.locks) (fd : ℕ) (file : Option File) (flags : FDFlags) :
    ∃ s', s.set fd file flags = .ok s' ∧ LocksInv s'.locks ∧ s'.uid = s.uid ∧
      s'.slice = (grow s.slice fd).set fd (file.map fun f => ⟨f, flags⟩) ∧
      (s.UsedInv → s'.UsedInv) := by
  have hcount := countP_set_grow s.slice fd (file.map fun f => ⟨f, flags⟩)
  have hentry : s.slice.getD fd none = s.entry fd := rfl
  unfold UsedInv
  cases he : s.entry fd with
  | none =>
    rw [hentry, he] at hcount
    cases file with
    | none =>
      refine ⟨_, set_none_of_free he flags, hl, rfl, rfl, fun hu => ?_⟩
      simp at hcount
      dsimp only
      omega
    | some f =>
      refine ⟨_, set_of_free he f flags, hl, rfl, rfl, fun hu => ?_⟩
      simp at hcount
      dsimp only
      omega
  | some d =>
    rw [hentry, he] at hcount
    cases file with
    | none =>
      obtain ⟨l, hinv, hdrop⟩ :=
        @drop_ok { s with slice := (grow s.slice fd).set fd none } d.file (hl _)
      rw [set_none_of_entry he, hdrop]
      refine ⟨_, rfl, hl.update hinv _, rfl, rfl, fun hu => ?_⟩
      simp at hcount
      dsimp only
      omega
    | some f =>
      rw [set_some_of_entry he]
      by_cases hf : f = d.file
      · rw [if_pos hf]
        refine ⟨_, rfl, hl, rfl, rfl, fun hu => ?_⟩
        simp at hcount
        dsimp only
        omega
      · rw [if_neg hf]
        obtain ⟨l, hinv, hdrop⟩ := @drop_ok { s with
          slice := (grow s.slice fd).set fd (some ⟨f, flags⟩)
          refs := Function.update s.refs f.id (s.refs f.id + 1) } d.file (hl _)
        rw [hdrop]
        refine ⟨_, rfl, hl.update hinv _, rfl, rfl, fun hu => ?_⟩
        simp at hcount
        dsimp only
        omega

theorem entry_of_slice {s s' : State} {fd : ℕ} {d : Option Descriptor}
    (h : s'.slice = (grow s.slice fd).set fd d) (j : ℕ) :
    s'.entry j = if j = fd then d else s.entry j := by
  unfold entry
  rw [h, getD_set_grow]

/-! ### The install loop -/

/-- The free descriptors among the `n` from `start` on, in ascending order. -/
def freeIn (s : State) (start n : ℕ) : List ℕ := (List.range' start n).filter fun j => s.entry j = none

theorem freeIn_zero (s : State) (start : ℕ) : s.freeIn start 0 = [] := rfl

theorem freeIn_succ (s : State) (start n : ℕ) :
    s.freeIn start (n + 1) = if s.entry start = none then start :: s.freeIn (start + 1) n
      else s.freeIn (start + 1) n := by
  unfold freeIn
  rw [List.range'_succ, List.filter_cons]
  by_cases h : s.entry start = none <;> simp [h]

theorem mem_freeIn {s : State} {start n j : ℕ} :
    j ∈ s.freeIn start n ↔ start ≤ j ∧ j < start + n ∧ s.entry j = none := by
  simp [freeIn, List.mem_range'_1, and_assoc]

theorem freeIn_congr {s s' : State} {start : ℕ} (h : ∀ j, start ≤ j → s'.entry j = s.entry j) (n : ℕ) :
    s'.freeIn start n = s.freeIn start n := by
  unfold freeIn
  apply List.filter_congr
  intro j hj
  rw [h j (List.mem_range'_1.1 hj).1]

/-- `s'` is `s` with the files of `ps` installed at their descriptors, the
descriptors counted and one table reference taken to each file. -/
structure Installed (flags : FDFlags) (s s' : State) (ps : List (ℕ × File)) : Prop where
  entry_mem : ∀ p ∈ ps, s'.entry p.1 = some ⟨p.2, flags⟩
  entry_not_mem : ∀ j, j ∉ ps.map Prod.fst → s'.entry j = s.entry j
  used : s'.used = s.used + ps.length
  count : s'.slice.countP Option.isSome = s.slice.countP Option.isSome + ps.length
  refs : ∀ x, s'.refs x = s.refs x + ps.countP fun p => p.2.id = x
  uid : s'.uid = s.uid
  locks : s'.locks = s.locks
  events : s'.events = s.events

theorem Installed.nil (flags : FDFlags) (s : State) : Installed flags s s [] :=
  ⟨by simp, fun _ _ => rfl, by simp, by simp, by simp, rfl, rfl, rfl⟩

theorem Installed.single {s : State} {i : ℕ} (h : s.entry i = none) (f : File) (flags : FDFlags) :
    Installed flags s { s with
      slice := (grow s.slice i).set i (some ⟨f, flags⟩)
      refs := Function.update s.refs f.id (s.refs f.id + 1)
      used := s.used + 1 } [(i, f)] where
  entry_mem p hp := by
    rw [List.mem_singleton] at hp
    subst hp
    simp only [entry]
    rw [getD_set_grow, if_pos rfl]
  entry_not_mem j hj := by
    have hne : j ≠ i := by simpa using hj
    simp only [entry, getD_set_grow, if_neg hne]
  used := by simp
  count := by
    have hcount := countP_set_grow s.slice i (some ⟨f, flags⟩)
    have hentry : s.slice.getD i none = none := h
    rw [hentry] at hcount
    simp at hcount
    simp [hcount]
  refs x := by
    by_cases hx : x = f.id
    · subst hx
      simp
    · simp [Function.update_of_ne hx, Ne.symm hx]
  uid := rfl
  locks := rfl
  events := rfl

theorem Installed.cons {flags : FDFlags} {s s₁ s' : State} {p : ℕ × File} {ps : List (ℕ × File)}
    (h₁ : Installed flags s s₁ [p]) (h₂ : Installed flags s₁ s' ps) (hp : p.1 ∉ ps.map Prod.fst) :
    Installed flags s s' (p :: ps) where
  entry_mem q hq := by
    rcases List.mem_cons.1 hq with rfl | hq
    · rw [h₂.entry_not_mem _ hp]
      exact h₁.entry_mem _ (List.mem_singleton_self _)
    · exact h₂.entry_mem q hq
  entry_not_mem j hj := by
    rw [List.map_cons, List.mem_cons, not_or] at hj
    rw [h₂.entry_not_mem j hj.2, h₁.entry_not_mem j (by simpa using hj.1)]
  used := by
    rw [h₂.used, h₁.used]
    simp only [List.length_cons, List.length_nil]
    push_cast
    omega
  count := by
    rw [h₂.count, h₁.count]
    simp only [List.length_cons, List.length_nil]
    omega
  refs x := by
    rw [h₂.refs, h₁.refs]
    simp only [List.countP_cons, List.countP_nil]
    push_cast
    omega
  uid := h₂.uid.trans h₁.uid
  locks := h₂.locks.trans h₁.locks
  events := h₂.events.trans h₁.events

/-- The install loop fills the free descriptors from `i` on, in ascending
order, with the files not yet installed, until it has installed them all or
the turns run out. -/
theorem installLoop_spec (files : List File) (flags : FDFlags) :
    ∀ (fuel i : ℕ) (fds : List ℕ) (s : State), fds.length ≤ files.length →
      ∃ s', installLoop files flags fuel i fds s =
          .ok (fds ++ (s.freeIn i fuel).take (files.length - fds.length), s') ∧
        Installed flags s s' (((s.freeIn i fuel).take (files.length - fds.length)).zip (files.drop fds.length))
  | 0, i, fds, s, _ => by
    rw [freeIn_zero, List.take_nil, List.zip_nil_left, List.append_nil]
    exact ⟨s, rfl, Installed.nil flags s⟩
  | fuel + 1, i, fds, s, hle => by
    rw [installLoop]
    by_cases h : fds.length < files.length
    · rw [dif_pos h, get_fst]
      by_cases he : s.entry i = none
      · rw [if_pos he, set_of_free he, Outcome.ok_bind]
        obtain ⟨s', hloop, hinst⟩ := installLoop_spec files flags fuel (i + 1) (fds ++ [i]) _
          (by rw [List.length_append, List.length_singleton]; omega)
        -- the entries from `i + 1` on are those of `s`
        have hfree : ({ s with
            slice := (grow s.slice i).set i (some ⟨files[fds.length], flags⟩)
            refs := Function.update s.refs files[fds.length].id (s.refs files[fds.length].id + 1)
            used := s.used + 1 } : State).freeIn (i + 1) fuel = s.freeIn (i + 1) fuel := by
          apply freeIn_congr
          intro j hj
          simp only [entry, getD_set_grow, if_neg (show j ≠ i by omega)]
        rw [hfree, List.length_append, List.length_singleton] at hloop hinst
        have htake : (s.freeIn i (fuel + 1)).take (files.length - fds.length) =
            i :: (s.freeIn (i + 1) fuel).take (files.length - (fds.length + 1)) := by
          rw [freeIn_succ, if_pos he, show files.length - fds.length = files.length - (fds.length + 1) + 1 by omega,
            List.take_succ_cons]
        refine ⟨s', by rw [hloop, htake, List.append_assoc, List.singleton_append], ?_⟩
        rw [htake, List.drop_eq_getElem_cons h, List.zip_cons_cons]
        refine Installed.cons (Installed.single he _ flags) hinst ?_
        intro hmem
        obtain ⟨p, hp, hpi⟩ := List.mem_map.1 hmem
        have := (mem_freeIn.1 (List.mem_of_mem_take (List.of_mem_zip hp).1)).1
        omega
      · rw [if_neg he]
        obtain ⟨s', hloop, hinst⟩ := installLoop_spec files flags fuel (i + 1) fds s hle
        rw [freeIn_succ, if_neg he]
        exact ⟨s', hloop, hinst⟩
    · rw [dif_neg h]
      have hlen : files.length - fds.length = 0 := by omega
      rw [hlen, List.take_zero, List.zip_nil_left, List.append_nil]
      exact ⟨s, rfl, Installed.nil flags s⟩

/-! ### The unwinding loop -/

/-- `s'` is `s` with the descriptors of `ps` cleared through `drop`: one close
event for each file, in order, and one table reference given back to each. -/
structure Cleared (s s' : State) (ps : List (ℕ × File)) : Prop where
  entry_mem : ∀ p ∈ ps, s'.entry p.1 = none
  entry_not_mem : ∀ j, j ∉ ps.map Prod.fst → s'.entry j = s.entry j
  used : s'.used + ps.length = s.used
  count : s'.slice.countP Option.isSome + ps.length = s.slice.countP Option.isSome
  refs : ∀ x, s'.refs x + (ps.countP fun p => p.2.id = x) = s.refs x
  uid : s'.uid = s.uid
  locks : LocksInv s'.locks
  events : s'.events = s.events ++ ps.map fun p => closeEvent p.2

theorem Cleared.nil {s : State} (hl : LocksInv s.locks) : Cleared s s [] :=
  ⟨by simp, fun _ _ => rfl, by simp, by simp, by simp, rfl, hl, by simp⟩

/-- Clearing one descriptor that holds a file drops that file. -/
theorem Cleared.single {s : State} {i : ℕ} {f : File} {flags : FDFlags} (h : s.entry i = some ⟨f, flags⟩)
    (hl : LocksInv s.locks) (flags' : FDFlags) :
    ∃ s', s.set i none flags' = .ok s' ∧ Cleared s s' [(i, f)] := by
  obtain ⟨l, hinv, hdrop⟩ := @drop_ok { s with slice := (grow s.slice i).set i none } f (hl _)
  rw [set_none_of_entry h, hdrop, Outcome.ok_bind]
  refine ⟨_, rfl, ?_⟩
  have hcount := countP_set_grow s.slice i none
  have hentry : s.slice.getD i none = some ⟨f, flags⟩ := h
  rw [hentry] at hcount
  simp at hcount
  exact {
    entry_mem := fun p hp => by
      rw [List.mem_singleton] at hp
      subst hp
      simp only [entry]
      rw [getD_set_grow, if_pos rfl]
    entry_not_mem := fun j hj => by
      have hne : j ≠ i := by simpa using hj
      simp only [entry, getD_set_grow, if_neg hne]
    used := by simp
    count := by simpa using hcount
    refs := fun x => by
      by_cases hx : x = f.id
      · subst hx
        simp
      · simp [Function.update_of_ne hx, Ne.symm hx]
    uid := rfl
    locks := hl.update hinv _
    events := by simp }

theorem Cleared.cons {s s₁ s' : State} {p : ℕ × File} {ps : List (ℕ × File)}
    (h₁ : Cleared s s₁ [p]) (h₂ : Cleared s₁ s' ps) (hp : p.1 ∉ ps.map Prod.fst) :
    Cleared s s' (p :: ps) where
  entry_mem q hq := by
    rcases List.mem_cons.1 hq with rfl | hq
    · rw [h₂.entry_not_mem _ hp]
      exact h₁.entry_mem _ (List.mem_singleton_self _)
    · exact h₂.entry_mem q hq
  entry_not_mem j hj := by
    rw [List.map_cons, List.mem_cons, not_or] at hj
    rw [h₂.entry_not_mem j hj.2, h₁.entry_not_mem j (by simpa using hj.1)]
  used := by
    have := h₁.used
    have := h₂.used
    simp only [List.length_cons, List.length_nil] at *
    push_cast at *
    omega
  count := by
    have := h₁.count
    have := h₂.count
    simp only [List.length_cons, List.length_nil] at *
    omega
  refs x := by
    have := h₁.refs x
    have := h₂.refs x
    simp only [List.countP_cons, List.countP_nil] at *
    push_cast at *
    omega
  uid := h₂.uid.trans h₁.uid
  locks := h₂.locks
  events := by
    rw [h₂.events, h₁.events, List.map_cons, List.map_cons, List.map_nil, List.append_assoc,
      List.singleton_append]

/-- The unwinding loop of `NewFDs` clears, in order, descriptors that hold the
files it installed there. -/
theorem unwind_spec (flags : FDFlags) :
    ∀ (ps : List (ℕ × File)) (s : State), (ps.map Prod.fst).Nodup →
      (∀ p ∈ ps, s.entry p.1 = some ⟨p.2, flags⟩) → LocksInv s.locks →
      ∃ s', (ps.map Prod.fst).foldlM (fun s i => s.set i none ⟨false⟩) s = .ok s' ∧ Cleared s s' ps
  | [], s, _, _, hl => ⟨s, rfl, Cleared.nil hl⟩
  | p :: ps, s, hnd, hent, hl => by
    rw [List.map_cons, List.nodup_cons] at hnd
    obtain ⟨s₁, hset, hc₁⟩ := Cleared.single (hent p (List.mem_cons_self ..)) hl ⟨false⟩
    have hent₁ : ∀ q ∈ ps, s₁.entry q.1 = some ⟨q.2, flags⟩ := by
      intro q hq
      have hne : q.1 ∉ [p].map Prod.fst := by
        simp only [List.map_cons, List.map_nil, List.mem_singleton]
        intro he
        exact hnd.1 (he ▸ List.mem_map_of_mem hq)
      rw [hc₁.entry_not_mem _ hne]
      exact hent q (List.mem_cons_of_mem _ hq)
    obtain ⟨s', hloop, hc₂⟩ := unwind_spec flags ps s₁ hnd.2 hent₁ hc₁.locks
    refine ⟨s', ?_, hc₁.cons hc₂ hnd.1⟩
    rw [List.map_cons, List.foldlM_cons, hset, Outcome.ok_bind, hloop]

/-! ### `NewFDs` -/

theorem freeIn_sorted (s : State) (start n : ℕ) : (s.freeIn start n).Pairwise (· < ·) :=
  (List.pairwise_lt_range' 1).filter _

/-- The first descriptors of the free ones are below every other free one. -/
theorem lt_of_mem_take_freeIn {s : State} {start n k j i : ℕ} (hi : i ∈ (s.freeIn start n).take k)
    (hj : j ∈ s.freeIn start n) (hj' : j ∉ (s.freeIn start n).take k) : i < j := by
  have hsplit := List.take_append_drop k (s.freeIn start n)
  have hsorted := freeIn_sorted s start n
  rw [← hsplit, List.pairwise_append] at hsorted
  rw [← hsplit, List.mem_append] at hj
  exact hsorted.2.2 i hi j (hj.resolve_left hj')

private theorem map_snd_zip_of_length_le {α β : Type} :
    ∀ (a : List α) (b : List β), a.length ≤ b.length → (a.zip b).map Prod.snd = b.take a.length
  | [], _, _ => rfl
  | _ :: _, [], h => absurd h (by simp)
  | x :: a, y :: b, h => by
    rw [List.zip_cons_cons, List.map_cons, List.length_cons, List.take_succ_cons,
      map_snd_zip_of_length_le a b (by simpa using h)]

section NewFDs

variable {s : State} {cur : Option UInt64} {fd : Int32} {files : List File} {flags : FDFlags}

theorem newFDs_of_neg (h : fd < 0) : s.newFDs cur fd files flags = .ok (.error .EINVAL, s) := by
  simp [newFDs, h]

theorem newFDs_of_end_le (hfd : 0 ≤ fd) (c : UInt64) (h : allocEnd (some c) ≤ fd) :
    s.newFDs (some c) fd files flags = .ok (.error .EMFILE, s) := by
  have hneg : ¬ fd < 0 := fun h' => by
    rw [Int32.lt_iff_toInt_lt] at h'
    rw [Int32.le_iff_toInt_le] at hfd
    simp at h' hfd
    omega
  simp [newFDs, hneg, h]

/-- Below the end it computes, `NewFDs` runs its install loop over the
descriptors from `fd` to that end. -/
theorem newFDs_eq_loop (hfd : 0 ≤ fd) (hend : cur.isSome = true → fd < allocEnd cur) :
    s.newFDs cur fd files flags =
      installLoop files flags ((allocEnd cur).toInt - fd.toInt).toNat fd.toInt.toNat [] s >>= fun r =>
        if r.1.length < files.length then do
          let s ← r.1.foldlM (fun s i => s.set i none ⟨false⟩) r.2
          pure (.error .EMFILE, s)
        else pure (.ok r.1, r.2) := by
  have hneg : ¬ fd < 0 := fun h' => by
    rw [Int32.lt_iff_toInt_lt] at h'
    rw [Int32.le_iff_toInt_le] at hfd
    simp at h' hfd
    omega
  have hlim : ¬ (cur.isSome = true ∧ fd ≥ allocEnd cur) := fun ⟨hs, hge⟩ => by
    have hlt := Int32.lt_iff_toInt_lt.1 (hend hs)
    have hge' := Int32.le_iff_toInt_le.1 hge
    omega
  simp only [newFDs, hneg, hlim, if_false]

/-- With enough free descriptors below its end, `NewFDs` installs the files,
in order, into the lowest free descriptors from `fd` on, and returns those. -/
theorem newFDs_ok (hfd : 0 ≤ fd) (hend : cur.isSome = true → fd < allocEnd cur)
    (hfree : files.length ≤ (s.freeIn fd.toInt.toNat ((allocEnd cur).toInt - fd.toInt).toNat).length) :
    ∃ s', s.newFDs cur fd files flags =
        .ok (.ok ((s.freeIn fd.toInt.toNat ((allocEnd cur).toInt - fd.toInt).toNat).take files.length), s') ∧
      Installed flags s s'
        (((s.freeIn fd.toInt.toNat ((allocEnd cur).toInt - fd.toInt).toNat).take files.length).zip files) := by
  obtain ⟨s', hloop, hinst⟩ := installLoop_spec files flags ((allocEnd cur).toInt - fd.toInt).toNat
    fd.toInt.toNat [] s (Nat.zero_le _)
  rw [List.nil_append, List.length_nil, Nat.sub_zero] at hloop
  rw [List.length_nil, Nat.sub_zero, List.drop_zero] at hinst
  have hlen : ¬ ((s.freeIn fd.toInt.toNat ((allocEnd cur).toInt - fd.toInt).toNat).take files.length).length <
      files.length := by
    rw [List.length_take]
    omega
  refine ⟨s', ?_, hinst⟩
  rw [newFDs_eq_loop hfd hend, hloop, Outcome.ok_bind]
  simp only [hlen, if_false]
  rfl

/-- With fewer free descriptors below its end than files, `NewFDs` installs
the files it can and clears them again: the table, its count and the
references are as before, but each file installed has been dropped, its close
event sent and the table's locks on its inode released. -/
theorem newFDs_emfile (hfd : 0 ≤ fd) (hend : cur.isSome = true → fd < allocEnd cur) (hl : LocksInv s.locks)
    (hfree : (s.freeIn fd.toInt.toNat ((allocEnd cur).toInt - fd.toInt).toNat).length < files.length) :
    ∃ s', s.newFDs cur fd files flags = .ok (.error .EMFILE, s') ∧ (∀ j, s'.entry j = s.entry j) ∧
      s'.used = s.used ∧ s'.slice.countP Option.isSome = s.slice.countP Option.isSome ∧ s'.refs = s.refs ∧
      s'.uid = s.uid ∧ LocksInv s'.locks ∧
      s'.events = s.events ++ (files.take
        (s.freeIn fd.toInt.toNat ((allocEnd cur).toInt - fd.toInt).toNat).length).map closeEvent := by
  obtain ⟨s₁, hloop, hinst⟩ := installLoop_spec files flags ((allocEnd cur).toInt - fd.toInt).toNat
    fd.toInt.toNat [] s (Nat.zero_le _)
  generalize hF : s.freeIn fd.toInt.toNat ((allocEnd cur).toInt - fd.toInt).toNat = F at hloop hinst hfree ⊢
  rw [List.nil_append, List.length_nil, Nat.sub_zero, List.take_of_length_le hfree.le] at hloop
  rw [List.length_nil, Nat.sub_zero, List.drop_zero, List.take_of_length_le hfree.le] at hinst
  have hfst : (F.zip files).map Prod.fst = F := List.map_fst_zip hfree.le
  have hnd : ((F.zip files).map Prod.fst).Nodup := by
    rw [hfst, ← hF]
    exact (freeIn_sorted _ _ _).imp (fun h => ne_of_lt h)
  obtain ⟨s', hunwind, hclr⟩ := unwind_spec flags (F.zip files) s₁ hnd hinst.entry_mem (hinst.locks ▸ hl)
  rw [hfst] at hunwind
  refine ⟨s', ?_, ?_, ?_, ?_, ?_, hclr.uid.trans hinst.uid, hclr.locks, ?_⟩
  · rw [newFDs_eq_loop hfd hend, hloop, Outcome.ok_bind]
    simp only [hfree, if_true, hunwind, Outcome.ok_bind]
    rfl
  · intro j
    by_cases hj : j ∈ F
    · have hfree_j : s.entry j = none := (mem_freeIn.1 (by rw [hF]; exact hj)).2.2
      rw [← hfst] at hj
      obtain ⟨p, hp, rfl⟩ := List.mem_map.1 hj
      rw [hclr.entry_mem p hp, hfree_j]
    · rw [← hfst] at hj
      rw [hclr.entry_not_mem j hj, hinst.entry_not_mem j hj]
  · have := hclr.used
    have := hinst.used
    omega
  · have := hclr.count
    have := hinst.count
    omega
  · funext x
    have := hclr.refs x
    have := hinst.refs x
    omega
  · have hmap : (F.zip files).map (fun p => closeEvent p.2) = ((F.zip files).map Prod.snd).map closeEvent := by
      rw [List.map_map]
      rfl
    rw [hclr.events, hinst.events, hmap, map_snd_zip_of_length_le F files hfree.le]

end NewFDs

end State

end FdTable
