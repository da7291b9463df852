import Gvisor.FdTable.Spec
import Gvisor.Lib.Reachable

/-! The descriptor table over every run: the calls of `NewFDs`, `NewFDAt` and
`Remove`, and the POSIX lock calls on any inode, which change the lock sets
that `drop` later reads. In every table they reach, `used` counts the
descriptors that are not `nil`, and every call returns. The limit is where
the two allocators disagree: `NewFDAt` compares a descriptor with the soft
limit as a `uint64`, `NewFDs` with `int32(lim.Cur)`. -/

namespace FdTable

open Syserror FsLock

namespace State

inductive Step : State → State → Prop
  | newFDs (s s' : State) (cur : Option UInt64) (fd : Int32) (files : List File) (flags : FDFlags)
      (r : Except Errno (List ℕ)) : s.newFDs cur fd files flags = .ok (r, s') → Step s s'
  | newFDAt (s s' : State) (cur : Option UInt64) (fd : Int32) (file : File) (flags : FDFlags)
      (r : Except Errno Unit) : s.newFDAt cur fd file flags = .ok (r, s') → Step s s'
  | remove (s s' : State) (fd : Int32) (r : Option File) : s.remove fd = .ok (r, s') → Step s s'
  | lock (s : State) (inode : ℕ) (l : LockSet) :
      FsLock.Step (s.locks inode) l → Step s { s with locks := Function.update s.locks inode l }

/-- A table as `NewFDTable` makes it, with no locks held on any inode. -/
def Init (s : State) : Prop := s.used = 0 ∧ s.slice = [] ∧ ∀ n, s.locks n = []

def Reachable (s : State) : Prop := Transition.Reachable Init Step s

/-- The invariant of every reachable table. -/
structure TableInv (s : State) : Prop where
  used : s.UsedInv
  locks : LocksInv s.locks

theorem init_newFDTable (uid : UniqueID) : Init (newFDTable uid) := ⟨rfl, rfl, fun _ => rfl⟩

theorem tableInv_init {s : State} (h : Init s) : s.TableInv :=
  ⟨by rw [UsedInv, h.1, h.2.1]; rfl, fun n => by rw [h.2.2 n]; exact FsLock.Inv.nil⟩

section Calls

variable {s s' : State}

/-- `NewFDAt` below the limit installs the file at `fd`. -/
theorem newFDAt_ok (hi : s.TableInv) {cur : Option UInt64} {fd : Int32} (hfd : 0 ≤ fd)
    (hlim : ∀ c, cur = some c → c ≠ infinity → fd.toInt.toNat < c.toNat) (file : File) (flags : FDFlags) :
    ∃ s', s.newFDAt cur fd file flags = .ok (.ok (), s') ∧ s'.entry fd.toInt.toNat = some ⟨file, flags⟩ ∧
      s'.TableInv := by
  have hneg : ¬ fd < 0 := fun h' => by
    rw [Int32.lt_iff_toInt_lt] at h'
    rw [Int32.le_iff_toInt_le] at hfd
    simp at h' hfd
    omega
  obtain ⟨s', hset, hl, -, hslice, hused⟩ := set_ok hi.locks fd.toInt.toNat (some file) flags
  refine ⟨s', ?_, by rw [entry_of_slice hslice, if_pos rfl]; rfl, ⟨hused hi.used, hl⟩⟩
  unfold newFDAt
  rw [if_neg hneg, if_neg, hset, Outcome.ok_bind]
  · rfl
  · cases cur with
    | none => exact Bool.false_ne_true
    | some c =>
      rw [Bool.and_eq_true]
      rintro ⟨hc, hge⟩
      have hlt := hlim c rfl (by simpa using hc)
      have := of_decide_eq_true hge
      omega

theorem TableInv.newFDAt (hi : s.TableInv) {cur : Option UInt64} {fd : Int32} {file : File}
    {flags : FDFlags} {r : Except Errno Unit} (h : s.newFDAt cur fd file flags = .ok (r, s')) :
    s'.TableInv := by
  unfold State.newFDAt at h
  split_ifs at h with hneg hlim
  · cases h
    exact hi
  · cases h
    exact hi
  · obtain ⟨s'', hset, hl, -, -, hused⟩ := set_ok hi.locks fd.toInt.toNat (some file) flags
    rw [hset, Outcome.ok_bind] at h
    cases h
    exact ⟨hused hi.used, hl⟩

theorem TableInv.remove (hi : s.TableInv) {fd : Int32} {r : Option File} (h : s.remove fd = .ok (r, s')) :
    s'.TableInv := by
  unfold State.remove at h
  split_ifs at h with hneg
  · cases h
    exact hi
  · split at h
    · rename_i d _
      -- the caller's reference changes neither the slice nor the locks
      obtain ⟨s'', hset, hl, -, -, hused⟩ :=
        @set_ok { s with refs := Function.update s.refs d.file.id (s.refs d.file.id + 1) } hi.locks
          fd.toInt.toNat none ⟨false⟩
      dsimp only at h
      rw [hset, Outcome.ok_bind] at h
      cases h
      exact ⟨hused hi.used, hl⟩
    · cases h
      exact hi

theorem TableInv.newFDs (hi : s.TableInv) {cur : Option UInt64} {fd : Int32} {files : List File}
    {flags : FDFlags} {r : Except Errno (List ℕ)} (h : s.newFDs cur fd files flags = .ok (r, s')) :
    s'.TableInv := by
  by_cases hneg : fd < 0
  · rw [newFDs_of_neg hneg] at h
    cases h
    exact hi
  have hfd : 0 ≤ fd := by
    rw [Int32.lt_iff_toInt_lt] at hneg
    rw [Int32.le_iff_toInt_le]
    simp at hneg ⊢
    omega
  by_cases hlim : cur.isSome = true ∧ allocEnd cur ≤ fd
  · obtain ⟨c, rfl⟩ := Option.isSome_iff_exists.1 hlim.1
    rw [newFDs_of_end_le hfd c hlim.2] at h
    cases h
    exact hi
  have hend : cur.isSome = true → fd < allocEnd cur := fun hs => by
    have hnot : ¬ allocEnd cur ≤ fd := fun hle => hlim ⟨hs, hle⟩
    rw [Int32.le_iff_toInt_le] at hnot
    rw [Int32.lt_iff_toInt_lt]
    omega
  by_cases hfree : files.length ≤ (s.freeIn fd.toInt.toNat ((allocEnd cur).toInt - fd.toInt).toNat).length
  · obtain ⟨s'', hnew, hinst⟩ := @newFDs_ok s cur fd files flags hfd hend hfree
    rw [hnew] at h
    cases h
    refine ⟨?_, hinst.locks ▸ hi.locks⟩
    unfold UsedInv
    rw [hinst.used, hinst.count, hi.used]
    push_cast
    rfl
  · obtain ⟨s'', hnew, -, hused, hcount, -, -, hl, -⟩ :=
      @newFDs_emfile s cur fd files flags hfd hend hi.locks (by omega)
    rw [hnew] at h
    cases h
    refine ⟨?_, hl⟩
    unfold UsedInv
    rw [hused, hcount, hi.used]

theorem TableInv.step (hi : s.TableInv) (h : Step s s') : s'.TableInv := by
  cases h with
  | newFDs _ cur fd files flags r h => exact hi.newFDs h
  | newFDAt _ cur fd file flags r h => exact hi.newFDAt h
  | remove _ fd r h => exact hi.remove h
  | lock inode l h => exact ⟨hi.used, hi.locks.update ((hi.locks inode).step h) inode⟩

end Calls

theorem Reachable.tableInv {s : State} (h : s.Reachable) : s.TableInv :=
  Transition.Reachable.invariant TableInv (fun _ h => tableInv_init h) (fun _ _ hi hs => hi.step hs) h

/-- In every reachable table, `used` is the number of descriptors that are
not `nil`, and `NewFDs` returns from every call. -/
theorem reachable_used_newFDs {s : State} (h : s.Reachable) :
    s.used = s.slice.countP Option.isSome ∧
      ∀ cur fd files flags, ∃ r s', s.newFDs cur fd files flags = .ok (r, s') := by
  have hi := h.tableInv
  refine ⟨hi.used, fun cur fd files flags => ?_⟩
  by_cases hneg : fd < 0
  · exact ⟨_, _, newFDs_of_neg hneg⟩
  have hfd : 0 ≤ fd := by
    rw [Int32.lt_iff_toInt_lt] at hneg
    rw [Int32.le_iff_toInt_le]
    simp at hneg ⊢
    omega
  by_cases hlim : cur.isSome = true ∧ allocEnd cur ≤ fd
  · obtain ⟨c, rfl⟩ := Option.isSome_iff_exists.1 hlim.1
    exact ⟨_, _, newFDs_of_end_le hfd c hlim.2⟩
  have hend : cur.isSome = true → fd < allocEnd cur := fun hs => by
    have hnot : ¬ allocEnd cur ≤ fd := fun hle => hlim ⟨hs, hle⟩
    rw [Int32.le_iff_toInt_le] at hnot
    rw [Int32.lt_iff_toInt_lt]
    omega
  by_cases hfree : files.length ≤ (s.freeIn fd.toInt.toNat ((allocEnd cur).toInt - fd.toInt).toNat).length
  · obtain ⟨s', hnew, -⟩ := @newFDs_ok s cur fd files flags hfd hend hfree
    exact ⟨_, _, hnew⟩
  · obtain ⟨s', hnew, -⟩ := @newFDs_emfile s cur fd files flags hfd hend hi.locks (by omega)
    exact ⟨_, _, hnew⟩

/-- Where the two allocators and the unwind of `NewFDs` go wrong. A soft limit
whose low 32 bits, read as an `int32`, are at most `fd` makes `NewFDs` fail
with `EMFILE` although `NewFDAt` installs at `fd`; and a `NewFDs` that finds
too few free descriptors clears those it installed through `set(i, nil)`,
which sends a close event for each of their files. -/
theorem newFDs_truncated_limit_and_unwind_effects :
    (∀ (s : State) (c : UInt64) (fd : Int32) (files : List File) (file : File) (flags : FDFlags),
      s.Reachable → 0 ≤ fd → c ≠ infinity → c.toUInt32.toInt32 ≤ fd → fd.toInt.toNat < c.toNat →
      s.newFDs (some c) fd files flags = .ok (.error .EMFILE, s) ∧
        ∃ s', s.newFDAt (some c) fd file flags = .ok (.ok (), s') ∧
          s'.entry fd.toInt.toNat = some ⟨file, flags⟩) ∧
    (∀ (s : State) (cur : Option UInt64) (fd : Int32) (files : List File) (flags : FDFlags),
      s.Reachable → 0 ≤ fd → (cur.isSome = true → fd < allocEnd cur) →
      (s.freeIn fd.toInt.toNat ((allocEnd cur).toInt - fd.toInt).toNat).length < files.length →
      ∃ s', s.newFDs cur fd files flags = .ok (.error .EMFILE, s') ∧ (∀ j, s'.entry j = s.entry j) ∧
        s'.used = s.used ∧ s'.refs = s.refs ∧
        s'.events = s.events ++
          (files.take (s.freeIn fd.toInt.toNat ((allocEnd cur).toInt - fd.toInt).toNat).length).map
            closeEvent) := by
  constructor
  · intro s c fd files file flags hs hfd hc htrunc hlt
    have hend : allocEnd (some c) ≤ fd := by
      show (if c ≠ infinity then c.toUInt32.toInt32 else Int32.maxValue) ≤ fd
      rw [if_pos hc]
      exact htrunc
    obtain ⟨s', hat, hentry, -⟩ :=
      newFDAt_ok hs.tableInv hfd (fun c' hc' _ => Option.some.inj hc' ▸ hlt) file flags
    exact ⟨newFDs_of_end_le hfd c hend, s', hat, hentry⟩
  · intro s cur fd files flags hs hfd hend hfree
    obtain ⟨s', hnew, hentry, hused, -, hrefs, -, -, hev⟩ := newFDs_emfile hfd hend hs.tableInv.locks hfree
    exact ⟨s', hnew, hentry, hused, hrefs, hev⟩

/-- Both at a new table of uid 1: the soft limit `2^32` is `0` as an `int32`,
and a table holding a write lock of its uid on inode 5 loses it when `NewFDs`
installs a file of that inode and then runs out of descriptors. -/
theorem newFDs_truncated_limit_and_unwind_effects_cur_2pow32 :
    ((newFDTable 1).newFDs (some 4294967296) 0 [⟨1, 5, false, false⟩] ⟨false⟩ =
        .ok (.error .EMFILE, newFDTable 1) ∧
      ∃ s', (newFDTable 1).newFDAt (some 4294967296) 0 ⟨1, 5, false, false⟩ ⟨false⟩ = .ok (.ok (), s') ∧
        s'.entry 0 = some ⟨⟨1, 5, false, false⟩, ⟨false⟩⟩) ∧
    ∃ s', State.newFDs { newFDTable 1 with locks := Function.update (fun _ => []) 5 [(⟨0, lockEOF⟩, ⟨∅, true, 1⟩)] }
        (some 1) 0 [⟨1, 5, false, false⟩, ⟨2, 6, false, false⟩] ⟨false⟩ = .ok (.error .EMFILE, s') ∧
      s'.slice.countP Option.isSome = 0 ∧ s'.used = 0 ∧ s'.events = [closeEvent ⟨1, 5, false, false⟩] ∧
      s'.locks 5 = [] := by
  have hnew : (newFDTable 1).Reachable := Transition.Reachable.of_init (init_newFDTable 1)
  have hlocked : State.Reachable
      { newFDTable 1 with locks := Function.update (fun _ => []) 5 [(⟨0, lockEOF⟩, ⟨∅, true, 1⟩)] } :=
    Transition.Reachable.tail hnew (Step.lock _ 5 _
      (FsLock.Step.lock [] _ 1 .writeLock ⟨0, lockEOF⟩ true (by decide) (by decide) (by decide)))
  obtain ⟨hmf, s', hat, hentry⟩ := newFDs_truncated_limit_and_unwind_effects.1 _ 4294967296 0
    [⟨1, 5, false, false⟩] ⟨1, 5, false, false⟩ ⟨false⟩ hnew (by decide) (by decide) (by decide) (by decide)
  obtain ⟨s₁, hmf₁, -, hused, -, hev⟩ := newFDs_truncated_limit_and_unwind_effects.2 _ (some 1) 0
    [⟨1, 5, false, false⟩, ⟨2, 6, false, false⟩] ⟨false⟩ hlocked (by decide) (by decide) (by decide)
  -- the rest of the state after the unwind, read off the run itself
  have hrun : (State.newFDs { newFDTable 1 with locks := Function.update (fun _ => []) 5 [(⟨0, lockEOF⟩, ⟨∅, true, 1⟩)] }
      (some 1) 0 [⟨1, 5, false, false⟩, ⟨2, 6, false, false⟩] ⟨false⟩ >>= fun r =>
        Outcome.ok (r.2.slice.countP Option.isSome, r.2.locks 5)) = .ok (0, []) := by decide
  rw [hmf₁, Outcome.ok_bind] at hrun
  obtain ⟨hcount, hlocks⟩ := Prod.mk.inj (Outcome.ok.inj hrun)
  exact ⟨⟨hmf, s', hat, hentry⟩, s₁, hmf₁, hcount, hused, by rw [hev]; decide, hlocks⟩

end State

end FdTable
