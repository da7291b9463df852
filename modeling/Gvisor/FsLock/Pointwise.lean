import Gvisor.FsLock.Invariant
import Gvisor.Segment.Lookup

/-! The lock set of a file offset by offset: who holds the lock on each offset, as its
readers and its writer. `Merge` and `Split` of `lockSetFunctions` keep who holds each
offset, so every mutator of the segment set is described offset by offset. The check that
`LockSet.lock` makes before it changes anything covers every lock its loop then changes,
so the loop never reaches a panic of `Lock.lock`. -/

namespace FsLock

open Segment

namespace Lock

/-- Who holds a lock: its readers, and its writer if it has one. -/
def holders (l : Lock) : Finset UniqueID × Option UniqueID :=
  (l.readers, if l.hasWriter then some l.writer else none)

end Lock

/-- Who holds the lock on offset `x`; `none` where no lock covers it. -/
def holdersAt (l : LockSet) (x : ℕ) : Option (Finset UniqueID × Option UniqueID) :=
  readAt (fun _ v _ => v.holders) l x

theorem keepsAt_holders : KeepsAt lockSetFunctions fun _ (v : Lock) _ => v.holders where
  merge r1 v1 r2 v2 m hm _ := by
    simp only [lockSetFunctions] at hm
    split_ifs at hm with hc hs hw hwr
    cases hm
    have hr : v1.readers = v2.readers := Finset.eq_of_subset_of_card_le hs (by omega)
    have hw' : v1.hasWriter = v2.hasWriter := not_not.1 hw
    have hh : v1.holders = v2.holders := by
      simp only [Lock.holders, hr, Prod.mk.injEq, true_and]
      rw [hw']
      split_ifs with h
      · rw [show v1.writer = v2.writer from not_not.1 fun hne => hwr ⟨by rw [hw']; exact h, hne⟩]
      · rfl
    exact ⟨fun _ _ => rfl, fun _ _ => hh⟩
  split _ _ _ _ := ⟨fun _ _ _ => rfl, fun _ _ _ => rfl⟩

/-- From every reachable lock set, `LockSet.lock` on a range of `uint64` offsets returns,
and where `canLock` lets it change the set, every lock that meets the range is one that
`Lock.lock` takes without a panic. -/
theorem lock_never_panics {l : LockSet} (h : Reachable l) (uid : UniqueID) (t : LockType)
    (r : Range) (hr : r.Start ≤ r.End) (hr' : r.End ≤ lockEOF) :
    (canLock l uid t r = true →
      ∀ p ∈ l, r.Start < p.1.End → p.1.Start < r.End → (p.2.lock uid t).isSome) ∧
      ∃ res l', l.lock uid t r = .ok (res, l') := by
  have hinv := h.inv
  refine ⟨fun hcan p hp hs he => ?_, ?_⟩
  · exact isSome_lock (checked_of_canLock hinv.wellFormed hcan p (mem_drop_lowerBoundSegment hp hs) he)
  · obtain ⟨res, l', hl, -⟩ := @lock_ok uid t r l hinv hr hr'
    exact ⟨res, l', hl⟩

theorem lock_never_panics_writer_reader :
    (canLock [(⟨10, 20⟩, ⟨∅, true, 1⟩), (⟨30, 40⟩, ⟨{2}, false, 0⟩)] 2 .readLock ⟨25, 35⟩ = true →
      ∀ p ∈ ([(⟨10, 20⟩, ⟨∅, true, 1⟩), (⟨30, 40⟩, ⟨{2}, false, 0⟩)] : LockSet),
        25 < p.1.End → p.1.Start < 35 → (p.2.lock 2 .readLock).isSome) ∧
      ∃ res l', LockSet.lock [(⟨10, 20⟩, ⟨∅, true, 1⟩), (⟨30, 40⟩, ⟨{2}, false, 0⟩)] 2 .readLock
        ⟨25, 35⟩ = .ok (res, l') :=
  lock_never_panics reachable_writer_reader 2 .readLock ⟨25, 35⟩ (by decide) (by decide)

/-- The uid that holds `[10, 20)` for writing takes a write lock on `[5, 25)`: the lock
returns true, but `[20, 25)` stays unlocked. The gap `[5, 10)` is filled first and merges
into `[10, 20)`, and the loop starts from the segment after the merged one, past the gap
`[20, 25)`. -/
theorem lock_skips_gap_after_merge :
    Reachable [(⟨10, 20⟩, ⟨∅, true, 1⟩)] ∧
      LockSet.lock [(⟨10, 20⟩, ⟨∅, true, 1⟩)] 1 .writeLock ⟨5, 25⟩ =
        .ok (true, [(⟨5, 20⟩, ⟨∅, true, 1⟩)]) ∧
      holdersAt [(⟨10, 20⟩, ⟨∅, true, 1⟩)] 22 = none ∧
      holdersAt [(⟨5, 20⟩, ⟨∅, true, 1⟩)] 22 = none :=
  ⟨reachable_single_writer, by decide, by decide, by decide⟩

section Unlock

/-- Who holds an offset once `uid` has let go of it; nothing where `uid` held it alone. -/
def withoutHolder (uid : UniqueID) :
    Option (Finset UniqueID × Option UniqueID) → Option (Finset UniqueID × Option UniqueID)
  | none => none
  | some (rs, w) =>
    if rs.erase uid = ∅ ∧ (w = none ∨ w = some uid) then none
    else some (rs.erase uid, if w = some uid then none else w)

/-- The lock `u` holds on an offset, by who holds it. -/
def holding (u : UniqueID) : Option (Finset UniqueID × Option UniqueID) → Option LockType
  | none => none
  | some (rs, w) => if w = some u then some .writeLock else if u ∈ rs then some .readLock else none

/-- Letting go of `uid` changes the lock of no other uid. -/
theorem holding_withoutHolder {u uid : UniqueID} (hu : u ≠ uid)
    (h : Option (Finset UniqueID × Option UniqueID)) :
    holding u (withoutHolder uid h) = holding u h := by
  rcases h with _ | ⟨rs, w⟩
  · rfl
  have hr : u ∈ rs.erase uid ↔ u ∈ rs := by rw [Finset.mem_erase, and_iff_right hu]
  by_cases hc : rs.erase uid = ∅ ∧ (w = none ∨ w = some uid)
  · -- nothing is left, so `u` held nothing
    have hw : w ≠ some u := by
      rcases hc.2 with rfl | rfl
      · exact (Option.some_ne_none u).symm
      · exact fun h => hu (Option.some.inj h).symm
    have hr' : u ∉ rs := fun h => by simpa [hc.1] using hr.2 h
    rw [withoutHolder, if_pos hc]
    simp only [holding, hw, hr', if_false]
  · have hw : ((if w = some uid then none else w) = some u) ↔ w = some u := by
      split_ifs with h
      · simp only [h, false_iff, Option.some.injEq]
        exact fun h' => hu h'.symm
      · rfl
    rw [withoutHolder, if_neg hc]
    simp only [holding, hw, hr]

section Lock

variable {v : Lock} {uid : UniqueID}

/-- What the loop of `LockSet.unlock` does to one lock, against `withoutHolder`: the writer
`uid` lets go of it, and it goes. -/
theorem withoutHolder_writer (hv : v.Valid) (h : v.hasWriter = true ∧ v.writer = uid) :
    withoutHolder uid (some v.holders) = none := by
  rcases hv with ⟨-, hr⟩ | ⟨hf, -⟩
  · simp [withoutHolder, Lock.holders, h.1, h.2, hr]
  · rw [h.1] at hf
    cases hf

/-- The one reader `uid` lets go of it, and it goes. -/
theorem withoutHolder_sole_reader (hv : v.Valid) (h : uid ∈ v.readers) (hc : v.readers.card = 1) :
    withoutHolder uid (some v.holders) = none := by
  rcases hv with ⟨-, hr⟩ | ⟨hf, -⟩
  · rw [hr] at h
    exact absurd h (Finset.notMem_empty uid)
  obtain ⟨a, ha⟩ := Finset.card_eq_one.1 hc
  rw [ha, Finset.mem_singleton] at h
  subst h
  simp [withoutHolder, Lock.holders, hf, ha]

/-- One of several readers lets go of it, and the others keep it. -/
theorem withoutHolder_reader (hv : v.Valid) (h : uid ∈ v.readers) (hc : v.readers.card ≠ 1) :
    withoutHolder uid (some v.holders) = some (⟨v.readers.erase uid, false, 0⟩ : Lock).holders := by
  rcases hv with ⟨-, hr⟩ | ⟨hf, -⟩
  · rw [hr] at h
    exact absurd h (Finset.notMem_empty uid)
  have hpos := Finset.card_pos.2 ⟨uid, h⟩
  have hcard := Finset.card_erase_of_mem h
  have hne : v.readers.erase uid ≠ ∅ :=
    Finset.nonempty_iff_ne_empty.1 (Finset.card_pos.1 (show 0 < (v.readers.erase uid).card by omega))
  simp [withoutHolder, Lock.holders, hf, hne]

/-- A lock `uid` does not hold stays as it is. -/
theorem withoutHolder_not_held (hv : v.Valid) (h : v.isHeld uid = false) :
    withoutHolder uid (some v.holders) = some v.holders := by
  simp only [Lock.isHeld, Bool.or_eq_false_iff, Bool.and_eq_false_iff, beq_eq_false_iff_ne,
    decide_eq_false_iff_not] at h
  have he : v.readers.erase uid = v.readers := Finset.erase_eq_of_notMem h.2
  rcases hv with ⟨hw, hr⟩ | ⟨hf, hr⟩
  · have hne : v.writer ≠ uid := h.1.resolve_left (by simp [hw])
    simp [withoutHolder, Lock.holders, hw, he, hne]
  · simp [withoutHolder, Lock.holders, hf, he, Finset.nonempty_iff_ne_empty.1 hr]

end Lock


end Unlock

section UnlockLoop

variable {uid : UniqueID} {r : Range} {H : ℕ → Option (Finset UniqueID × Option UniqueID)}

/-- The loop of `LockSet.unlock` sweeps `r` with `withoutHolder uid`: from a lock set in the
middle of that sweep, whose segments from `seg` on end after `r.Start`, it returns a lock set
that says what the sweep leaves at every offset. -/
theorem unlockLoop_holders (hr : r.Start < r.End) :
    ∀ (fuel : ℕ) (l : LockSet) (seg : ℕ), Inv l → pending r (l.drop seg) < fuel →
      (∀ p ∈ l.drop seg, r.Start < p.1.End) →
      Swept (fun _ (v : Lock) _ => v.holders) (withoutHolder uid) r H l (gapEnd l lockSetFunctions seg) →
      ∃ l', unlockLoop uid r fuel l seg = .ok l' ∧ ∀ x, holdersAt l' x = sweptAt (withoutHolder uid) r H x
  | 0, _, _, _, hp, _, _ => absurd hp (Nat.not_lt_zero _)
  | fuel + 1, l, seg, hinv, hp, hlb, hu => by
    have hw := hinv.wellFormed
    rw [unlockLoop]
    by_cases hs : seg < l.length ∧ segStart l seg < r.End
    swap
    · rw [if_neg hs]
      exact ⟨l, rfl, hu.done rfl hw hs⟩
    rw [if_pos hs]
    rw [drop_eq_cons hs.1] at hp hlb
    rw [pending_cons_of_lt (show (segRange l seg, value l seg).1.Start < r.End from hs.2)] at hp
    have hend : r.Start < segEnd l seg := hlb _ List.mem_cons_self
    have hlb' : ∀ p ∈ l.drop (seg + 1), r.Start < p.1.End :=
      fun p hp => hlb p (List.mem_cons_of_mem _ hp)
    by_cases hheld : (!(value l seg).isHeld uid) = true
    · -- a segment `uid` does not hold is passed over
      rw [if_pos hheld]
      have hkeep := withoutHolder_not_held (hinv.valid.value hs.1) (by simpa using hheld)
      refine unlockLoop_holders hr fuel l (seg + 1) hinv (by omega) hlb'
        (hu.visit rfl hw hs.1 (fun x _ => .inr hkeep) fun x => ?_)
      split_ifs with hx
      · rw [readAt_of_contains hw hs.1 hx]
        exact hkeep.symm
      · rfl
    rw [if_neg hheld]
    obtain ⟨hR, hk⟩ := segRange_isolate (F := lockSetFunctions) hs.1 hr hend hs.2
    have hd := @drop_isolate _ _ lockSetFunctions l seg r hs.1
    have hinv1 : Inv (isolate lockSetFunctions l seg r).1 :=
      ⟨hw.isolate, hinv.valid.isolate preserves_valid⟩
    have hu1 := hu.congr fun x => (readAt_isolate hw keepsAt_holders.split :
      holdersAt (isolate lockSetFunctions l seg r).1 x = holdersAt l x)
    generalize isolate lockSetFunctions l seg r = res at hR hk hd hinv1 hu1 ⊢
    obtain ⟨l1, k⟩ := res
    dsimp only at hR hk hd hinv1 hu1 ⊢
    have hw1 := hinv1.wellFormed
    -- the part of the segment before `r.Start`, which `Isolate` cut off, lies outside `r`
    have hstart : gapEnd l1 lockSetFunctions k = max (segStart l seg) r.Start := by
      rw [gapEnd_of_lt hk, segStart, hR]
    have hu2 : Swept (fun _ (v : Lock) _ => v.holders) (withoutHolder uid) r H l1
        (gapEnd l1 lockSetFunctions k) := by
      refine hu1.advance ?_ fun x hx hx' => ?_
      · rw [hstart, gapEnd_of_lt hs.1]
        exact Nat.le_max_left _ _
      · rw [gapEnd_of_lt hs.1] at hx
        rw [hstart] at hx'
        exact sweptAt_of_not_contains (by omega)
    -- the segment `Isolate` returns lies in `r`
    have hin : ∀ x, (segRange l1 k).contains x → r.contains x := by
      intro x hx
      rw [hR, Range.contains_iff] at hx
      rw [Range.contains_iff]
      dsimp only at hx
      omega
    -- the turns after this one start from the segments after it
    have hnext : ∀ l' seg', l'.drop seg' = l1.drop (k + 1) → Inv l' →
        Swept (fun _ (v : Lock) _ => v.holders) (withoutHolder uid) r H l'
          (gapEnd l1 lockSetFunctions (k + 1)) →
        ∃ l'', unlockLoop uid r fuel l' seg' = .ok l'' ∧
          ∀ x, holdersAt l'' x = sweptAt (withoutHolder uid) r H x := by
      intro l' seg' hdrop hinv' hu'
      refine unlockLoop_holders hr fuel l' seg' hinv' ?_ ?_ ?_
      · rw [hdrop, pending_of_end_piece hd]
        omega
      · rw [hdrop]
        intro p hp
        rcases hd with hd | ⟨e, v, hd⟩
        · exact hlb' p (hd ▸ hp)
        rw [hd] at hp
        rcases List.mem_cons.1 hp with rfl | hp
        · -- the piece cut off at `r.End` ends after it
          have hmem : ((⟨r.End, e⟩ : Range), v) ∈ l1 :=
            List.mem_of_mem_drop (hd ▸ List.mem_cons_self)
          have := hw1.start_lt_end_of_mem hmem
          dsimp only at this ⊢
          omega
        · exact hlb' p hp
      · rwa [gapEnd_eq_of_drop hdrop]
    have hv1 := hinv1.valid.value hk
    dsimp only [remove]
    split_ifs with h1 h2 h3
    · -- `uid` held it for writing: it goes
      refine hnext _ k (List.drop_eraseIdx_self l1 k) ⟨hw1.eraseIdx, hinv1.valid.eraseIdx⟩
        (hu2.visit rfl hw1 hk (fun x hx => .inl (hin x hx)) fun x => ?_)
      rw [readAt_eraseIdx hw1 hk, withoutHolder_writer hv1 h1]
    · -- `uid` was its one reader: it goes
      refine hnext _ k (List.drop_eraseIdx_self l1 k) ⟨hw1.eraseIdx, hinv1.valid.eraseIdx⟩
        (hu2.visit rfl hw1 hk (fun x hx => .inl (hin x hx)) fun x => ?_)
      rw [readAt_eraseIdx hw1 hk, withoutHolder_sole_reader hv1 h2 h3]
    · -- the other readers keep it
      refine hnext _ (k + 1) (drop_setValue_of_lt (Nat.lt_add_one k))
        ⟨hw1.setValue, hinv1.valid.setValue (Lock.valid_erase h2 h3)⟩
        (hu2.visit rfl hw1 hk (fun x hx => .inl (hin x hx)) fun x => ?_)
      rw [readAt_setValue hw1 hk, withoutHolder_reader hv1 h2 h3]
    · -- `uid` does not hold it after all
      have hkeep := withoutHolder_not_held hv1 (by
        rw [Lock.isHeld, Bool.or_eq_false_iff]
        exact ⟨by simpa using h1, by simpa using h2⟩)
      refine hnext l1 (k + 1) rfl hinv1 (hu2.visit rfl hw1 hk (fun x hx => .inl (hin x hx)) fun x => ?_)
      split_ifs with hx
      · rw [readAt_of_contains hw1 hk hx]
        exact hkeep.symm
      · rfl

/-- From every lock set of the invariant, `LockSet.unlock` returns a lock set that says at every
offset what the sweep of `r` with `withoutHolder uid` leaves. -/
theorem unlock_holders {l : LockSet} (hinv : Inv l) (hr : r.Start ≤ r.End) :
    ∃ l', l.unlock uid r = .ok l' ∧
      ∀ x, holdersAt l' x = sweptAt (withoutHolder uid) r (holdersAt l) x := by
  have hw := hinv.wellFormed
  unfold LockSet.unlock
  rw [if_neg (Nat.not_lt.2 hr)]
  by_cases h0 : r.length = 0
  · -- an empty range: nothing to let go of
    rw [if_pos h0]
    refine ⟨l, rfl, fun x => ?_⟩
    simp only [Range.length] at h0
    exact (sweptAt_of_not_contains (by omega)).symm
  rw [if_neg h0]
  have hlt : r.Start < r.End := by
    simp only [Range.length] at h0
    omega
  have hlb : lowerBoundSegment l r.Start ≤ l.length := by
    rw [lowerBoundSegment_eq]
    exact List.findIdx_le_length
  have hp : pending r (l.drop (lowerBoundSegment l r.Start)) < l.length + 1 := by
    have : pending r (l.drop (lowerBoundSegment l r.Start)) ≤ l.length - lowerBoundSegment l r.Start :=
      List.length_drop ▸ pending_le_length
    omega
  refine unlockLoop_holders hlt _ _ _ hinv hp (fun p hp => hw.lt_end_of_mem_drop_lowerBoundSegment hp)
    fun x => ?_
  -- before the first segment that ends after `r.Start`, no offset of `r` is locked
  have hgs : gapStart l lockSetFunctions (lowerBoundSegment l r.Start) ≤ r.Start :=
    gapStart_lowerBoundSegment_le (Nat.zero_le _)
  split_ifs with hx
  · by_cases hxs : r.Start ≤ x
    · exact (sweptAt_of_none rfl (readAt_of_gap hw hlb ⟨by omega, hx⟩)).symm
    · exact (sweptAt_of_not_contains (by omega)).symm
  · rfl

end UnlockLoop

/-- From every reachable lock set, `LockSet.unlock` of `uid` on a range returns a lock set where
each offset of the range is held by who held it before less `uid` (and by no one where `uid`
held it alone), and every other offset as before; so every other uid holds at each offset the
lock it held before. -/
theorem unlock_removes_holder {l : LockSet} (h : Reachable l) (uid : UniqueID) (r : Range)
    (hr : r.Start ≤ r.End) :
    ∃ l', l.unlock uid r = .ok l' ∧
      (∀ x, holdersAt l' x = if r.contains x then withoutHolder uid (holdersAt l x) else holdersAt l x) ∧
      ∀ x u, u ≠ uid → holding u (holdersAt l' x) = holding u (holdersAt l x) := by
  obtain ⟨l', hl, hx⟩ := @unlock_holders uid r l h.inv hr
  refine ⟨l', hl, hx, fun x u hu => ?_⟩
  rw [hx x, sweptAt]
  split_ifs
  · exact holding_withoutHolder hu _
  · rfl

theorem unlock_removes_holder_writer :
    ∃ l', LockSet.unlock [(⟨10, 20⟩, ⟨∅, true, 1⟩)] 1 ⟨12, 15⟩ = .ok l' ∧
      ∀ x, holdersAt l' x = if (⟨12, 15⟩ : Range).contains x then
        withoutHolder 1 (holdersAt [(⟨10, 20⟩, ⟨∅, true, 1⟩)] x)
      else holdersAt [(⟨10, 20⟩, ⟨∅, true, 1⟩)] x := by
  obtain ⟨l', hl, hx, -⟩ := unlock_removes_holder reachable_single_writer 1 ⟨12, 15⟩ (by decide)
  exact ⟨l', hl, hx⟩

end FsLock
