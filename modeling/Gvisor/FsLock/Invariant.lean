import Gvisor.FsLock.Lock
import Gvisor.Segment.WellFormed

/-! Every lock set that the calls of a file reach is a well-formed segment set
whose locks are each held by one writer or by a non-empty set of readers, and
from every such set `LockSet.lock` and `LockSet.unlock` return. The loops of
both calls visit each segment that starts before the end of the range at most
once, which bounds the turns they take; the check `canLock` makes before the
loop of `LockSet.lock` covers every lock that loop then changes. -/

namespace FsLock

open Segment

namespace Lock

/-- A lock is held for writing by one uid and by no reader, or for reading by
some uids. -/
def Valid (l : Lock) : Prop :=
  (l.hasWriter = true ∧ l.readers = ∅) ∨ (l.hasWriter = false ∧ l.readers.Nonempty)

variable {uid u : UniqueID} {t : LockType} {l l' : Lock}

theorem valid_makeLock (uid : UniqueID) (t : LockType) : (makeLock uid t).Valid := by
  cases t with
  | readLock => exact .inr ⟨rfl, Finset.singleton_nonempty uid⟩
  | writeLock => exact .inl ⟨rfl, rfl⟩

theorem Valid.lock (hl : l.Valid) (h : l.lock uid t = some l') : l'.Valid := by
  cases t with
  | readLock =>
    simp only [Lock.lock] at h
    split_ifs at h with h1 h2 h3
    · cases h
      exact hl
    · cases h
      exact .inr ⟨rfl, Finset.singleton_nonempty uid⟩
    · cases h
      exact .inr ⟨by simpa using h2, Finset.insert_nonempty uid l.readers⟩
  | writeLock =>
    simp only [Lock.lock] at h
    split_ifs at h with h1 h2
    · cases h
      exact hl
    · cases h
      exact .inl ⟨rfl, rfl⟩

/-- What `LockSet.unlock` leaves of a read lock with other readers. -/
theorem valid_erase (h : uid ∈ l.readers) (hc : l.readers.card ≠ 1) :
    (⟨l.readers.erase uid, false, 0⟩ : Lock).Valid := by
  have hpos := Finset.card_pos.2 ⟨uid, h⟩
  have hcard := Finset.card_erase_of_mem h
  exact .inr ⟨rfl, Finset.card_pos.1 (show 0 < (l.readers.erase uid).card by omega)⟩

/-- A writer holds a valid lock alone. -/
theorem Valid.eq_of_isHeld (hl : l.Valid) (hw : l.hasWriter = true ∧ l.writer = u)
    (h : l.isHeld uid = true) : uid = u := by
  rcases hl with ⟨-, hr⟩ | ⟨hf, -⟩
  · simp only [isHeld, hw.1, hr, Bool.true_and, Finset.notMem_empty, decide_false, Bool.or_false,
      beq_iff_eq] at h
    rw [← h, hw.2]
  · rw [hw.1] at hf
    cases hf

end Lock

/-- The check `canLock` makes of each lock in the range. -/
def lockCheck (uid : UniqueID) : LockType → Lock → Bool
  | .readLock, value => !value.hasWriter || value.writer == uid
  | .writeLock, value =>
    if !value.hasWriter then value.readers.card == 1 && uid ∈ value.readers
    else value.writer == uid

theorem canLock_eq (l : LockSet) (uid : UniqueID) (t : LockType) (r : Range) :
    canLock l uid t r = lockable l r (lockCheck uid t) := by
  cases t <;> rfl

theorem isSome_lock {uid : UniqueID} {t : LockType} {v : Lock} (h : lockCheck uid t v = true) :
    (v.lock uid t).isSome := by
  cases t with
  | readLock =>
    simp only [lockCheck, Bool.or_eq_true, Bool.not_eq_eq_eq_not, Bool.not_true, beq_iff_eq] at h
    simp only [Lock.lock]
    split_ifs with h1 h2 h3
    · rfl
    · rcases h with h | h
      · rw [h] at h2
        cases h2
      · exact absurd h h3
    · rfl
    · rfl
  | writeLock =>
    simp only [Lock.lock]
    cases hw : v.hasWriter with
    | false =>
      simp only [lockCheck, hw, Bool.not_false, if_true, Bool.and_eq_true, beq_iff_eq,
        decide_eq_true_eq] at h
      rw [if_neg (by simp), if_neg fun h' => h'.2.elim (fun h1 => h1 h.1) (fun h2 => h2 h.2)]
      rfl
    | true =>
      simp only [lockCheck, hw, Bool.not_true, Bool.false_eq_true, if_false, beq_iff_eq] at h
      rw [if_pos ⟨rfl, h⟩]
      rfl

theorem preserves_valid : Preserves lockSetFunctions Lock.Valid where
  merge _ v1 _ _ m h h1 _ := by
    simp only [lockSetFunctions] at h
    split_ifs at h
    cases h
    exact h1
  split_fst _ _ _ h := h
  split_snd _ _ _ h := h

/-- The invariant of every reachable lock set. -/
structure Inv (l : LockSet) : Prop where
  wellFormed : WellFormed lockSetFunctions l
  valid : Vals Lock.Valid l

theorem Inv.nil : Inv [] := ⟨WellFormed.nil, Vals.nil⟩

section Loops

variable {r : Range} {check : Lock → Bool} {xs ys : LockSet} {e : ℕ} {v : Lock}

/-- Every lock of `xs` that starts before the end of `r` passes `check`. -/
def Checked (r : Range) (check : Lock → Bool) (xs : LockSet) : Prop :=
  ∀ p ∈ xs, p.1.Start < r.End → check p.2 = true

/-- The segments of `xs` that start before the end of `r`: what a loop over
`r` has still to visit. -/
def pending (r : Range) (xs : LockSet) : ℕ := xs.countP fun p => p.1.Start < r.End

theorem Checked.drop (h : Checked r check xs) (n : ℕ) : Checked r check (xs.drop n) :=
  fun p hp => h p (List.mem_of_mem_drop hp)

theorem Checked.tail {p : Range × Lock} (h : Checked r check (p :: xs)) : Checked r check xs :=
  fun q hq => h q (List.mem_cons_of_mem p hq)

theorem Checked.cons_end (h : Checked r check xs) : Checked r check ((⟨r.End, e⟩, v) :: xs) := by
  intro p hp hlt
  rcases List.mem_cons.1 hp with rfl | hp
  · exact absurd hlt (Nat.lt_irrefl _)
  · exact h p hp hlt

theorem pending_cons_of_lt {p : Range × Lock} (h : p.1.Start < r.End) :
    pending r (p :: xs) = pending r xs + 1 :=
  List.countP_cons_of_pos (by simpa using h)

theorem pending_cons_end : pending r ((⟨r.End, e⟩, v) :: xs) = pending r xs :=
  List.countP_cons_of_neg (by simp)

theorem pending_drop_le (n : ℕ) : pending r (xs.drop n) ≤ pending r xs :=
  (List.drop_sublist n xs).countP_le

theorem pending_le_length : pending r xs ≤ xs.length := List.countP_le_length

/-- A suffix that is the old one, or the old one behind a piece starting at
`r.End`, has the same segments to visit. -/
theorem pending_of_end_piece (h : ys = xs ∨ ∃ e v, ys = (⟨r.End, e⟩, v) :: xs) :
    pending r ys = pending r xs := by
  rcases h with rfl | ⟨e, v, rfl⟩
  · rfl
  · exact pending_cons_end

theorem Checked.of_end_piece (h : ys = xs ∨ ∃ e v, ys = (⟨r.End, e⟩, v) :: xs)
    (hc : Checked r check xs) : Checked r check ys := by
  rcases h with rfl | ⟨e, v, rfl⟩
  · exact hc
  · exact hc.cons_end

/-- `lockable` checks every lock from its starting point on that starts
before the end of the range. -/
theorem checked_of_lockableLoop :
    ∀ {xs : LockSet}, xs.Pairwise (fun p q => p.1.Start ≤ q.1.Start) →
      lockableLoop r check xs = true → Checked r check xs
  | [], _, _ => fun _ h => absurd h List.not_mem_nil
  | (sr, v) :: rest, hs, h => by
    rw [List.pairwise_cons] at hs
    simp only [lockableLoop] at h
    intro p hp hlt
    split_ifs at h with hsr
    · rw [Bool.and_eq_true] at h
      rcases List.mem_cons.1 hp with rfl | hp
      · exact h.1
      · exact checked_of_lockableLoop hs.2 h.2 p hp hlt
    · rcases List.mem_cons.1 hp with rfl | hp
      · exact absurd hlt hsr
      · exact absurd (Nat.lt_of_le_of_lt (hs.1 p hp) hlt) hsr

theorem checked_of_canLock {l : LockSet} {uid : UniqueID} {t : LockType}
    (hw : WellFormed lockSetFunctions l) (h : canLock l uid t r = true) :
    Checked r (lockCheck uid t) (l.drop (lowerBoundSegment l r.Start)) := by
  rw [canLock_eq, lockable] at h
  exact checked_of_lockableLoop (hw.pairwise_start.sublist (List.drop_sublist _ _)) h

end Loops

section LockLoop

variable {uid : UniqueID} {t : LockType} {r : Range}

/-- The split at `r.End` at the head of a turn of the loop of `LockSet.lock`
keeps the invariant and the lock at `seg`, and adds at most a piece starting at
`r.End` to the segments after it. -/
theorem splitEnd_spec {l l1 : LockSet} {seg : ℕ} (hinv : Inv l) (hs : seg < l.length)
    (hstart : segStart l seg < r.End)
    (hl1 : l1 = if segEnd l seg > r.End then (splitUnchecked lockSetFunctions l seg r.End).1 else l) :
    Inv l1 ∧ seg < l1.length ∧ value l1 seg = value l seg ∧
      (l1.drop (seg + 1) = l.drop (seg + 1) ∨
        ∃ e v, l1.drop (seg + 1) = (⟨r.End, e⟩, v) :: l.drop (seg + 1)) := by
  split_ifs at hl1 with h
  · subst hl1
    have hsplit : (segRange l seg).canSplitAt r.End = true := Range.canSplitAt_iff.2 ⟨hstart, h⟩
    refine ⟨⟨hinv.wellFormed.splitUnchecked hsplit, hinv.valid.splitUnchecked preserves_valid hs⟩,
      ?_, value_splitUnchecked_self hs, .inr ⟨_, _, drop_succ_splitUnchecked hs⟩⟩
    rw [length_splitUnchecked hs]
    omega
  · subst hl1
    exact ⟨hinv, hs, rfl, .inl rfl⟩

/-- The loop of `LockSet.lock` returns when it has more turns than segments to
visit and every lock it visits passes the check of `canLock`, and it keeps the
invariant. -/
theorem lockLoop_ok : ∀ (fuel : ℕ) (l : LockSet) (seg : ℕ), Inv l →
    Checked r (lockCheck uid t) (l.drop seg) → pending r (l.drop seg) < fuel →
    ∃ l', lockLoop uid t r fuel l seg = .ok l' ∧ Inv l'
  | 0, _, _, _, _, hp => absurd hp (Nat.not_lt_zero _)
  | fuel + 1, l, seg, hinv, hc, hp => by
    rw [lockLoop]
    by_cases hs : seg < l.length ∧ segStart l seg < r.End
    swap
    · rw [if_neg hs]
      exact ⟨l, rfl, hinv⟩
    rw [if_pos hs]
    rw [drop_eq_cons hs.1] at hc hp
    rw [pending_cons_of_lt (show (segRange l seg, value l seg).1.Start < r.End from hs.2)] at hp
    have hchk : lockCheck uid t (value l seg) = true := hc _ List.mem_cons_self hs.2
    obtain ⟨v, hv⟩ := Option.isSome_iff_exists.1 (isSome_lock hchk)
    dsimp only
    generalize hl1 : (if segEnd l seg > r.End then (splitUnchecked lockSetFunctions l seg r.End).1
      else l) = l1
    obtain ⟨hinv1, hlt1, hval1, hdrop1⟩ := splitEnd_spec hinv hs.1 hs.2 hl1.symm
    have hc1 := hc.tail.of_end_piece hdrop1
    have hp1 := pending_of_end_piece hdrop1
    rw [hval1, hv]
    dsimp only
    have hvalid : v.Valid := (hval1 ▸ hinv1.valid.value hlt1).lock hv
    have hinv2 : Inv (Segment.setValue l1 seg v) := ⟨hinv1.wellFormed.setValue, hinv1.valid.setValue hvalid⟩
    have hdrop2 : (Segment.setValue l1 seg v).drop (seg + 1) = l1.drop (seg + 1) :=
      drop_setValue_of_lt (Nat.lt_succ_self seg)
    have hlen2 : seg + 1 ≤ (Segment.setValue l1 seg v).length := by
      rw [length_setValue]
      exact hlt1
    split_ifs with hgr
    · rw [insertChecked_of_inGap (inGap_intersect hlen2 hgr)]
      have hspec := insert_spec lockSetFunctions (Segment.setValue l1 seg v) (seg + 1)
        ((gapRange (Segment.setValue l1 seg v) lockSetFunctions (seg + 1)).intersect r) (makeLock uid t)
      generalize insert lockSetFunctions (Segment.setValue l1 seg v) (seg + 1)
        ((gapRange (Segment.setValue l1 seg v) lockSetFunctions (seg + 1)).intersect r)
        (makeLock uid t) = res at hspec ⊢
      obtain ⟨l3, k⟩ := res
      obtain ⟨n, -, hd⟩ := hspec.drop hlen2
      have hdn : (Segment.setValue l1 seg v).drop (seg + 1 + n) = (l1.drop (seg + 1)).drop n := by
        rw [← hdrop2, List.drop_drop]
      rw [hdn] at hd
      refine lockLoop_ok fuel l3 (k + 1)
        ⟨hspec.wellFormed hinv2.wellFormed (inGap_intersect hlen2 hgr),
          hspec.vals hinv2.valid preserves_valid (Lock.valid_makeLock uid t) hlen2⟩
        (hd ▸ hc1.drop n) ?_
      have : pending r ((l1.drop (seg + 1)).drop n) ≤ pending r (l1.drop (seg + 1)) :=
        pending_drop_le n
      rw [hd]
      omega
    · refine lockLoop_ok fuel _ (seg + 1) hinv2 (hdrop2 ▸ hc1) ?_
      rw [hdrop2]
      omega

theorem lockLoop_from_ok {l : LockSet} {seg : ℕ} (hinv : Inv l)
    (hc : Checked r (lockCheck uid t) (l.drop seg)) :
    ∃ res l', (do let l ← lockLoop uid t r (l.length + 1) l seg; pure (true, l) :
      Outcome Unit (Bool × LockSet)) = .ok (res, l') ∧ Inv l' := by
  have hp : pending r (l.drop seg) < l.length + 1 := by
    have : pending r (l.drop seg) ≤ l.length - seg := List.length_drop ▸ pending_le_length
    omega
  obtain ⟨l', h, hinv'⟩ := lockLoop_ok (l.length + 1) l seg hinv hc hp
  exact ⟨true, l', by rw [h]; rfl, hinv'⟩

/-- From every lock set of the invariant, `LockSet.lock` on a range of
`uint64` offsets returns, and the set it returns keeps the invariant. -/
theorem lock_ok {l : LockSet} (hinv : Inv l) (hr : r.Start ≤ r.End) (hr' : r.End ≤ lockEOF) :
    ∃ res l', l.lock uid t r = .ok (res, l') ∧ Inv l' := by
  unfold LockSet.lock
  rw [if_neg (Nat.not_lt.2 hr)]
  by_cases h0 : r.length = 0
  · exact ⟨true, l, by rw [if_pos h0], hinv⟩
  rw [if_neg h0]
  by_cases hcan : canLock l uid t r = true
  swap
  · exact ⟨false, l, by rw [if_pos (by simpa using hcan)], hinv⟩
  rw [if_neg (by simpa using hcan)]
  have hlt : r.Start < r.End := by
    simp only [Range.length] at h0
    omega
  have hchk := checked_of_canLock hinv.wellFormed hcan
  rcases @find_cases _ _ lockSetFunctions l r.Start (Nat.zero_le _) (Nat.lt_of_lt_of_le hlt hr') with
    ⟨seg, hf, hseg, h1, h2⟩ | ⟨gap, hf, hgap, h1, h2⟩
  · have hlb : lowerBoundSegment l r.Start = seg := by
      simp only [lowerBoundSegment, hf, if_pos hseg]
    rw [hlb, drop_eq_cons hseg] at hchk
    rw [hf]
    dsimp only
    rw [if_neg (Nat.lt_irrefl _)]
    by_cases hss : segStart l seg < r.Start
    · have hsplit : (segRange l seg).canSplitAt r.Start = true := Range.canSplitAt_iff.2 ⟨hss, h2⟩
      rw [if_pos hss, split_of_canSplitAt hsplit]
      have hinv1 : Inv (splitUnchecked lockSetFunctions l seg r.Start).1 :=
        ⟨hinv.wellFormed.splitUnchecked hsplit, hinv.valid.splitUnchecked preserves_valid hseg⟩
      have hc1 : Checked r (lockCheck uid t)
          ((splitUnchecked lockSetFunctions l seg r.Start).1.drop (seg + 1)) := by
        rw [drop_succ_splitUnchecked hseg]
        intro p hp hpe
        rcases List.mem_cons.1 hp with rfl | hp
        · exact hchk (segRange l seg, value l seg) List.mem_cons_self (Nat.lt_trans hss hlt)
        · exact hchk.tail p hp hpe
      exact lockLoop_from_ok hinv1 hc1
    · rw [if_neg hss]
      rw [← drop_eq_cons hseg] at hchk
      exact lockLoop_from_ok hinv hchk
  · have hlb : lowerBoundSegment l r.Start = gap := by
      simp only [lowerBoundSegment, hf, if_neg (Nat.lt_irrefl _)]
    rw [hlb] at hchk
    rw [hf]
    dsimp only
    have hgr : 0 < ((gapRange l lockSetFunctions gap).intersect r).length := by
      simp only [Range.length, Range.intersect_start, Range.intersect_end, gapRange]
      omega
    rw [if_pos (Nat.lt_succ_of_le hgap), insertChecked_of_inGap (inGap_intersect hgap hgr)]
    have hspec := insert_spec lockSetFunctions l gap ((gapRange l lockSetFunctions gap).intersect r)
      (makeLock uid t)
    obtain ⟨n, -, hd⟩ := hspec.drop hgap
    rw [show l.drop (gap + n) = (l.drop gap).drop n by rw [List.drop_drop]] at hd
    have hinv1 : Inv (Segment.insert lockSetFunctions l gap
        ((gapRange l lockSetFunctions gap).intersect r) (makeLock uid t)).1 :=
      ⟨hspec.wellFormed hinv.wellFormed (inGap_intersect hgap hgr),
        hspec.vals hinv.valid preserves_valid (Lock.valid_makeLock uid t) hgap⟩
    exact lockLoop_from_ok hinv1 (hd ▸ hchk.drop n)

end LockLoop

section UnlockLoop

variable {uid : UniqueID} {r : Range}

/-- The loop of `LockSet.unlock` returns when it has more turns than segments
to visit, and it keeps the invariant. -/
theorem unlockLoop_ok : ∀ (fuel : ℕ) (l : LockSet) (seg : ℕ), Inv l →
    pending r (l.drop seg) < fuel → ∃ l', unlockLoop uid r fuel l seg = .ok l' ∧ Inv l'
  | 0, _, _, _, hp => absurd hp (Nat.not_lt_zero _)
  | fuel + 1, l, seg, hinv, hp => by
    rw [unlockLoop]
    by_cases hs : seg < l.length ∧ segStart l seg < r.End
    swap
    · rw [if_neg hs]
      exact ⟨l, rfl, hinv⟩
    rw [if_pos hs]
    rw [drop_eq_cons hs.1,
      pending_cons_of_lt (show (segRange l seg, value l seg).1.Start < r.End from hs.2)] at hp
    by_cases hheld : (!(value l seg).isHeld uid) = true
    · rw [if_pos hheld]
      exact unlockLoop_ok fuel l (seg + 1) hinv (by omega)
    rw [if_neg hheld]
    have hd := @drop_isolate _ _ lockSetFunctions l seg r hs.1
    have hinv1 : Inv (isolate lockSetFunctions l seg r).1 :=
      ⟨hinv.wellFormed.isolate, hinv.valid.isolate preserves_valid⟩
    generalize isolate lockSetFunctions l seg r = res at hd hinv1 ⊢
    obtain ⟨l1, k⟩ := res
    dsimp only at hd hinv1
    have hp1 := pending_of_end_piece hd
    have hinv2 : Inv (l1.eraseIdx k) := ⟨hinv1.wellFormed.eraseIdx, hinv1.valid.eraseIdx⟩
    have hp2 : pending r ((l1.eraseIdx k).drop k) < fuel := by
      rw [List.drop_eraseIdx_self]
      omega
    dsimp only [remove]
    split_ifs with h1 h2 h3
    · exact unlockLoop_ok fuel _ k hinv2 hp2
    · exact unlockLoop_ok fuel _ k hinv2 hp2
    · refine unlockLoop_ok fuel _ (k + 1)
        ⟨hinv1.wellFormed.setValue, hinv1.valid.setValue (Lock.valid_erase h2 h3)⟩ ?_
      rw [drop_setValue_of_lt (Nat.lt_add_one k)]
      omega
    · exact unlockLoop_ok fuel l1 (k + 1) hinv1 (by omega)

/-- From every lock set of the invariant, `LockSet.unlock` returns, and the
set it returns keeps the invariant. -/
theorem unlock_ok {l : LockSet} (hinv : Inv l) (hr : r.Start ≤ r.End) :
    ∃ l', l.unlock uid r = .ok l' ∧ Inv l' := by
  unfold LockSet.unlock
  rw [if_neg (Nat.not_lt.2 hr)]
  split_ifs with h0
  · exact ⟨l, rfl, hinv⟩
  · have : pending r (l.drop (lowerBoundSegment l r.Start)) ≤ l.length - lowerBoundSegment l r.Start :=
      List.length_drop ▸ pending_le_length
    exact unlockLoop_ok _ _ _ hinv (by omega)

end UnlockLoop

theorem Inv.step {l l' : LockSet} (hinv : Inv l) (h : Step l l') : Inv l' := by
  cases h with
  | lock uid t r res hr hr' hl =>
    obtain ⟨res', l'', h', hinv'⟩ := @lock_ok uid t r _ hinv hr hr'
    rw [hl] at h'
    cases h'
    exact hinv'
  | unlock uid r hr _ hl =>
    obtain ⟨l'', h', hinv'⟩ := @unlock_ok uid r _ hinv hr
    rw [hl] at h'
    cases h'
    exact hinv'

theorem Reachable.inv {l : LockSet} (h : Reachable l) : Inv l :=
  Transition.Reachable.invariant Inv (fun _ h => by subst h; exact Inv.nil)
    (fun _ _ hi hs => hi.step hs) h

/-- `uid` holds a lock on the offset `x`. -/
def heldAt (l : LockSet) (x : ℕ) (uid : UniqueID) : Bool :=
  l.any fun p => p.1.contains x && p.2.isHeld uid

/-- `uid` holds the write lock on the offset `x`. -/
def writeHeldAt (l : LockSet) (x : ℕ) (uid : UniqueID) : Bool :=
  l.any fun p => p.1.contains x && p.2.hasWriter && p.2.writer == uid

/-- Where a uid holds the write lock, no other uid holds a lock. -/
theorem Inv.eq_of_writeHeldAt {l : LockSet} {x : ℕ} {u u' : UniqueID} (hinv : Inv l)
    (hw : writeHeldAt l x u = true) (hh : heldAt l x u' = true) : u' = u := by
  simp only [writeHeldAt, heldAt, List.any_eq_true, Bool.and_eq_true, beq_iff_eq] at hw hh
  obtain ⟨p, hp, ⟨hpx, hpw⟩, hpu⟩ := hw
  obtain ⟨q, hq, hqx, hqu⟩ := hh
  obtain rfl := hinv.wellFormed.eq_of_contains hp hq hpx hqx
  exact (hinv.valid p hp).eq_of_isHeld ⟨hpw, hpu⟩ hqu

/-- In every lock set the calls reach, each lock is held by one writer alone
or by a non-empty set of readers, so that where a uid holds the write lock no
other uid holds a lock; and from each such set every call of `LockSet.lock`
and `LockSet.unlock` on a range of `uint64` offsets returns. -/
theorem reachable_lockSet {l : LockSet} (h : Reachable l) :
    (∀ p ∈ l, p.2.Valid) ∧
    (∀ x u u', writeHeldAt l x u = true → heldAt l x u' = true → u' = u) ∧
    (∀ uid t r, r.Start ≤ r.End → r.End ≤ lockEOF → ∃ res l', l.lock uid t r = .ok (res, l')) ∧
    (∀ uid r, r.Start ≤ r.End → r.End ≤ lockEOF → ∃ l', l.unlock uid r = .ok l') := by
  have hinv := h.inv
  refine ⟨hinv.valid, fun x u u' hw hh => hinv.eq_of_writeHeldAt hw hh, ?_, ?_⟩
  · intro uid t r hr hr'
    obtain ⟨res, l', hl, -⟩ := @lock_ok uid t r l hinv hr hr'
    exact ⟨res, l', hl⟩
  · intro uid r hr _
    obtain ⟨l', hl, -⟩ := @unlock_ok uid r l hinv hr
    exact ⟨l', hl⟩

/-- The uid 1 holds `[10, 20)` for writing. -/
theorem reachable_single_writer : Reachable [(⟨10, 20⟩, ⟨∅, true, 1⟩)] :=
  (Transition.Reachable.of_init rfl : Reachable []).tail
    (Step.lock [] [(⟨10, 20⟩, ⟨∅, true, 1⟩)] 1 .writeLock ⟨10, 20⟩ true (by decide) (by decide)
      (by decide))

/-- Then the uid 2 takes a read lock on `[30, 40)`. -/
theorem reachable_writer_reader :
    Reachable [(⟨10, 20⟩, ⟨∅, true, 1⟩), (⟨30, 40⟩, ⟨{2}, false, 0⟩)] :=
  reachable_single_writer.tail
    (Step.lock _ _ 2 .readLock ⟨30, 40⟩ true (by decide) (by decide) (by decide))

theorem reachable_lockSet_writer_reader :
    (∀ p ∈ ([(⟨10, 20⟩, ⟨∅, true, 1⟩), (⟨30, 40⟩, ⟨{2}, false, 0⟩)] : LockSet), p.2.Valid) ∧
    (∀ x u u', writeHeldAt [(⟨10, 20⟩, ⟨∅, true, 1⟩), (⟨30, 40⟩, ⟨{2}, false, 0⟩)] x u = true →
      heldAt [(⟨10, 20⟩, ⟨∅, true, 1⟩), (⟨30, 40⟩, ⟨{2}, false, 0⟩)] x u' = true → u' = u) ∧
    (∀ uid t r, r.Start ≤ r.End → r.End ≤ lockEOF → ∃ res l',
      LockSet.lock [(⟨10, 20⟩, ⟨∅, true, 1⟩), (⟨30, 40⟩, ⟨{2}, false, 0⟩)] uid t r = .ok (res, l')) ∧
    (∀ uid r, r.Start ≤ r.End → r.End ≤ lockEOF → ∃ l',
      LockSet.unlock [(⟨10, 20⟩, ⟨∅, true, 1⟩), (⟨30, 40⟩, ⟨{2}, false, 0⟩)] uid r = .ok l') :=
  reachable_lockSet reachable_writer_reader

end FsLock
