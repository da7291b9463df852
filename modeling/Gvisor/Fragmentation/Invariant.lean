import Mathlib
import Gvisor.Fragmentation.Process
import Gvisor.Lib.List

set_option linter.dupNamespace false

/-! What `Process` keeps of a `Fragmentation` when calls run one at a time:
the map and the list hold the same reassemblers, none of them done, the list
has no repeats, and the count of bytes is the sum of what the listed
reassemblers hold. The count then never goes negative in `release`, so nothing
is ever logged; and as the eviction loop stops at the low limit or at the
front of the list, the count is at most the high limit after every call, when
that limit is not negative. -/

namespace Fragmentation

namespace Fragmentation

variable {f f' : Fragmentation} {h x : ℕ} {id : UInt32} {now : Int} {first last : UInt16}
  {more : Bool} {vv : List UInt8} {done : Bool} {consumed : ℕ}

/-- The bytes held by the reassemblers on the list. -/
def heldBytes (f : Fragmentation) : ℕ := (f.rList.map fun h => (f.store h).size).sum

structure Consistent (f : Fragmentation) : Prop where
  nodup : f.rList.Nodup
  map_iff : ∀ id h, f.reassemblers id = some h ↔ h ∈ f.rList ∧ (f.store h).id = id
  not_done : ∀ h ∈ f.rList, (f.store h).done = false
  fresh : ∀ h ∈ f.rList, h < f.next
  size_eq : f.size = f.heldBytes
  logged : f.logged = []

/-! ### `release` -/

/-- `release` changes the reassemblers, the list, the count and the log, and
nothing else. -/
theorem release_eq_with (f : Fragmentation) (h : ℕ) : ∃ store reassemblers rList size logged,
    f.release h = { f with store, reassemblers, rList, size, logged } := by
  unfold release
  dsimp only [Reassembler.checkDoneOrMark]
  split
  · exact ⟨_, _, _, _, _, rfl⟩
  · split
    · exact ⟨_, _, _, _, _, rfl⟩
    · exact ⟨_, _, _, _, _, rfl⟩

@[simp] theorem highLimit_release : (f.release h).highLimit = f.highLimit := by
  obtain ⟨_, _, _, _, _, he⟩ := release_eq_with f h
  rw [he]

@[simp] theorem lowLimit_release : (f.release h).lowLimit = f.lowLimit := by
  obtain ⟨_, _, _, _, _, he⟩ := release_eq_with f h
  rw [he]

@[simp] theorem next_release : (f.release h).next = f.next := by
  obtain ⟨_, _, _, _, _, he⟩ := release_eq_with f h
  rw [he]

theorem Consistent.eq_of_id (hc : f.Consistent) {y : ℕ} (hx : x ∈ f.rList) (hy : y ∈ f.rList)
    (hid : (f.store x).id = (f.store y).id) : x = y := by
  have h1 := (hc.map_iff _ x).2 ⟨hx, hid⟩
  have h2 := (hc.map_iff _ y).2 ⟨hy, rfl⟩
  rw [h1] at h2
  exact Option.some.inj h2

theorem size_le_heldBytes (hh : h ∈ f.rList) : (f.store h).size ≤ f.heldBytes := by
  rw [heldBytes, ← List.sum_map_erase _ hh]
  omega

/-- `release` of a listed reassembler: the count stays at least zero, so the
branch that logs is not taken. -/
theorem Consistent.release_eq (hc : f.Consistent) (hh : h ∈ f.rList) :
    f.release h = { f with
      store := Function.update f.store h { f.store h with done := true }
      reassemblers := Function.update f.reassemblers (f.store h).id none
      rList := f.rList.erase h
      size := f.size - (f.store h).size } := by
  have hs := size_le_heldBytes hh
  simp only [release, Reassembler.checkDoneOrMark, hc.not_done h hh, Bool.false_eq_true, if_false]
  rw [if_neg (by rw [hc.size_eq]; omega)]

theorem Consistent.release (hc : f.Consistent) (hh : h ∈ f.rList) : (f.release h).Consistent := by
  rw [hc.release_eq hh]
  have hmem : ∀ {x}, x ∈ f.rList.erase h ↔ x ≠ h ∧ x ∈ f.rList := hc.nodup.mem_erase_iff
  constructor
  · exact hc.nodup.erase h
  · intro id x
    by_cases hx : x = h
    · -- the released one is in neither the map nor the list
      subst hx
      simp only [hmem, ne_eq, not_true_eq_false, false_and, iff_false]
      by_cases hid : id = (f.store x).id
      · rw [hid, Function.update_self]
        exact (Option.some_ne_none x).symm
      · rw [Function.update_of_ne hid, hc.map_iff]
        exact fun h' => hid h'.2.symm
    · simp only [hmem, Function.update_of_ne hx, ne_eq, hx, not_false_eq_true, true_and]
      by_cases hid : id = (f.store h).id
      · rw [hid, Function.update_self]
        exact ⟨fun h' => absurd h' (Option.some_ne_none x).symm,
          fun h' => absurd (hc.eq_of_id h'.1 hh h'.2) hx⟩
      · rw [Function.update_of_ne hid, hc.map_iff]
  · intro x hx
    dsimp only at hx ⊢
    rw [Function.update_of_ne (hmem.1 hx).1]
    exact hc.not_done x (hmem.1 hx).2
  · exact fun x hx => hc.fresh x (hmem.1 hx).2
  · have hsum := List.sum_map_erase (fun x => (f.store x).size) hh
    dsimp only [heldBytes]
    rw [List.map_update_of_not_mem f.store _ (fun r => r.size) hc.nodup.not_mem_erase, hc.size_eq,
      heldBytes, ← hsum]
    push_cast
    omega
  · exact hc.logged

/-! ### The lookup -/

theorem Consistent.addReassembler (hc : f.Consistent) (hid : f.reassemblers id = none) :
    (f.addReassembler id now).1.Consistent := by
  have hfresh : f.next ∉ f.rList := fun h' => Nat.lt_irrefl _ (hc.fresh _ h')
  constructor
  · exact List.nodup_cons.2 ⟨hfresh, hc.nodup⟩
  · intro id' x
    simp only [Fragmentation.addReassembler, List.mem_cons]
    by_cases hx : x = f.next
    · subst hx
      simp only [Function.update_self, true_or, true_and, newReassembler]
      by_cases hid' : id' = id
      · simp [hid']
      · rw [Function.update_of_ne hid', hc.map_iff]
        exact ⟨fun h' => absurd h'.1 hfresh, fun h' => absurd h'.symm hid'⟩
    · simp only [Function.update_of_ne hx, hx, false_or]
      by_cases hid' : id' = id
      · rw [hid', Function.update_self]
        refine ⟨fun h' => absurd (Option.some.inj h').symm hx, fun h' => ?_⟩
        rw [(hc.map_iff id x).2 h'] at hid
        exact absurd hid (Option.some_ne_none x)
      · rw [Function.update_of_ne hid', hc.map_iff]
  · intro x hx
    simp only [Fragmentation.addReassembler, List.mem_cons] at hx ⊢
    rcases hx with rfl | hx
    · rw [Function.update_self]
      rfl
    · rw [Function.update_of_ne (ne_of_mem_of_not_mem hx hfresh)]
      exact hc.not_done x hx
  · intro x hx
    simp only [Fragmentation.addReassembler, List.mem_cons] at hx ⊢
    rcases hx with rfl | hx
    · exact Nat.lt_add_one _
    · exact Nat.lt_add_right 1 (hc.fresh x hx)
  · simp only [Fragmentation.addReassembler, heldBytes, List.map_cons, List.sum_cons, Function.update_self]
    rw [List.map_update_of_not_mem f.store _ (fun r => r.size) hfresh, hc.size_eq, heldBytes]
    simp [newReassembler]
  · exact hc.logged

theorem Consistent.processLookup (hc : f.Consistent) :
    (f.processLookup id now).1.Consistent ∧
      (f.processLookup id now).2 ∈ (f.processLookup id now).1.rList := by
  unfold Fragmentation.processLookup
  split
  · rename_i h hmap
    obtain ⟨hh, hid⟩ := (hc.map_iff id h).1 hmap
    split_ifs
    · -- too old: released, and a new one added in its place
      have hnone : (f.release h).reassemblers id = none := by
        rw [hc.release_eq hh]
        simp only [hid, Function.update_self]
      exact ⟨(hc.release hh).addReassembler hnone, List.mem_cons_self⟩
    · exact ⟨hc, hh⟩
  · rename_i hmap
    exact ⟨hc.addReassembler hmap, List.mem_cons_self⟩

@[simp] theorem highLimit_processLookup : (f.processLookup id now).1.highLimit = f.highLimit := by
  unfold processLookup
  split
  · split_ifs
    · exact highLimit_release
    · rfl
  · rfl

@[simp] theorem lowLimit_processLookup : (f.processLookup id now).1.lowLimit = f.lowLimit := by
  unfold processLookup
  split
  · split_ifs
    · exact lowLimit_release
    · rfl
  · rfl

/-! ### The reassembly and the accounting -/

theorem processReassemble_eq_ok {res : List UInt8}
    (hr : f.processReassemble h first last more vv = .ok (f', res, done, consumed)) :
    ∃ r', f' = { f with store := Function.update f.store h r' } ∧ r'.id = (f.store h).id ∧
      r'.done = (f.store h).done ∧ r'.size = (f.store h).size + consumed := by
  obtain ⟨⟨res', r'⟩, hp, hpure⟩ := Outcome.bind_eq_ok.1 hr
  simp only [Outcome.pure_eq, Outcome.ok.injEq, Prod.mk.injEq] at hpure
  obtain ⟨rfl, rfl, rfl, rfl⟩ := hpure
  obtain ⟨hid, hd, -, hs⟩ := Reassembler.process_eq_ok hp
  exact ⟨r', rfl, hid, hd, hs⟩

/-- After the reassembler's `process`, the count plus what it consumed is the
sum again. -/
theorem Consistent.processReassemble (hc : f.Consistent) (hh : h ∈ f.rList) {res : List UInt8}
    (hr : f.processReassemble h first last more vv = .ok (f', res, done, consumed)) :
    ({ f' with size := f'.size + consumed } : Fragmentation).Consistent ∧ f'.rList = f.rList ∧
      f'.highLimit = f.highLimit ∧ f'.lowLimit = f.lowLimit := by
  obtain ⟨r', rfl, hid, hd, hs⟩ := processReassemble_eq_ok hr
  have hidx : ∀ x, (Function.update f.store h r' x).id = (f.store x).id := by
    intro x
    by_cases hx : x = h
    · rw [hx, Function.update_self, hid]
    · rw [Function.update_of_ne hx]
  refine ⟨⟨hc.nodup, ?_, ?_, hc.fresh, ?_, hc.logged⟩, rfl, rfl, rfl⟩
  · intro id x
    simp only [hidx]
    exact hc.map_iff id x
  · intro x hx
    by_cases hxh : x = h
    · simp only [hxh, Function.update_self, hd]
      exact hc.not_done h hh
    · simp only [Function.update_of_ne hxh]
      exact hc.not_done x hx
  · have hsum := List.sum_map_update f.store r' (fun r => r.size) hc.nodup hh
    simp only [heldBytes] at hsum ⊢
    rw [hc.size_eq, heldBytes]
    omega

@[simp] theorem highLimit_evictLoop : ∀ (l : List ℕ) (f : Fragmentation),
    (f.evictLoop l).highLimit = f.highLimit
  | [], _ => rfl
  | h :: l, f => by
    rw [evictLoop]
    split_ifs
    · rw [highLimit_evictLoop l, highLimit_release]
    · rfl

@[simp] theorem lowLimit_evictLoop : ∀ (l : List ℕ) (f : Fragmentation),
    (f.evictLoop l).lowLimit = f.lowLimit
  | [], _ => rfl
  | h :: l, f => by
    rw [evictLoop]
    split_ifs
    · rw [lowLimit_evictLoop l, lowLimit_release]
    · rfl

/-- The eviction loop over listed reassemblers keeps the consistency, only
removes from the list, and stops at the low limit or when it has removed all
of them. -/
theorem Consistent.evictLoop : ∀ {l : List ℕ} {f : Fragmentation}, f.Consistent → l.Nodup →
    (∀ x ∈ l, x ∈ f.rList) →
    (f.evictLoop l).Consistent ∧ (∀ x ∈ (f.evictLoop l).rList, x ∈ f.rList) ∧
      ((f.evictLoop l).size ≤ f.lowLimit ∨ ∀ x ∈ l, x ∉ (f.evictLoop l).rList)
  | [], f, hc, _, _ => ⟨hc, fun _ hx => hx, .inr fun _ hx => absurd hx List.not_mem_nil⟩
  | h :: l, f, hc, hnd, hl => by
    rw [Fragmentation.evictLoop]
    split_ifs with hs
    · have hh := hl h List.mem_cons_self
      have hmem : ∀ {x}, x ∈ (f.release h).rList ↔ x ≠ h ∧ x ∈ f.rList := by
        intro x
        rw [hc.release_eq hh]
        exact hc.nodup.mem_erase_iff
      have hnd' := List.nodup_cons.1 hnd
      obtain ⟨hc', hsub, hdone⟩ := (hc.release hh).evictLoop hnd'.2 fun x hx =>
        hmem.2 ⟨ne_of_mem_of_not_mem hx hnd'.1, hl x (List.mem_cons_of_mem h hx)⟩
      refine ⟨hc', fun x hx => (hmem.1 (hsub x hx)).2, ?_⟩
      rw [lowLimit_release] at hdone
      rcases hdone with hdone | hdone
      · exact .inl hdone
      · refine .inr fun x hx hx' => ?_
        rcases List.mem_cons.1 hx with rfl | hx
        · exact (hmem.1 (hsub x hx')).1 rfl
        · exact hdone x hx hx'
    · exact ⟨hc, fun _ hx => hx, .inl (Int.not_lt.1 hs)⟩

/-- Evicting from the back of the whole list brings the count to the low
limit, which is not negative. -/
theorem Consistent.size_evictLoop (hc : f.Consistent) (h0 : 0 ≤ f.lowLimit) :
    (f.evictLoop f.rList.reverse).size ≤ f.lowLimit := by
  obtain ⟨hc', hsub, hdone⟩ :=
    hc.evictLoop (List.nodup_reverse.2 hc.nodup) fun x hx => List.mem_reverse.1 hx
  rcases hdone with hdone | hdone
  · exact hdone
  · -- every listed reassembler was removed, so none is left and nothing is held
    have hnil : (f.evictLoop f.rList.reverse).rList = [] :=
      List.eq_nil_iff_forall_not_mem.2 fun x hx => hdone x (List.mem_reverse.2 (hsub x hx)) hx
    rw [hc'.size_eq, heldBytes, hnil]
    exact h0

/-- The end of `Process`: the eviction when the count is over the high limit. -/
theorem Consistent.evictIfOver (hc : f.Consistent) (h0 : 0 ≤ f.lowLimit) :
    (if f.size > f.highLimit then f.evictLoop f.rList.reverse else f).Consistent ∧
      (if f.size > f.highLimit then f.evictLoop f.rList.reverse else f).size ≤
        max f.highLimit f.lowLimit := by
  split_ifs with hs
  · have := hc.size_evictLoop h0
    exact ⟨(hc.evictLoop (List.nodup_reverse.2 hc.nodup) fun x hx => List.mem_reverse.1 hx).1,
      by omega⟩
  · exact ⟨hc, by omega⟩

theorem Consistent.processAccount (hc : ({ f with size := f.size + consumed } : Fragmentation).Consistent)
    (hh : h ∈ f.rList) (h0 : 0 ≤ f.lowLimit) :
    (f.processAccount h done consumed).Consistent ∧
      (f.processAccount h done consumed).size ≤ max f.highLimit f.lowLimit := by
  unfold Fragmentation.processAccount
  dsimp only
  cases done
  · rw [if_neg Bool.false_ne_true]
    exact hc.evictIfOver h0
  · rw [if_pos rfl]
    have := (hc.release hh).evictIfOver (by rw [lowLimit_release]; exact h0)
    simpa only [highLimit_release, lowLimit_release] using this

@[simp] theorem highLimit_processAccount :
    (f.processAccount h done consumed).highLimit = f.highLimit := by
  simp only [Fragmentation.processAccount, apply_ite Fragmentation.highLimit, highLimit_evictLoop,
    highLimit_release, ite_self]

@[simp] theorem lowLimit_processAccount :
    (f.processAccount h done consumed).lowLimit = f.lowLimit := by
  simp only [Fragmentation.processAccount, apply_ite Fragmentation.lowLimit, lowLimit_evictLoop,
    lowLimit_release, ite_self]

/-! ### Whole calls -/

/-- A call that returns ran its three steps. -/
theorem process_eq_ok {res : List UInt8 × Bool}
    (hp : f.process id first last more vv now = .ok (res, f')) :
    ∃ f2 res2 done consumed,
      (f.processLookup id now).1.processReassemble (f.processLookup id now).2 first last more vv =
        .ok (f2, res2, done, consumed) ∧
      f' = f2.processAccount (f.processLookup id now).2 done consumed := by
  have hp' : ((f.processLookup id now).1.processReassemble (f.processLookup id now).2 first last more vv >>=
      fun x => pure ((x.2.1, x.2.2.1), x.1.processAccount (f.processLookup id now).2 x.2.2.1 x.2.2.2)) =
      .ok (res, f') := hp
  obtain ⟨⟨f2, res2, done, consumed⟩, hr, hpure⟩ := Outcome.bind_eq_ok.1 hp'
  simp only [Outcome.pure_eq, Outcome.ok.injEq, Prod.mk.injEq] at hpure
  exact ⟨f2, res2, done, consumed, hr, hpure.2.symm⟩

theorem highLimit_process {res : List UInt8 × Bool}
    (hp : f.process id first last more vv now = .ok (res, f')) : f'.highLimit = f.highLimit := by
  obtain ⟨f2, _, _, _, hr, rfl⟩ := process_eq_ok hp
  obtain ⟨r', rfl, -⟩ := processReassemble_eq_ok hr
  rw [highLimit_processAccount]
  exact highLimit_processLookup

/-- What holds between calls. -/
structure Inv (f : Fragmentation) : Prop where
  consistent : f.Consistent
  lowLimit_nonneg : 0 ≤ f.lowLimit
  bounded : 0 ≤ f.highLimit → f.lowLimit ≤ f.highLimit ∧ f.size ≤ f.highLimit

theorem inv_newFragmentation (high low timeout : Int) : (newFragmentation high low timeout).Inv := by
  refine ⟨⟨List.nodup_nil, ?_, ?_, ?_, rfl, rfl⟩, ?_, ?_⟩
  · intro id h
    simp [newFragmentation]
  · simp [newFragmentation]
  · simp [newFragmentation]
  · simp only [newFragmentation]
    split_ifs <;> omega
  · simp only [newFragmentation]
    split_ifs <;> omega

theorem Inv.process (hi : f.Inv) {res : List UInt8 × Bool}
    (hp : f.process id first last more vv now = .ok (res, f')) : f'.Inv := by
  -- the three steps of the call, each keeping the consistency
  obtain ⟨f2, _, _, _, hr, rfl⟩ := process_eq_ok hp
  obtain ⟨hc1, hh1⟩ := @Consistent.processLookup f id now hi.consistent
  obtain ⟨hc2, hl2, hhi2, hlo2⟩ := hc1.processReassemble hh1 hr
  have hlo : f2.lowLimit = f.lowLimit := by rw [hlo2, lowLimit_processLookup]
  have hhi : f2.highLimit = f.highLimit := by rw [hhi2, highLimit_processLookup]
  obtain ⟨hc3, hsize⟩ :=
    hc2.processAccount (by rw [hl2]; exact hh1) (by rw [hlo]; exact hi.lowLimit_nonneg)
  refine ⟨hc3, ?_, ?_⟩
  · rw [lowLimit_processAccount, hlo]
    exact hi.lowLimit_nonneg
  · intro h0
    rw [highLimit_processAccount, hhi] at h0 ⊢
    rw [lowLimit_processAccount, hlo]
    rw [hhi, hlo] at hsize
    obtain ⟨hle, -⟩ := hi.bounded h0
    exact ⟨hle, by omega⟩

end Fragmentation

open Fragmentation

/-- Calls of `Process` one at a time, on a `Fragmentation` made by
`NewFragmentation`, keep it consistent, and leave the count at most the high
limit when that limit is not negative. -/
theorem reachable_consistent {high low timeout : Int} {f : Fragmentation}
    (h : Transition.Reachable (· = newFragmentation high low timeout) Step f) :
    f.Consistent ∧ (0 ≤ high → f.size ≤ high) := by
  have hinv := Transition.Reachable.invariant (fun f => f.Inv ∧ f.highLimit = high)
    (fun _ h0 => by subst h0; exact ⟨inv_newFragmentation high low timeout, rfl⟩)
    (fun _ _ ⟨hi, hhigh⟩ ⟨_, _, _, _, _, _, _, hp⟩ =>
      ⟨hi.process hp, by rw [highLimit_process hp, hhigh]⟩) h
  obtain ⟨hi, rfl⟩ := hinv
  exact ⟨hi.consistent, fun h0 => (hi.bounded h0).2⟩

/-- The two halves of a 16-byte datagram, in order: the second completes it. -/
theorem reachable_consistent_two_fragments :
    ∃ f f', (newFragmentation (4 * 2 ^ 20) (3 * 2 ^ 20) (30 * 10 ^ 9)).process 1 0 7 true
        (List.replicate 8 0) 0 = .ok (([], false), f) ∧
      f.process 1 8 15 false (List.replicate 8 1) 0 =
        .ok ((List.replicate 8 0 ++ List.replicate 8 1, true), f') ∧
      f'.Consistent ∧ (0 ≤ (4 * 2 ^ 20 : Int) → f'.size ≤ 4 * 2 ^ 20) := by
  refine ⟨_, _, rfl, rfl, ?_⟩
  -- both calls are `Step`s, by the same evaluation as above
  exact @reachable_consistent _ (3 * 2 ^ 20) (30 * 10 ^ 9) _
    (.tail (.tail (.of_init rfl) ⟨1, 0, 7, true, List.replicate 8 0, 0, _, rfl⟩)
      ⟨1, 8, 15, false, List.replicate 8 1, 0, _, rfl⟩)

/-- With a negative high limit the low limit is raised to zero, above it, and
a call that leaves any byte to count evicts down to zero, which is still over
the high limit. -/
theorem process_over_negative_highLimit :
    (fun x : (List UInt8 × Bool) × Fragmentation => decide (x.2.highLimit < x.2.size)) <$>
      (newFragmentation (-1) (-1) 0).process 0 0 0 true [1] 0 = .ok true := by
  decide

end Fragmentation
