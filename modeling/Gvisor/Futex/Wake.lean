import Gvisor.Futex.Invariant

/-! What one wake and one requeue of a bucket do with its list of waiters.
`wakeLocked` wakes the first `n` of the waiters whose key and bitmask match, in
the order of the list, and leaves the others queued in that order; a requeue to
another bucket moves the first `n` that match to the end of that bucket's list.
A requeue to the bucket the waiters are in (`FUTEX_REQUEUE` with
`addr == naddr`) pushes each requeued waiter to the end of the list it walks,
and it meets the waiter again there. -/

namespace Futex
namespace State


/-- Whether `wakeLocked` wakes the waiter `w` of `s`. -/
def Wakes (s : State) (key : Key) (bitmask : UInt32) (w : ℕ) : Bool :=
  (s.waiters w).key.matches key && (s.waiters w).bitmask &&& bitmask != 0

variable {s : State} {b : BucketId} {w x : ℕ}

theorem wakeWaiterLocked_waiters_of_ne (h : x ≠ w) : (s.wakeWaiterLocked b w).waiters x = s.waiters x := by
  simp [State.wakeWaiterLocked, h]

theorem wakeWaiterLocked_sends : (s.wakeWaiterLocked b w).sends = Function.update s.sends w (s.sends w + 1) := by
  funext a
  simp only [State.wakeWaiterLocked, State.setBucket_sends, State.send_sends]
  rfl

theorem wakeWaiterLocked_buckets_eq :
    (s.wakeWaiterLocked b w).buckets = Function.update s.buckets b ((s.buckets b).erase w) := by
  funext a
  simp [State.wakeWaiterLocked]

theorem wakeLoop_spec {key : Key} {bitmask : UInt32} {n : ℤ} :
    ∀ (s : State) (ws : List ℕ) (done : ℤ), ws.Nodup → (s.buckets b).Nodup →
      (State.wakeLoop b key bitmask n s ws done).2 =
          done + ((ws.filter (s.Wakes key bitmask)).take (n - done).toNat).length ∧
        (State.wakeLoop b key bitmask n s ws done).1.buckets =
          Function.update s.buckets b
            ((s.buckets b).filter (· ∉ (ws.filter (s.Wakes key bitmask)).take (n - done).toNat)) ∧
        ∀ x, (State.wakeLoop b key bitmask n s ws done).1.sends x =
          s.sends x + if x ∈ (ws.filter (s.Wakes key bitmask)).take (n - done).toNat then 1 else 0
  | s, [], done, _, _ => by simp [State.wakeLoop]
  | s, w :: ws, done, hnd, hb => by
    have hw : w ∉ ws := (List.nodup_cons.1 hnd).1
    rw [State.wakeLoop]
    by_cases hd : done < n
    · rw [if_pos hd]
      by_cases hm : s.Wakes key bitmask w = true
      · have hskip : (!(s.waiters w).key.matches key || (s.waiters w).bitmask &&& bitmask == 0) = false := by
          simpa [Wakes] using hm
        rw [if_neg (by simp [hskip])]
        have hb' : ((s.wakeWaiterLocked b w).buckets b).Nodup := by
          simpa [State.wakeWaiterLocked] using hb.erase w
        obtain ⟨h1, h2, h3⟩ := @wakeLoop_spec key bitmask n (s.wakeWaiterLocked b w) ws (done + 1) hnd.of_cons hb'
        have hf : ws.filter ((s.wakeWaiterLocked b w).Wakes key bitmask) = ws.filter (s.Wakes key bitmask) :=
          List.filter_congr fun x hx => by
            rw [Wakes, Wakes, wakeWaiterLocked_waiters_of_ne (fun h => hw (by rw [← h]; exact hx))]
        have hk : (n - done).toNat = (n - (done + 1)).toNat + 1 := by omega
        rw [hf] at h1 h2 h3
        rw [List.filter_cons_of_pos hm, hk, List.take_succ_cons]
        refine ⟨by rw [h1, List.length_cons]; omega, ?_, ?_⟩
        · rw [h2, wakeWaiterLocked_buckets_eq, Function.update_idem, Function.update_self, hb.erase_eq_filter,
            List.filter_filter]
          congr 2
          funext x
          by_cases hx : x = w <;> simp [hx]
        · intro x
          rw [h3 x, wakeWaiterLocked_sends]
          by_cases hxw : x = w
          · subst hxw
            have hnot : x ∉ (ws.filter (s.Wakes key bitmask)).take (n - (done + 1)).toNat :=
              fun h => hw (List.mem_of_mem_filter (List.mem_of_mem_take h))
            simp [hnot]
          · simp [hxw]
      · have hskip : (!(s.waiters w).key.matches key || (s.waiters w).bitmask &&& bitmask == 0) = true := by
          cases hk : (s.waiters w).key.matches key <;> simp_all [Wakes]
        rw [if_pos hskip, List.filter_cons_of_neg hm]
        exact @wakeLoop_spec key bitmask n s ws done hnd.of_cons hb
    · rw [if_neg hd]
      have hk : (n - done).toNat = 0 := by omega
      simp [hk]
variable {toBucket : BucketId} {nkey : Key}

theorem requeueWaiter_waiters_of_ne (h : x ≠ w) : (s.requeueWaiter b toBucket w nkey).waiters x = s.waiters x := by
  simp [State.requeueWaiter, h]

theorem requeueWaiter_key : ((s.requeueWaiter b toBucket w nkey).waiters w).key = nkey := by
  simp [State.requeueWaiter]

theorem requeueWaiter_buckets_of_ne (hne : toBucket ≠ b) :
    (s.requeueWaiter b toBucket w nkey).buckets b = (s.buckets b).erase w ∧
      (s.requeueWaiter b toBucket w nkey).buckets toBucket = s.buckets toBucket ++ [w] := by
  simp [State.requeueWaiter, hne, Function.update_of_ne (Ne.symm hne)]

/-- Requeued to its own bucket with a key that still matches, a waiter goes to
the end of the list and is met again: while the list holds two waiters or more
and all of them match, every turn requeues one, until `n` are counted. -/
theorem requeueLoop_self {key : Key} {n : ℤ} (hnk : nkey.matches key = true) :
    ∀ (k : ℕ) (s : State) (ws : List ℕ) (done : ℤ), (n - done).toNat = k → done ≤ n → 2 ≤ ws.length →
      (∀ w ∈ ws, (s.waiters w).key.matches key = true) → (State.requeueLoop b b key nkey n s ws done).2 = n
  | 0, s, ws, done, hk, hle, hlen, _ => by
    obtain ⟨w, rest, rfl⟩ := List.exists_cons_of_length_pos (by omega : 0 < ws.length)
    rw [State.requeueLoop, if_neg (by omega)]
    omega
  | k + 1, s, ws, done, hk, hle, hlen, hm => by
    obtain ⟨w, rest, rfl⟩ := List.exists_cons_of_length_pos (by omega : 0 < ws.length)
    have hrest : rest ≠ [] := List.ne_nil_of_length_pos (by simp at hlen; omega)
    rw [State.requeueLoop, if_pos (by omega), if_neg (by simp [hm w List.mem_cons_self]), if_pos ⟨rfl, hrest⟩]
    refine requeueLoop_self hnk k _ _ _ (by omega) (by omega) (by simp at hlen ⊢; omega) ?_
    intro x hx
    by_cases hxw : x = w
    · rw [hxw, requeueWaiter_key]
      exact hnk
    · rw [requeueWaiter_waiters_of_ne hxw]
      exact hm x (List.mem_cons_of_mem _ (by simpa [hxw] using hx))

/-- Requeued to another bucket, the waiters that match leave the list in
order, the first `n` of them, and go to the end of the other bucket's list. -/
theorem requeueLoop_spec {key : Key} {n : ℤ} (hne : toBucket ≠ b) :
    ∀ (s : State) (ws : List ℕ) (done : ℤ), ws.Nodup → (s.buckets b).Nodup →
      (State.requeueLoop b toBucket key nkey n s ws done).2 =
          done + ((ws.filter fun w => (s.waiters w).key.matches key).take (n - done).toNat).length ∧
        (State.requeueLoop b toBucket key nkey n s ws done).1.buckets b =
          (s.buckets b).filter (· ∉ (ws.filter fun w => (s.waiters w).key.matches key).take (n - done).toNat) ∧
        (State.requeueLoop b toBucket key nkey n s ws done).1.buckets toBucket =
          s.buckets toBucket ++ (ws.filter fun w => (s.waiters w).key.matches key).take (n - done).toNat
  | s, [], done, _, _ => by simp [State.requeueLoop]
  | s, w :: ws, done, hnd, hb => by
    have hw : w ∉ ws := (List.nodup_cons.1 hnd).1
    rw [State.requeueLoop]
    by_cases hd : done < n
    · rw [if_pos hd]
      by_cases hm : (s.waiters w).key.matches key = true
      · rw [if_neg (by simp [hm]), if_neg (fun h => hne h.1)]
        obtain ⟨hb1, hb2⟩ := @requeueWaiter_buckets_of_ne s b w toBucket nkey hne
        have hb' : ((s.requeueWaiter b toBucket w nkey).buckets b).Nodup := by
          rw [hb1]
          exact hb.erase w
        obtain ⟨h1, h2, h3⟩ := @requeueLoop_spec key n hne (s.requeueWaiter b toBucket w nkey) ws (done + 1)
          hnd.of_cons hb'
        have hf : (ws.filter fun x => ((s.requeueWaiter b toBucket w nkey).waiters x).key.matches key) =
            ws.filter fun x => (s.waiters x).key.matches key :=
          List.filter_congr fun x hx => by
            rw [requeueWaiter_waiters_of_ne (fun h => hw (by rw [← h]; exact hx))]
        have hk : (n - done).toNat = (n - (done + 1)).toNat + 1 := by omega
        rw [hf] at h1 h2 h3
        rw [hb1] at h2
        rw [List.filter_cons_of_pos (p := fun x => (s.waiters x).key.matches key) hm, hk, List.take_succ_cons]
        refine ⟨by rw [h1, List.length_cons]; omega, ?_, ?_⟩
        · rw [h2, hb.erase_eq_filter, List.filter_filter]
          congr 1
          funext x
          by_cases hx : x = w <;> simp [hx]
        · rw [h3, hb2, List.append_assoc, List.singleton_append]
      · rw [if_pos (by simp [hm]), List.filter_cons_of_neg (p := fun x => (s.waiters x).key.matches key) hm]
        exact @requeueLoop_spec key n hne s ws done hnd.of_cons hb
    · rw [if_neg hd]
      have hk : (n - done).toNat = 0 := by omega
      simp [hk]

end State

/-- A wake of a bucket wakes exactly the first `n` of its waiters that match,
in order, and leaves the rest queued in order; a requeue to another bucket
moves the first `n` that match, in order, and counts them. A requeue to its own
bucket with a key that still matches meets every requeued waiter again: with two
waiters or more, all of them matching, it requeues `n` times, whatever `n` is. -/
theorem requeueLocked_same_bucket_counts_nreq :
    (∀ (s : State), s.Inv → ∀ (b : BucketId) (key : Key) (bitmask : UInt32) (n : ℤ),
      (s.wakeLocked b key bitmask n).2 = (((s.buckets b).filter (s.Wakes key bitmask)).take n.toNat).length ∧
        (s.wakeLocked b key bitmask n).1.buckets b =
          (s.buckets b).filter (· ∉ ((s.buckets b).filter (s.Wakes key bitmask)).take n.toNat) ∧
        ∀ x, (s.wakeLocked b key bitmask n).1.sends x =
          s.sends x + if x ∈ ((s.buckets b).filter (s.Wakes key bitmask)).take n.toNat then 1 else 0) ∧
    (∀ (s : State), s.Inv → ∀ (b toBucket : BucketId) (key nkey : Key) (n : ℤ), toBucket ≠ b →
      (s.requeueLocked b toBucket key nkey n).2 =
          (((s.buckets b).filter fun w => (s.waiters w).key.matches key).take n.toNat).length ∧
        (s.requeueLocked b toBucket key nkey n).1.buckets b =
          (s.buckets b).filter (· ∉ ((s.buckets b).filter fun w => (s.waiters w).key.matches key).take n.toNat) ∧
        (s.requeueLocked b toBucket key nkey n).1.buckets toBucket =
          s.buckets toBucket ++ ((s.buckets b).filter fun w => (s.waiters w).key.matches key).take n.toNat) ∧
    (∀ (s : State) (b : BucketId) (key nkey : Key) (n : ℤ), nkey.matches key = true → 0 ≤ n →
      2 ≤ (s.buckets b).length → (∀ w ∈ s.buckets b, (s.waiters w).key.matches key = true) →
      (s.requeueLocked b b key nkey n).2 = n) := by
  refine ⟨?_, ?_, ?_⟩
  · intro s hi b key bitmask n
    obtain ⟨h1, h2, h3⟩ := State.wakeLoop_spec (n := n) s (s.buckets b) 0 (hi.nodup b) (hi.nodup b)
    rw [Int.sub_zero] at h1 h2 h3
    refine ⟨by rw [State.wakeLocked, h1, Int.zero_add], by rw [State.wakeLocked, h2, Function.update_self], h3⟩
  · intro s hi b toBucket key nkey n hne
    obtain ⟨h1, h2, h3⟩ := @State.requeueLoop_spec b toBucket nkey key n hne s (s.buckets b) 0 (hi.nodup b) (hi.nodup b)
    rw [Int.sub_zero] at h1 h2 h3
    exact ⟨by rw [State.requeueLocked, h1, Int.zero_add], h2, h3⟩
  · intro s b key nkey n hnk hn hlen hm
    exact State.requeueLoop_self hnk _ s (s.buckets b) 0 rfl hn hlen hm

/-- Two waiters on the private word at 0 in one bucket, and a requeue of that
word to itself with `nreq = 5`: five requeues of two waiters. From the initial
state, a wake of one and a requeue to another bucket find no waiter. -/
theorem requeueLocked_same_bucket_counts_nreq_two :
    (State.init.wakeLocked (.priv 0 ⟨0, by decide⟩) ⟨.kindPrivate, none, 0⟩ 1 1).2 = 0 ∧
      (State.init.requeueLocked (.priv 0 ⟨0, by decide⟩) (.priv 0 ⟨1, by decide⟩) ⟨.kindPrivate, none, 0⟩
        ⟨.kindPrivate, none, 0⟩ 1).2 = 0 ∧
      (({ State.init with
          waiters := fun _ => { newWaiter with key := ⟨.kindPrivate, none, 0⟩, bucket := some (.priv 0 ⟨0, by decide⟩) }
          buckets := fun b => if b = .priv 0 ⟨0, by decide⟩ then [0, 1] else [] } : State).requeueLocked
        (.priv 0 ⟨0, by decide⟩) (.priv 0 ⟨0, by decide⟩) ⟨.kindPrivate, none, 0⟩ ⟨.kindPrivate, none, 0⟩ 5).2 = 5 := by
  obtain ⟨hw, hr, hs⟩ := requeueLocked_same_bucket_counts_nreq
  refine ⟨?_, ?_, hs _ _ _ _ 5 (by decide) (by decide) (by decide) (by decide)⟩
  · rw [(hw State.init State.Inv.init _ _ 1 1).1]
    rfl
  · rw [(hr State.init State.Inv.init _ _ _ ⟨.kindPrivate, none, 0⟩ 1 (by decide)).1]
    rfl

end Futex
