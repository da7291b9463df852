import Gvisor.Tcp.Sender

/-! NewReno (pkg/tcpip/transport/tcp/reno.go), the default congestion control
algorithm: slow start up to `sndSsthresh`, then one more packet of window for
each window of packets acknowledged; half the packets in flight as the new
threshold on a loss. -/

namespace Tcp

variable {T : Type}

namespace Reno

/-- `updateSlowStart`: the window grows by the packets acknowledged, up to the
threshold; what is left over is for congestion avoidance. -/
def updateSlowStart (s : Sender T) (packetsAcked : Int) : Int × Sender T :=
  let newcwnd := s.sndCwnd + packetsAcked
  let (newcwnd, s) := if newcwnd ≥ s.sndSsthresh then (s.sndSsthresh, { s with sndCAAckCount := 0 })
    else (newcwnd, s)
  (packetsAcked - (newcwnd - s.sndCwnd), { s with sndCwnd := newcwnd })

/-- `updateCongestionAvoidance`; the remainder is taken by the window as just
grown. The window is never 0 here, where Go's `/` would panic. -/
def updateCongestionAvoidance (s : Sender T) (packetsAcked : Int) : Sender T :=
  let s := { s with sndCAAckCount := s.sndCAAckCount + packetsAcked }
  if s.sndCAAckCount ≥ s.sndCwnd then
    let s := { s with sndCwnd := s.sndCwnd + s.sndCAAckCount.tdiv s.sndCwnd }
    { s with sndCAAckCount := s.sndCAAckCount.tmod s.sndCwnd }
  else s

/-- `reduceSlowStartThreshold`. -/
def reduceSlowStartThreshold (s : Sender T) : Sender T :=
  let sndSsthresh := s.outstanding.tdiv 2
  { s with sndSsthresh := if sndSsthresh < 2 then 2 else sndSsthresh }

/-- `Update`. -/
def update (packetsAcked : Int) (s : Sender T) : Sender T :=
  if s.sndCwnd < s.sndSsthresh then
    let (packetsAcked, s) := updateSlowStart s packetsAcked
    if packetsAcked = 0 then s else updateCongestionAvoidance s packetsAcked
  else updateCongestionAvoidance s packetsAcked

section CongestionAvoidance

variable {s : Sender T}

/-- Congestion avoidance with the count one short of the window: one more
acknowledged packet grows the window by one, and the remainder is then taken
modulo the grown window, which leaves the count one short of it again. -/
theorem update_one_of_count_eq (hss : s.sndSsthresh ≤ s.sndCwnd) (hw : 1 ≤ s.sndCwnd)
    (hc : s.sndCAAckCount = s.sndCwnd - 1) :
    (update 1 s).sndCwnd = s.sndCwnd + 1 ∧ (update 1 s).sndCAAckCount = s.sndCwnd ∧
      (update 1 s).sndSsthresh = s.sndSsthresh := by
  have hca : ¬ s.sndCwnd < s.sndSsthresh := by omega
  have hcount : s.sndCAAckCount + 1 = s.sndCwnd := by omega
  simp only [update, hca, if_false, updateCongestionAvoidance, hcount, ge_iff_le, Int.le_refl, if_true,
    Int.tdiv_self (show s.sndCwnd ≠ 0 by omega), true_and, and_true]
  exact Int.tmod_eq_of_lt (by omega) (by omega)

/-- The run of `k` single acknowledgements from such a state grows the window
by `k`: one packet per acknowledged packet, where RFC 5681 allows one per
window of them. -/
theorem update_grows_per_ack (s : Sender T) (k : ℕ) (hss : s.sndSsthresh ≤ s.sndCwnd)
    (hw : 1 ≤ s.sndCwnd) (hc : s.sndCAAckCount = s.sndCwnd - 1) :
    ((List.replicate k 1).foldl (fun s n => update n s) s).sndCwnd = s.sndCwnd + k := by
  induction k generalizing s with
  | zero => simp
  | succ k ih =>
    obtain ⟨hcw, hcc, hst⟩ := update_one_of_count_eq hss hw hc
    rw [List.replicate_succ, List.foldl_cons, ih (update 1 s) (by omega) (by omega) (by omega), hcw]
    omega

deriving instance Inhabited for CcState, FastRecovery, SACKScoreboard, Sender

/-- A window of 2 with one packet counted: three acknowledged packets, a
window and a half of them, grow the window to 5, where at most 4 is allowed. -/
theorem update_grows_per_ack_two :
    ∃ s : Sender (List SACKBlock), s.sndCwnd = 2 ∧ s.sndSsthresh = 2 ∧ s.sndCAAckCount = 1 ∧
      ((List.replicate 3 1).foldl (fun s n => update n s) s).sndCwnd = 5 := by
  refine ⟨{ (default : Sender (List SACKBlock)) with sndCwnd := 2, sndSsthresh := 2, sndCAAckCount := 1 }, rfl, rfl, rfl, ?_⟩
  rw [update_grows_per_ack _ 3 (by decide) (by decide) (by decide)]
  rfl

end CongestionAvoidance

end Reno

/-- `renoState` as the sender's `congestionControl`. -/
def reno : CongestionControl T where
  handleNDupAcks := Reno.reduceSlowStartThreshold
  handleRTOExpired s := { Reno.reduceSlowStartThreshold s with sndCwnd := 1 }
  update := Reno.update
  postRecovery s := s

end Tcp
