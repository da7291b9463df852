import Gvisor.Ktime.Setting
import Gvisor.Lib.Outcome
import Gvisor.Lib.List

/-! `Timer` (pkg/sentry/kernel/time/time.go): a setting advanced by `At` at
each reading of the clock, with every positive count handed to the listener's
`Notify`. The timer goroutine calls `Tick` each time it is woken; `Get` and
`SwapAnd` advance the setting the same way before they return it or replace
it. The kicker that wakes the goroutine, the clock and the listener's own
behaviour are not modelled: a run is a list of clock readings, and the
listener is the list of counts it was given.

For a positive period and readings far enough from `MaxTime`, the counts
reported over a whole run add up to the expirations due by the latest
reading, whatever the order of the readings (`runGoroutine_periodic`). A
negative period, which the conversions let through from a negative or
overflowing `Itimerspec` interval, makes every reading report one expiration
and moves `Next` back each time. -/

namespace Ktime

structure Timer where
  setting : Setting
  paused : Bool
  notified : List UInt64
  deriving DecidableEq, Repr

namespace Timer

/-- The listener's `Notify`, called only for a positive count. -/
def notify (t : Timer) (exp : UInt64) : Timer :=
  if exp > 0 then { t with notified := t.notified ++ [exp] } else t

/-- `Tick`, at the clock's reading `now`. -/
def tick (t : Timer) (now : Time) : Timer :=
  if t.paused then t
  else
    let r := t.setting.At now
    ({ t with setting := r.1 } : Timer).notify r.2

/-- `Get`. -/
def get (t : Timer) (now : Time) : Outcome Unit (Timer × Time × Setting) :=
  if t.paused then .panic
  else
    let r := t.setting.At now
    .ok (({ t with setting := r.1 } : Timer).notify r.2, now, r.1)

/-- `SwapAnd`, without the caller's function, which may not call the timer. -/
def swapAnd (t : Timer) (s : Setting) (now : Time) : Outcome Unit (Timer × Time × Setting) :=
  if t.paused then .panic
  else
    let old := t.setting.At now
    let t := t.notify old.2
    let new := s.At now
    .ok (({ t with setting := new.1 } : Timer).notify new.2, now, old.1)

/-- `runGoroutine`: the timer goroutine, woken once for each reading. -/
def runGoroutine (t : Timer) (readings : List Time) : Timer := readings.foldl tick t

@[simp] theorem setting_notify (t : Timer) (exp : UInt64) : (t.notify exp).setting = t.setting := by
  unfold notify
  split_ifs <;> rfl

@[simp] theorem paused_notify (t : Timer) (exp : UInt64) : (t.notify exp).paused = t.paused := by
  unfold notify
  split_ifs <;> rfl

theorem notified_notify (t : Timer) (exp : UInt64) :
    (t.notify exp).notified = t.notified ++ if exp > 0 then [exp] else [] := by
  unfold notify
  split_ifs <;> simp

/-- `Get` advances the timer as `Tick` does. -/
theorem get_eq (t : Timer) (now : Time) (h : t.paused = false) :
    t.get now = .ok (t.tick now, now, (t.tick now).setting) := by
  simp [get, tick, h]

/-- `SwapAnd` is a `Tick` of the old setting, then a `Tick` of the new one
from the same reading: the expirations of the old setting up to `now` are
reported before it is replaced. -/
theorem swapAnd_eq (t : Timer) (s : Setting) (now : Time) (h : t.paused = false) :
    t.swapAnd s now = .ok (({ t.tick now with setting := s } : Timer).tick now, now, (t.setting.At now).1) := by
  simp only [swapAnd, tick, h, Bool.false_eq_true, if_false, paused_notify, notified_notify]

/-! ### A positive period -/

/-- A tick of a timer with a positive period whose `Next` is the `c`-th point
of the grid from `n₀`: afterwards `Next` is the point past every expiration
due at the reading, and the count reported is what that adds to `c`. -/
theorem tick_of_pos_period {t : Timer} {r : Time} {n₀ : ℤ} {c : ℕ} (hpaused : t.paused = false)
    (hen : t.setting.enabled = true) (hp : 0 < t.setting.period) (hn₀ : 0 ≤ n₀)
    (hnext : t.setting.next.ns.toInt = n₀ + c * t.setting.period.toInt)
    (hfit : r.ns.toInt + t.setting.period.toInt < 2 ^ 63) :
    ∃ next : Time, (t.tick r).setting = { t.setting with next := next } ∧
      next.ns.toInt = n₀ + (max c (dueCount n₀ t.setting.period.toInt r.ns.toInt) : ℕ) * t.setting.period.toInt ∧
      ((t.tick r).notified.map UInt64.toNat).sum =
        (t.notified.map UInt64.toNat).sum + (max c (dueCount n₀ t.setting.period.toInt r.ns.toInt) - c) ∧
      (t.tick r).paused = false := by
  have hp' := Int64.pos_iff_toInt_pos.1 hp
  have hc : 0 ≤ (c : ℤ) * t.setting.period.toInt := Int.mul_nonneg (Int.natCast_nonneg c) hp'.le
  by_cases hlt : r < t.setting.next
  · -- not yet due: nothing changes, and no more of the grid is due
    have hle : dueCount n₀ t.setting.period.toInt r.ns.toInt ≤ c :=
      dueCount_le_of_lt hp' (by rw [← hnext]; exact hlt)
    have htick : t.tick r = t := by
      rw [tick, if_neg (by simp [hpaused]), Setting.At_of_lt hlt]
      simp [notify]
    refine ⟨t.setting.next, by rw [htick], by rw [max_eq_left hle, hnext], ?_, by rw [htick]; exact hpaused⟩
    rw [htick, max_eq_left hle, Nat.sub_self, Nat.add_zero]
  · -- due: `At` counts the points from `Next` to the reading
    have hle := not_lt.1 hlt
    have hle' := Time.le_iff.1 hle
    have hprod := dueCount_mul_le _ _ _ hp' hle'
    obtain ⟨next, hat, hnext'⟩ := Setting.At_of_pos_period hen hle hp (by omega) (by omega)
    have hshift : dueCount n₀ t.setting.period.toInt r.ns.toInt =
        c + dueCount t.setting.next.ns.toInt t.setting.period.toInt r.ns.toInt := by
      rw [hnext]
      exact dueCount_shift hp' (by rw [← hnext]; exact hle')
    have hpos := @dueCount_of_le _ t.setting.period.toInt _ hle'
    have hexp : dueCount t.setting.next.ns.toInt t.setting.period.toInt r.ns.toInt < 2 ^ 64 := by
      have := dueCount_le t.setting.next.ns.toInt t.setting.period.toInt r.ns.toInt
      omega
    have htick : t.tick r = ({ t with setting := { t.setting with next := next } } : Timer).notify
        (UInt64.ofNat (dueCount t.setting.next.ns.toInt t.setting.period.toInt r.ns.toInt)) := by
      rw [tick, if_neg (by simp [hpaused]), hat]
    have hmax : max c (dueCount n₀ t.setting.period.toInt r.ns.toInt) =
        c + dueCount t.setting.next.ns.toInt t.setting.period.toInt r.ns.toInt := by
      omega
    refine ⟨next, by rw [htick, setting_notify], ?_, ?_, by rw [htick, paused_notify]; exact hpaused⟩
    · have heP : ((dueCount t.setting.next.ns.toInt t.setting.period.toInt r.ns.toInt *
          t.setting.period.toInt.toNat : ℕ) : ℤ) =
          (dueCount t.setting.next.ns.toInt t.setting.period.toInt r.ns.toInt : ℤ) * t.setting.period.toInt := by
        rw [Nat.cast_mul, Int.toNat_of_nonneg hp'.le]
      rw [hnext', saturate_of_bounds (by omega) (by omega), hmax, heP, Nat.cast_add, Int.add_mul]
      omega
    · have hgt : UInt64.ofNat (dueCount t.setting.next.ns.toInt t.setting.period.toInt r.ns.toInt) > 0 := by
        rw [gt_iff_lt, UInt64.lt_iff_toNat_lt, UInt64.toNat_ofNat_of_lt' hexp, UInt64.toNat_zero, hpos]
        exact Nat.add_pos_left Nat.one_pos _
      rw [htick, notified_notify, if_pos hgt, List.map_append, List.sum_append, hmax,
        Nat.add_sub_cancel_left]
      simp [UInt64.toNat_ofNat_of_lt' hexp]

/-- A run of the goroutine from the `c`-th point of the grid from `n₀`, with
the readings in any order: `Next` stays on the grid, one point past every
expiration due at the latest reading, and the counts reported add up to the
expirations due then, each reported once. -/
theorem runGoroutine_of_pos_period (n₀ : ℤ) (hn₀ : 0 ≤ n₀) :
    ∀ (rs : List Time) (t : Timer) (c : ℕ), t.paused = false → t.setting.enabled = true →
      0 < t.setting.period → t.setting.next.ns.toInt = n₀ + c * t.setting.period.toInt →
      (∀ r ∈ rs, r.ns.toInt + t.setting.period.toInt < 2 ^ 63) →
      ∃ next : Time, (t.runGoroutine rs).setting = { t.setting with next := next } ∧
        next.ns.toInt = n₀ +
          (rs.foldl (fun c r => max c (dueCount n₀ t.setting.period.toInt r.ns.toInt)) c : ℕ) *
            t.setting.period.toInt ∧
        ((t.runGoroutine rs).notified.map UInt64.toNat).sum = (t.notified.map UInt64.toNat).sum +
          (rs.foldl (fun c r => max c (dueCount n₀ t.setting.period.toInt r.ns.toInt)) c - c)
  | [], t, c, _, _, _, hnext, _ => ⟨t.setting.next, rfl, hnext, by simp [runGoroutine]⟩
  | r :: rs, t, c, hpaused, hen, hp, hnext, hfit => by
    obtain ⟨next₁, hset₁, hnext₁, hsum₁, hpaused₁⟩ :=
      tick_of_pos_period hpaused hen hp hn₀ hnext (hfit r (by simp))
    have hper₁ : (t.tick r).setting.period = t.setting.period := by rw [hset₁]
    obtain ⟨next₂, hset₂, hnext₂, hsum₂⟩ := runGoroutine_of_pos_period n₀ hn₀ rs (t.tick r)
      (max c (dueCount n₀ t.setting.period.toInt r.ns.toInt)) hpaused₁ (by rw [hset₁]; exact hen)
      (by rw [hper₁]; exact hp) (by rw [hset₁]; exact hnext₁)
      (fun r' hr' => by rw [hper₁]; exact hfit r' (by simp [hr']))
    have hrun : t.runGoroutine (r :: rs) = (t.tick r).runGoroutine rs := rfl
    have hgrow := List.le_foldl_max (fun r : Time => dueCount n₀ t.setting.period.toInt r.ns.toInt) rs
      (max c (dueCount n₀ t.setting.period.toInt r.ns.toInt))
    have hc := le_max_left c (dueCount n₀ t.setting.period.toInt r.ns.toInt)
    rw [hper₁] at hnext₂ hsum₂
    refine ⟨next₂, by rw [hrun, hset₂, hset₁], by rw [List.foldl_cons]; exact hnext₂, ?_⟩
    rw [hrun, hsum₂, hsum₁, List.foldl_cons]
    omega

/-! ### A negative period -/

/-- A tick of a setting with a negative period that is due reports one
expiration and moves `Next` back by the period. -/
theorem tick_of_neg_period {t : Timer} {now : Time} (hpaused : t.paused = false)
    (hen : t.setting.enabled = true) (hp : t.setting.period < 0) (hle : t.setting.next ≤ now) :
    t.tick now =
      { t with
        setting := { t.setting with next := t.setting.next.add t.setting.period }
        notified := t.notified ++ [1] } := by
  rw [tick, if_neg (by simp [hpaused]), Setting.At_of_neg_period hen hle hp]
  rfl

/-- Every reading at or after `Next` fires a timer with a negative period
again, since `Next` only moves back: each reports one expiration. -/
theorem runGoroutine_of_neg_period (next₀ : Time) :
    ∀ (rs : List Time) (t : Timer), t.paused = false → t.setting.enabled = true → t.setting.period < 0 →
      t.setting.next ≤ next₀ → (∀ r ∈ rs, next₀ ≤ r) →
      (t.runGoroutine rs).notified = t.notified ++ rs.map (fun _ => 1) ∧
        (t.runGoroutine rs).setting.next ≤ t.setting.next ∧
        (t.runGoroutine rs).setting.period = t.setting.period
  | [], t, _, _, _, _, _ => ⟨by simp [runGoroutine], le_refl _, rfl⟩
  | r :: rs, t, hpaused, hen, hp, hle, hrs => by
    have hr : t.setting.next ≤ r := le_trans hle (hrs r (by simp))
    have hback : t.setting.next.add t.setting.period ≤ t.setting.next :=
      Time.add_le (le_of_lt (Int64.neg_iff_toInt_neg.1 hp))
    have htick := tick_of_neg_period hpaused hen hp hr
    have hpaused' : (t.tick r).paused = false := by rw [htick]; exact hpaused
    have hen' : (t.tick r).setting.enabled = true := by rw [htick]; exact hen
    have hper' : (t.tick r).setting.period = t.setting.period := by rw [htick]
    have hnext' : (t.tick r).setting.next = t.setting.next.add t.setting.period := by rw [htick]
    have hnot' : (t.tick r).notified = t.notified ++ [1] := by rw [htick]
    obtain ⟨hnot, hnext, hper⟩ := runGoroutine_of_neg_period next₀ rs (t.tick r) hpaused' hen'
      (by rw [hper']; exact hp) (by rw [hnext']; exact le_trans hback hle)
      (fun r' hr' => hrs r' (by simp [hr']))
    have hrun : t.runGoroutine (r :: rs) = (t.tick r).runGoroutine rs := rfl
    rw [hrun]
    refine ⟨by rw [hnot, hnot']; simp, ?_, by rw [hper, hper']⟩
    rw [hnext'] at hnext
    exact le_trans hnext hback

/-- An `Itimerspec` with a positive value and an interval that converts to a
negative duration, relative or absolute, is accepted with that negative
period: from then on every reading of the clock at or after `Next` reports
one expiration, however little time has passed, and `Next` never moves
forward. -/
theorem settingFromItimerspec_negative_period (its : Itimerspec) (abs : Bool) (now : Time)
    (hv : 0 < its.value.toDuration) (hi : its.interval.toDuration < 0) :
    ∃ s, settingFromItimerspec its abs now = .ok s ∧ s.enabled = true ∧ s.period < 0 ∧
      ∀ (t : Timer) (rs : List Time), t.setting = s → t.paused = false → (∀ r ∈ rs, s.next ≤ r) →
        (t.runGoroutine rs).notified = t.notified ++ rs.map (fun _ => 1) ∧
          (t.runGoroutine rs).setting.next ≤ s.next := by
  obtain ⟨next, hok, -⟩ := settingFromItimerspec_of_pos its abs now hv
  refine ⟨_, hok, rfl, hi, ?_⟩
  intro t rs hs hpaused hrs
  obtain ⟨hnot, hnext, -⟩ := runGoroutine_of_neg_period t.setting.next rs t hpaused (by rw [hs])
    (by rw [hs]; exact hi) (le_refl _) (by rw [hs]; exact hrs)
  rw [hs] at hnext
  exact ⟨hnot, hnext⟩

/-- An interval of `9223372036.999999999` seconds, which `Valid` accepts,
gives a relative timer a negative period. -/
theorem settingFromItimerspec_negative_period_maxSec :
    Timespec.valid ⟨maxSecInDuration, 999999999⟩ = true ∧
      ∃ s, settingFromItimerspec ⟨⟨maxSecInDuration, 999999999⟩, ⟨1, 0⟩⟩ false zeroTime = .ok s ∧
        s.enabled = true ∧ s.period < 0 ∧
        ∀ (t : Timer) (rs : List Time), t.setting = s → t.paused = false → (∀ r ∈ rs, s.next ≤ r) →
          (t.runGoroutine rs).notified = t.notified ++ rs.map (fun _ => 1) ∧
            (t.runGoroutine rs).setting.next ≤ s.next :=
  ⟨by decide, settingFromItimerspec_negative_period _ false zeroTime (by decide) (by decide)⟩

end Timer

end Ktime
