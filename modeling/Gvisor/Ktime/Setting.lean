import Gvisor.Ktime.Time
import Gvisor.Syserror

/-! The setting of an interval timer (pkg/sentry/kernel/time/time.go): the
conversions from the values an application passes to `timerfd_settime`,
`timer_settime` and `setitimer`, and `Setting.At`, which advances a setting
to a reading of its clock and counts the expirations since. `At` divides the
elapsed time by the period as `uint64`s and adds `uint64(Period) * exp` back
as a `time.Duration`, so that what it computes depends on the sign of the
period and on whether that product fits an `int64`: the lemmas below take the
three cases one at a time. -/

namespace Ktime

open Syserror

/-- `Setting`. The source documents `Period >= 0` as an invariant; the type
does not hold it, and nothing that builds a setting checks it. -/
structure Setting where
  enabled : Bool
  next : Time
  period : Duration
  deriving DecidableEq, Repr

/-- `SettingFromSpecAt`. -/
def settingFromSpecAt (value interval : Duration) (now : Time) : Except Errno Setting :=
  if value < 0 then .error .EINVAL
  else if value = 0 then .ok ⟨false, zeroTime, interval⟩
  else .ok ⟨true, now.add value, interval⟩

/-- `SettingFromSpec`, with the reading `c.Now()` of the clock. -/
def settingFromSpec (value interval : Duration) (now : Time) : Except Errno Setting :=
  settingFromSpecAt value interval now

/-- `SettingFromAbsSpec`. -/
def settingFromAbsSpec (value : Time) (interval : Duration) : Except Errno Setting :=
  if value.before zeroTime then .error .EINVAL
  else if value.isZero then .ok ⟨false, zeroTime, interval⟩
  else .ok ⟨true, value, interval⟩

/-- `SettingFromItimerspec`. -/
def settingFromItimerspec (its : Itimerspec) (abs : Bool) (now : Time) : Except Errno Setting :=
  if abs then settingFromAbsSpec (fromTimespec its.value) its.interval.toDuration
  else settingFromSpec its.value.toDuration its.interval.toDuration now

/-- The expirations of a timer that first expires at `next` and then once
every `period` that fall at or before `now`: what `At` is meant to count. -/
def dueCount (next period now : ℤ) : ℕ := if now < next then 0 else 1 + (now - next).toNat / period.toNat

theorem dueCount_of_le {next period now : ℤ} (h : next ≤ now) :
    dueCount next period now = 1 + (now - next).toNat / period.toNat := by
  rw [dueCount, if_neg (not_lt.2 h)]

theorem dueCount_le (next period now : ℤ) : dueCount next period now ≤ 1 + (now - next).toNat := by
  unfold dueCount
  split_ifs
  · omega
  · have := Nat.div_le_self (now - next).toNat period.toNat
    omega

/-- The periods counted reach at most one period past `now`. -/
theorem dueCount_mul_le (next period now : ℤ) (hp : 0 < period) (h : next ≤ now) :
    ((dueCount next period now * period.toNat : ℕ) : ℤ) ≤ now - next + period := by
  have hdiv := Nat.div_mul_le_self (now - next).toNat period.toNat
  rw [dueCount_of_le h, Nat.add_mul, one_mul]
  omega

/-- The periods counted reach past `now`. -/
theorem lt_dueCount_mul (next period now : ℤ) (hp : 0 < period) (h : next ≤ now) :
    now - next < ((dueCount next period now * period.toNat : ℕ) : ℤ) := by
  have hmod := @Nat.lt_div_mul_add (now - next).toNat period.toNat (by omega)
  rw [dueCount_of_le h, Nat.add_mul, one_mul]
  omega

private theorem natCast_mul_toNat {P : ℤ} (hp : 0 < P) (c : ℕ) : ((c * P.toNat : ℕ) : ℤ) = c * P := by
  rw [Nat.cast_mul, Int.toNat_of_nonneg hp.le]

/-- A reading before the `c`-th point of the grid has at most `c` points of
it due. -/
theorem dueCount_le_of_lt {next period now : ℤ} {c : ℕ} (hp : 0 < period) (h : now < next + c * period) :
    dueCount next period now ≤ c := by
  have hcP := natCast_mul_toNat hp c
  unfold dueCount
  split_ifs with hlt
  · exact Nat.zero_le c
  · have hdiv : (now - next).toNat / period.toNat < c := (Nat.div_lt_iff_lt_mul (by omega)).2 (by omega)
    omega

/-- Counting from the `c`-th point of the grid on counts the rest of it. -/
theorem dueCount_shift {next period now : ℤ} {c : ℕ} (hp : 0 < period) (h : next + c * period ≤ now) :
    dueCount next period now = c + dueCount (next + c * period) period now := by
  have hcP := natCast_mul_toNat hp c
  have hc : 0 ≤ (c : ℤ) * period := Int.mul_nonneg (Int.natCast_nonneg c) hp.le
  have helapsed : (now - next).toNat = (now - (next + c * period)).toNat + c * period.toNat := by omega
  rw [dueCount_of_le (by omega), dueCount_of_le h, helapsed, Nat.add_mul_div_right _ _ (by omega)]
  omega

/-- `SettingFromSpecAt` fails only for a negative value. -/
theorem settingFromSpecAt_eq_error {value interval : Duration} {now : Time} {e : Errno} :
    settingFromSpecAt value interval now = .error e ↔ value < 0 ∧ e = .EINVAL := by
  unfold settingFromSpecAt
  split_ifs with hneg hzero <;> simp [hneg, eq_comm]

/-- A relative value that is positive starts the timer no earlier than `now`,
and the interval is kept as the period, whatever its sign. -/
theorem settingFromSpecAt_of_pos {value interval : Duration} {now : Time} (hv : 0 < value) :
    settingFromSpecAt value interval now = .ok ⟨true, now.add value, interval⟩ ∧ now ≤ now.add value := by
  have hv' := Int64.pos_iff_toInt_pos.1 hv
  have hneg : ¬ value < 0 := fun h => by have := Int64.neg_iff_toInt_neg.1 h; omega
  have hzero : value ≠ 0 := fun h => by rw [h, Int64.toInt_zero] at hv'; exact lt_irrefl 0 hv'
  refine ⟨by simp [settingFromSpecAt, hneg, hzero], Time.le_add hv'.le⟩

/-- An absolute value that is positive starts the timer at that time, with
the interval kept as the period. -/
theorem settingFromAbsSpec_of_pos {value : Time} {interval : Duration} (hv : 0 < value.ns.toInt) :
    settingFromAbsSpec value interval = .ok ⟨true, value, interval⟩ := by
  have hbefore : value.before zeroTime = false := by
    simp only [Time.before, zeroTime, decide_eq_false_iff_not, Int64.lt_iff_toInt_lt, Int64.toInt_zero]
    omega
  have hzero : value.isZero = false := by
    simp only [Time.isZero, beq_eq_false_iff_ne, ne_eq]
    intro h
    rw [h, Int64.toInt_zero] at hv
    exact lt_irrefl 0 hv
  simp [settingFromAbsSpec, hbefore, hzero]

/-- An `Itimerspec` whose value converts to a positive duration, relative or
absolute, starts the timer with the converted interval as its period. -/
theorem settingFromItimerspec_of_pos (its : Itimerspec) (abs : Bool) (now : Time)
    (hv : 0 < its.value.toDuration) :
    ∃ next, settingFromItimerspec its abs now = .ok ⟨true, next, its.interval.toDuration⟩ ∧
      (abs = false → now ≤ next) := by
  cases abs with
  | false =>
    obtain ⟨hok, hle⟩ := @settingFromSpecAt_of_pos its.value.toDuration its.interval.toDuration now hv
    exact ⟨_, hok, fun _ => hle⟩
  | true =>
    refine ⟨fromTimespec its.value, ?_, fun h => absurd h (by decide)⟩
    exact settingFromAbsSpec_of_pos (Int64.pos_iff_toInt_pos.1 hv)

namespace Setting

/-- `At`. -/
def At (s : Setting) (now : Time) : Setting × UInt64 :=
  if !s.enabled then (s, 0)
  else if s.next.after now then (s, 0)
  else if s.period = 0 then ({ s with enabled := false }, 1)
  else
    let exp := 1 + (now.sub s.next).toUInt64 / s.period.toUInt64
    ({ s with next := s.next.add (s.period.toUInt64 * exp).toInt64 }, exp)

theorem At_of_disabled {s : Setting} (now : Time) (h : s.enabled = false) : s.At now = (s, 0) := by
  simp [At, h]

theorem At_of_lt {s : Setting} {now : Time} (h : now < s.next) : s.At now = (s, 0) := by
  have ha : s.next.after now = true := Time.after_iff.2 h
  cases hen : s.enabled <;> simp [At, hen, ha]

theorem At_of_oneShot {s : Setting} {now : Time} (hen : s.enabled = true) (hle : s.next ≤ now)
    (hp : s.period = 0) : s.At now = ({ s with enabled := false }, 1) := by
  have ha : s.next.after now = false := Time.after_eq_false hle
  simp [At, hen, ha, hp]

/-- A periodic setting that is due: the count and the new `Next` as the
source computes them. -/
theorem At_of_due {s : Setting} {now : Time} (hen : s.enabled = true) (hle : s.next ≤ now)
    (hp : s.period ≠ 0) :
    s.At now = ({ s with next := s.next.add (s.period.toUInt64 *
        (1 + (now.sub s.next).toUInt64 / s.period.toUInt64)).toInt64 },
      1 + (now.sub s.next).toUInt64 / s.period.toUInt64) := by
  have ha : s.next.after now = false := Time.after_eq_false hle
  simp [At, hen, ha, hp]

/-- The time elapsed since a due `Next`, as the `uint64` that `At` divides. -/
theorem toNat_elapsed {s : Setting} {now : Time} (hle : s.next ≤ now) :
    (now.sub s.next).toUInt64.toNat = (saturate (now.ns.toInt - s.next.ns.toInt)).toNat := by
  have hsub := Time.toInt_sub now s.next
  have hle' := Time.le_iff.1 hle
  rw [Int64.toNat_toUInt64_of_nonneg (by rw [hsub]; unfold saturate; omega), hsub]

/-- The count of a due periodic setting: one for `Next` and one for each whole
`uint64(Period)` that has elapsed since; it does not wrap. -/
theorem toNat_count {s : Setting} {now : Time} (hle : s.next ≤ now) :
    (1 + (now.sub s.next).toUInt64 / s.period.toUInt64).toNat =
      1 + (saturate (now.ns.toInt - s.next.ns.toInt)).toNat / (s.period.toInt % 2 ^ 64).toNat := by
  have hper : s.period.toUInt64.toNat = (s.period.toInt % 2 ^ 64).toNat := by
    have := Int64.toNat_toUInt64 s.period
    omega
  have hsat : (saturate (now.ns.toInt - s.next.ns.toInt)).toNat < 2 ^ 63 := by
    unfold saturate
    omega
  have hdiv : (saturate (now.ns.toInt - s.next.ns.toInt)).toNat / (s.period.toInt % 2 ^ 64).toNat < 2 ^ 63 :=
    lt_of_le_of_lt (Nat.div_le_self _ _) hsat
  rw [UInt64.toNat_add, UInt64.toNat_div, toNat_elapsed hle, hper, UInt64.toNat_one]
  exact Nat.mod_eq_of_lt (by omega)

/-- With a negative period, `uint64(Period)` is at least `2^63`, more than any
elapsed time: the count is one and `Next` moves by the period, backwards. -/
theorem At_of_neg_period {s : Setting} {now : Time} (hen : s.enabled = true) (hle : s.next ≤ now)
    (hp : s.period < 0) : s.At now = ({ s with next := s.next.add s.period }, 1) := by
  have hp' : s.period.toInt < 0 := Int64.neg_iff_toInt_neg.1 hp
  have hp0 : s.period ≠ 0 := fun h => by rw [h, Int64.toInt_zero] at hp'; exact lt_irrefl 0 hp'
  have hcount : 1 + (now.sub s.next).toUInt64 / s.period.toUInt64 = 1 := by
    apply UInt64.toNat_inj.1
    rw [toNat_count hle]
    have hsat : (saturate (now.ns.toInt - s.next.ns.toInt)).toNat < 2 ^ 63 := by
      unfold saturate
      omega
    have hlo := Int64.le_toInt s.period
    rw [Nat.div_eq_of_lt (by omega)]
    rfl
  have hdur : (s.period.toUInt64 * 1).toInt64 = s.period := by
    apply Int64.toInt_inj.1
    rw [UInt64.toInt_toInt64_mul, show (1 : UInt64).toNat = 1 from rfl, Nat.cast_one, Int.mul_one]
    exact Int.bmod_eq_of_le (by have := Int64.le_toInt s.period; omega) (by omega)
  rw [At_of_due hen hle hp0, hcount, hdur]

/-- A due setting with a positive period counts `dueCount`, and adds
`uint64(Period) * exp` back as that product wrapped to the `int64` range. -/
theorem At_of_pos_period_eq {s : Setting} {now : Time} (hen : s.enabled = true) (hle : s.next ≤ now)
    (hp : 0 < s.period) (hn : 0 ≤ s.next.ns.toInt) :
    ∃ d : Duration, s.At now = ({ s with next := s.next.add d },
        UInt64.ofNat (dueCount s.next.ns.toInt s.period.toInt now.ns.toInt)) ∧
      d.toInt = ((dueCount s.next.ns.toInt s.period.toInt now.ns.toInt * s.period.toInt.toNat : ℕ) : ℤ).bmod
        (2 ^ 64) := by
  have hp' : 0 < s.period.toInt := Int64.pos_iff_toInt_pos.1 hp
  have hp0 : s.period ≠ 0 := fun h => by rw [h, Int64.toInt_zero] at hp'; exact lt_irrefl 0 hp'
  have hle' := Time.le_iff.1 hle
  have hnow := Int64.toInt_lt now.ns
  have hsat : saturate (now.ns.toInt - s.next.ns.toInt) = now.ns.toInt - s.next.ns.toInt :=
    saturate_of_bounds (by omega) (by omega)
  have hper : (s.period.toInt % 2 ^ 64).toNat = s.period.toInt.toNat := by
    rw [Int.emod_eq_of_lt (by omega) (by have := Int64.toInt_lt s.period; omega)]
  have hcount := toNat_count hle
  rw [hsat, hper, ← dueCount_of_le hle'] at hcount
  have he : dueCount s.next.ns.toInt s.period.toInt now.ns.toInt < 2 ^ 64 := by
    have := dueCount_le s.next.ns.toInt s.period.toInt now.ns.toInt
    omega
  have hexp : 1 + (now.sub s.next).toUInt64 / s.period.toUInt64 =
      UInt64.ofNat (dueCount s.next.ns.toInt s.period.toInt now.ns.toInt) := by
    apply UInt64.toNat_inj.1
    rw [hcount, UInt64.toNat_ofNat_of_lt' he]
  refine ⟨_, by rw [At_of_due hen hle hp0, hexp], ?_⟩
  rw [UInt64.toInt_toInt64_mul, UInt64.toNat_ofNat_of_lt' he, Nat.cast_mul, Int.mul_comm]
  congr 2
  omega

/-- A positive period whose product with the count fits an `int64`: the new
`Next` is `Next` plus one period for each expiration counted, or `MaxTime`. -/
theorem At_of_pos_period {s : Setting} {now : Time} (hen : s.enabled = true) (hle : s.next ≤ now)
    (hp : 0 < s.period) (hn : 0 ≤ s.next.ns.toInt)
    (hfit : dueCount s.next.ns.toInt s.period.toInt now.ns.toInt * s.period.toInt.toNat < 2 ^ 63) :
    ∃ next, s.At now = ({ s with next := next },
        UInt64.ofNat (dueCount s.next.ns.toInt s.period.toInt now.ns.toInt)) ∧
      next.ns.toInt = saturate (s.next.ns.toInt +
        (dueCount s.next.ns.toInt s.period.toInt now.ns.toInt * s.period.toInt.toNat : ℕ)) := by
  obtain ⟨d, hat, hd⟩ := At_of_pos_period_eq hen hle hp hn
  refine ⟨_, hat, ?_⟩
  rw [Time.toInt_add, hd, Int.bmod_eq_of_le (by omega) (by omega)]

/-- A positive period whose product with the count does not fit an `int64`:
`time.Duration(uint64(Period) * exp)` is negative, and the new `Next` lies
before `now`, although the count said that every expiration up to `now` had
been counted. -/
theorem At_of_pos_period_wraps {s : Setting} {now : Time} (hen : s.enabled = true) (hle : s.next ≤ now)
    (hp : 0 < s.period) (hn : 0 ≤ s.next.ns.toInt)
    (hwrap : 2 ^ 63 ≤ dueCount s.next.ns.toInt s.period.toInt now.ns.toInt * s.period.toInt.toNat) :
    ∃ next, s.At now = ({ s with next := next },
        UInt64.ofNat (dueCount s.next.ns.toInt s.period.toInt now.ns.toInt)) ∧
      next.ns.toInt = s.next.ns.toInt +
        (dueCount s.next.ns.toInt s.period.toInt now.ns.toInt * s.period.toInt.toNat : ℕ) - 2 ^ 64 ∧
      next < now := by
  have hp' : 0 < s.period.toInt := Int64.pos_iff_toInt_pos.1 hp
  have hle' := Time.le_iff.1 hle
  have hnow := Int64.toInt_lt now.ns
  have hplt := Int64.toInt_lt s.period
  -- the product is less than the elapsed time plus one period
  have hprod := dueCount_mul_le s.next.ns.toInt s.period.toInt now.ns.toInt hp' hle'
  obtain ⟨d, hat, hd⟩ := At_of_pos_period_eq hen hle hp hn
  have hd' : d.toInt = (dueCount s.next.ns.toInt s.period.toInt now.ns.toInt * s.period.toInt.toNat : ℕ) - 2 ^ 64 := by
    rw [hd, ← Int.sub_bmod_right, Int.bmod_eq_of_le (by omega) (by omega), Nat.cast_pow, Nat.cast_ofNat]
  have hnext : (s.next.add d).ns.toInt =
      s.next.ns.toInt + (dueCount s.next.ns.toInt s.period.toInt now.ns.toInt * s.period.toInt.toNat : ℕ) - 2 ^ 64 := by
    rw [Time.toInt_add, hd', saturate_of_bounds (by omega) (by omega)]
    omega
  refine ⟨_, hat, hnext, ?_⟩
  rw [Time.lt_iff, hnext]
  omega

/-- A period of `2^62` ns, first due at 1 and read at `2^62 + 1`: two
expirations, and `Next` is moved to `1 - 2^63`. -/
example : Setting.At ⟨true, ⟨1⟩, 4611686018427387904⟩ ⟨4611686018427387905⟩ =
    (⟨true, ⟨-9223372036854775807⟩, 4611686018427387904⟩, 2) := by
  decide

end Setting

end Ktime
