import Gvisor.Lib.MachineInt

/-! Time and durations of the sentry's clocks (pkg/sentry/kernel/time/time.go)
and the Linux time structures they are read from (pkg/abi/linux/time.go). A
`Time` and a `time.Duration` are `int64` nanoseconds. `Time.Add` and `Time.Sub`
test for overflow before they add, so that they saturate at `MinTime` and
`MaxTime`: `toInt_add` and `toInt_sub` say that they are the exact sum and
difference clamped to the `int64` range. The conversions of a `Timespec` or
`Timeval` multiply by `1e9` in `int64` and cap only large positive seconds. -/

namespace Ktime

/-- `time.Duration`: nanoseconds as an `int64`. -/
abbrev Duration := Int64

structure Time where
  ns : Int64
  deriving DecidableEq, Repr

def minTime : Time := ⟨Int64.minValue⟩

def maxTime : Time := ⟨Int64.maxValue⟩

def zeroTime : Time := ⟨0⟩

def minDuration : Duration := Int64.minValue

def maxDuration : Duration := Int64.maxValue

namespace Time

/-- Times are ordered as their nanoseconds, which is the order `Before` and
`After` test. -/
instance : LinearOrder Time :=
  LinearOrder.lift' (fun t => t.ns.toInt) (fun a b h => by
    cases a
    cases b
    simpa [Int64.toInt_inj] using h)

theorem le_iff {t u : Time} : t ≤ u ↔ t.ns.toInt ≤ u.ns.toInt := Iff.rfl

theorem lt_iff {t u : Time} : t < u ↔ t.ns.toInt < u.ns.toInt := Iff.rfl

/-- `Add`. -/
def add (t : Time) (d : Duration) : Time :=
  if t.ns > 0 ∧ d > Int64.maxValue - t.ns then maxTime
  else if t.ns < 0 ∧ d < Int64.minValue - t.ns then minTime
  else ⟨t.ns + d⟩

def equal (t u : Time) : Bool := t.ns == u.ns

def before (t u : Time) : Bool := decide (t.ns < u.ns)

def after (t u : Time) : Bool := decide (t.ns > u.ns)

def isZero (t : Time) : Bool := t.ns == 0

/-- `Sub`: the wrapped difference where adding it back gives `t`, else the
bound on the side of `t`. -/
def sub (t u : Time) : Duration :=
  let dur := t.ns - u.ns
  if (u.add dur).equal t then dur
  else if t.before u then minDuration
  else maxDuration

end Time

/-- The integer of the `int64` range nearest to `x`. -/
def saturate (x : ℤ) : ℤ := max (-2 ^ 63) (min (2 ^ 63 - 1) x)

theorem saturate_of_bounds {x : ℤ} (hlo : -2 ^ 63 ≤ x) (hhi : x < 2 ^ 63) : saturate x = x := by
  unfold saturate
  omega

namespace Time

private theorem toInt_maxValue_sub {x : Int64} (h : 0 < x.toInt) :
    (Int64.maxValue - x).toInt = 2 ^ 63 - 1 - x.toInt := by
  have := Int64.toInt_lt x
  rw [Int64.toInt_sub_of_bounds] <;> simp only [Int64.toInt_maxValue] <;> omega

private theorem toInt_minValue_sub {x : Int64} (h : x.toInt < 0) :
    (Int64.minValue - x).toInt = -2 ^ 63 - x.toInt := by
  have := Int64.le_toInt x
  rw [Int64.toInt_sub_of_bounds] <;> simp only [Int64.toInt_minValue] <;> omega

theorem toInt_add (t : Time) (d : Duration) :
    (t.add d).ns.toInt = saturate (t.ns.toInt + d.toInt) := by
  have htlo := Int64.le_toInt t.ns
  have hthi := Int64.toInt_lt t.ns
  have hdlo := Int64.le_toInt d
  have hdhi := Int64.toInt_lt d
  unfold add
  split_ifs with hmax hmin
  · obtain ⟨hpos, hover⟩ := hmax
    rw [gt_iff_lt, Int64.pos_iff_toInt_pos] at hpos
    rw [gt_iff_lt, Int64.lt_iff_toInt_lt, toInt_maxValue_sub hpos] at hover
    simp only [maxTime, Int64.toInt_maxValue, saturate]
    omega
  · obtain ⟨hneg, hunder⟩ := hmin
    rw [Int64.neg_iff_toInt_neg] at hneg
    rw [Int64.lt_iff_toInt_lt, toInt_minValue_sub hneg] at hunder
    simp only [minTime, Int64.toInt_minValue, saturate]
    omega
  · -- neither test fired, so the sum is in range and the `int64` addition is exact
    have hhi : t.ns.toInt + d.toInt < 2 ^ 63 := by
      by_cases hpos : 0 < t.ns.toInt
      · have hle : ¬ d > Int64.maxValue - t.ns := fun h => hmax ⟨by rwa [gt_iff_lt, Int64.pos_iff_toInt_pos], h⟩
        rw [gt_iff_lt, Int64.lt_iff_toInt_lt, toInt_maxValue_sub hpos] at hle
        omega
      · omega
    have hlo : -2 ^ 63 ≤ t.ns.toInt + d.toInt := by
      by_cases hneg : t.ns.toInt < 0
      · have hle : ¬ d < Int64.minValue - t.ns := fun h => hmin ⟨by rwa [Int64.neg_iff_toInt_neg], h⟩
        rw [Int64.lt_iff_toInt_lt, toInt_minValue_sub hneg] at hle
        omega
      · omega
    rw [saturate_of_bounds hlo hhi]
    exact Int64.toInt_add_of_bounds hlo hhi

theorem equal_iff {t u : Time} : t.equal u = true ↔ t.ns.toInt = u.ns.toInt := by
  rw [equal, beq_iff_eq, Int64.toInt_inj]

theorem toInt_sub (t u : Time) : (t.sub u).toInt = saturate (t.ns.toInt - u.ns.toInt) := by
  have htlo := Int64.le_toInt t.ns
  have hthi := Int64.toInt_lt t.ns
  have hulo := Int64.le_toInt u.ns
  have huhi := Int64.toInt_lt u.ns
  have hdur : (t.ns - u.ns).toInt = (t.ns.toInt - u.ns.toInt).bmod (2 ^ 64) := Int64.toInt_sub _ _
  have hback := toInt_add u (t.ns - u.ns)
  have hwrap := @Int64.bmod_eq_cases (t.ns.toInt - u.ns.toInt) (by omega) (by omega)
  rw [hdur, hwrap] at hback
  unfold sub before
  dsimp only
  split_ifs with heq hlt
  · rw [equal_iff, hback] at heq
    rw [hdur, hwrap]
    simp only [saturate] at heq ⊢
    split_ifs at heq ⊢ <;> omega
  · rw [equal_iff, hback] at heq
    simp only [decide_eq_true_eq, Int64.lt_iff_toInt_lt] at hlt
    simp only [minDuration, Int64.toInt_minValue, saturate] at heq ⊢
    split_ifs at heq <;> omega
  · rw [equal_iff, hback] at heq
    simp only [decide_eq_true_eq, Int64.lt_iff_toInt_lt] at hlt
    simp only [maxDuration, Int64.toInt_maxValue, saturate] at heq ⊢
    split_ifs at heq <;> omega

/-- Adding a duration that is not negative never goes back in time. -/
theorem le_add {t : Time} {d : Duration} (h : 0 ≤ d.toInt) : t ≤ t.add d := by
  have := Int64.toInt_lt t.ns
  rw [le_iff, toInt_add]
  unfold saturate
  omega

theorem add_le {t : Time} {d : Duration} (h : d.toInt ≤ 0) : t.add d ≤ t := by
  have := Int64.le_toInt t.ns
  rw [le_iff, toInt_add]
  unfold saturate
  omega

theorem after_iff {t u : Time} : t.after u = true ↔ u < t := by
  rw [after, decide_eq_true_eq, gt_iff_lt, Int64.lt_iff_toInt_lt]
  rfl

theorem after_eq_false {t u : Time} (h : t ≤ u) : t.after u = false := by
  rw [Bool.eq_false_iff, ne_eq, after_iff]
  exact not_lt.2 h

end Time

structure Timespec where
  sec : Int64
  nsec : Int64
  deriving DecidableEq, Repr

structure Timeval where
  sec : Int64
  usec : Int64
  deriving DecidableEq, Repr

/-- `maxSecInDuration`: the seconds that an `int64` of nanoseconds holds. -/
def maxSecInDuration : Int64 := Int64.maxValue / 1000000000

namespace Timespec

def toNsec (ts : Timespec) : Int64 := ts.sec * 1000000000 + ts.nsec

def toNsecCapped (ts : Timespec) : Int64 :=
  if ts.sec > maxSecInDuration then Int64.maxValue else ts.toNsec

def toDuration (ts : Timespec) : Duration := ts.toNsecCapped

def valid (ts : Timespec) : Bool := !(decide (ts.sec < 0) || decide (ts.nsec < 0) || decide (ts.nsec ≥ 1000000000))

private theorem toInt_mul_second {ts : Timespec} (hlo : -maxSecInDuration.toInt ≤ ts.sec.toInt)
    (hhi : ts.sec.toInt ≤ maxSecInDuration.toInt) :
    (ts.sec * 1000000000).toInt = ts.sec.toInt * 1000000000 := by
  have hmax : maxSecInDuration.toInt = 9223372036 := by decide
  have hsecond : (1000000000 : Int64).toInt = 1000000000 := rfl
  rw [Int64.toInt_mul, hsecond]
  exact Int.bmod_eq_of_le (by omega) (by omega)

private theorem not_capped {ts : Timespec} (hhi : ts.sec.toInt ≤ maxSecInDuration.toInt) :
    ¬ ts.sec > maxSecInDuration := by
  rw [gt_iff_lt, Int64.lt_iff_toInt_lt]
  omega

/-- Seconds below `maxSecInDuration`, whatever their sign, and nanoseconds
below a second are converted exactly: negative seconds are not capped. -/
theorem toInt_toDuration {ts : Timespec} (hlo : -maxSecInDuration.toInt ≤ ts.sec.toInt)
    (hhi : ts.sec.toInt < maxSecInDuration.toInt) (hn : 0 ≤ ts.nsec.toInt) (hn' : ts.nsec.toInt < 1000000000) :
    ts.toDuration.toInt = ts.sec.toInt * 1000000000 + ts.nsec.toInt := by
  have hmax : maxSecInDuration.toInt = 9223372036 := by decide
  have hmul := toInt_mul_second hlo hhi.le
  rw [toDuration, toNsecCapped, if_neg (not_capped hhi.le), toNsec, Int64.toInt_add_of_bounds] <;>
    rw [hmul] <;> omega

/-- At `maxSecInDuration` seconds itself, the cap is not taken and the
nanoseconds past `854775807` carry the sum over `MaxInt64`: a `Timespec` that
`Valid` accepts converts to a negative duration. -/
theorem toDuration_neg_of_maxSec {ts : Timespec} (hs : ts.sec = maxSecInDuration)
    (hn : 854775808 ≤ ts.nsec.toInt) (hn' : ts.nsec.toInt < 1000000000) :
    ts.valid = true ∧ ts.toDuration < 0 := by
  have hmax : maxSecInDuration.toInt = 9223372036 := by decide
  have hsec : ts.sec.toInt = 9223372036 := by rw [hs, hmax]
  have hmul := @toInt_mul_second ts (by omega) (by omega)
  constructor
  · have hlt : ¬ ts.nsec ≥ 1000000000 := by
      rw [ge_iff_le, Int64.le_iff_toInt_le, show (1000000000 : Int64).toInt = 1000000000 from rfl]
      omega
    have hsec0 : ¬ ts.sec < 0 := by
      rw [Int64.lt_iff_toInt_lt, Int64.toInt_zero]
      omega
    have hnsec0 : ¬ ts.nsec < 0 := by
      rw [Int64.lt_iff_toInt_lt, Int64.toInt_zero]
      omega
    simp [valid, hlt, hsec0, hnsec0]
  · rw [Int64.lt_iff_toInt_lt, Int64.toInt_zero, toDuration, toNsecCapped, if_neg (not_capped (by omega)),
      toNsec, Int64.toInt_add, hmul, hsec, Int64.bmod_eq_cases (by omega) (by omega)]
    split_ifs <;> omega

end Timespec

namespace Timeval

def toNsecCapped (tv : Timeval) : Int64 :=
  if tv.sec > maxSecInDuration then Int64.maxValue else tv.sec * 1000000000 + tv.usec * 1000

def toDuration (tv : Timeval) : Duration := tv.toNsecCapped

end Timeval

/-- `FromTimespec`. -/
def fromTimespec (ts : Timespec) : Time := ⟨ts.toNsecCapped⟩

/-- `linux.Itimerspec`. -/
structure Itimerspec where
  interval : Timespec
  value : Timespec
  deriving DecidableEq, Repr

/-- `linux.ItimerVal`. -/
structure ItimerVal where
  interval : Timeval
  value : Timeval
  deriving DecidableEq, Repr

end Ktime
