import Gvisor.FsLock.Lock
import Gvisor.Lib.MachineInt
import Gvisor.Syserror

/-! `ComputeRange` of pkg/sentry/fs/lock: the lock range of an `fcntl` request from its
`l_start` and `l_len` and the file offset that `l_whence` selects. The additions are the
source's `int64` ones, which wrap, and the bounds are converted to `uint64`. Over the
integers, the range starts at `offset + start` and reaches `length` bytes on from there,
or back from there when `length` is negative. -/

namespace FsLock

open Segment Syserror

/-- `ComputeRange`. -/
def computeRange (start length offset : Int64) : Except Errno Range := do
  let offset := offset + start
  if offset < 0 then throw .EINVAL
  if length > 0 then pure ⟨offset.toUInt64.toNat, (offset + length).toUInt64.toNat⟩
  else if length < 0 then
    let signedEnd := offset
    let offset := offset + length
    if offset < 0 then throw .EINVAL
    if signedEnd < offset then throw .EOVERFLOW
    pure ⟨offset.toUInt64.toNat, signedEnd.toUInt64.toNat⟩
  else pure ⟨offset.toUInt64.toNat, lockEOF⟩

/-- `ComputeRange` over the integers: `EINVAL` where the offset is negative or past
`MaxInt64`, or where a negative length reaches back past zero. -/
theorem computeRange_eq (start length offset : Int64) (ho : 0 ≤ offset.toInt) :
    computeRange start length offset =
      if offset.toInt + start.toInt < 0 ∨ 2 ^ 63 ≤ offset.toInt + start.toInt then .error .EINVAL
      else if 0 < length.toInt then
        .ok ⟨(offset.toInt + start.toInt).toNat, (offset.toInt + start.toInt + length.toInt).toNat⟩
      else if length.toInt < 0 then
        if offset.toInt + start.toInt + length.toInt < 0 then .error .EINVAL
        else .ok ⟨(offset.toInt + start.toInt + length.toInt).toNat, (offset.toInt + start.toInt).toNat⟩
      else .ok ⟨(offset.toInt + start.toInt).toNat, lockEOF⟩ := by
  have hs := Int64.toInt_add_of_nonneg (b := start) ho
  have ho₁ := Int64.toInt_lt offset
  have hs₀ := Int64.le_toInt start
  have hs₁ := Int64.toInt_lt start
  have hl₀ := Int64.le_toInt length
  have hl₁ := Int64.toInt_lt length
  by_cases hbad : offset.toInt + start.toInt < 0 ∨ 2 ^ 63 ≤ offset.toInt + start.toInt
  · have hneg : offset + start < 0 := by
      rw [Int64.neg_iff_toInt_neg, hs]
      split_ifs <;> omega
    simp only [computeRange, hneg, if_true, if_pos hbad]
    rfl
  rw [if_neg hbad]
  have hx : (offset + start).toInt = offset.toInt + start.toInt := by rw [hs, if_pos (by omega)]
  have hnn : ¬ offset + start < 0 := by
    rw [Int64.neg_iff_toInt_neg]
    omega
  have hxn : (offset + start).toUInt64.toNat = (offset.toInt + start.toInt).toNat := by
    rw [Int64.toNat_toUInt64_of_nonneg (by omega), hx]
  by_cases hpos : 0 < length.toInt
  · -- the end `offset + length` may wrap in `int64`, but not as a `uint64`
    have hgt : length > 0 := Int64.pos_iff_toInt_pos.2 hpos
    have hend := Int64.toNat_toUInt64_add (a := offset + start) (b := length) (by omega) (by omega)
    rw [hx] at hend
    simp only [computeRange, hnn, hgt, if_true, if_false, if_pos hpos, hxn]
    congr
    omega
  rw [if_neg hpos]
  have hngt : ¬ length > 0 := fun h => hpos (Int64.pos_iff_toInt_pos.1 h)
  by_cases hneg : length.toInt < 0
  · have hlt : length < 0 := Int64.neg_iff_toInt_neg.2 hneg
    have hy : (offset + start + length).toInt = offset.toInt + start.toInt + length.toInt := by
      rw [Int64.toInt_add_of_bounds (by omega) (by omega), hx]
    rw [if_pos hneg]
    by_cases hback : offset.toInt + start.toInt + length.toInt < 0
    · have hyn : offset + start + length < 0 := by
        rw [Int64.neg_iff_toInt_neg, hy]
        exact hback
      simp only [computeRange, hnn, hngt, hlt, hyn, if_true, if_false, if_pos hback]
      rfl
    · have hyn : ¬ offset + start + length < 0 := by
        rw [Int64.neg_iff_toInt_neg, hy]
        exact hback
      have hord : ¬ offset + start < offset + start + length := by
        rw [Int64.lt_iff_toInt_lt, hy, hx]
        omega
      simp only [computeRange, hnn, hngt, hlt, hyn, hord, if_true, if_false, if_neg hback, hxn,
        Int64.toNat_toUInt64_of_nonneg (show 0 ≤ (offset + start + length).toInt by omega), hy]
      rfl
  · have hnlt : ¬ length < 0 := fun h => hneg (Int64.neg_iff_toInt_neg.1 h)
    simp only [computeRange, hnn, hngt, hnlt, if_false, if_neg hneg, hxn]
    rfl

theorem computeRange_spec (start length offset : Int64) (ho : 0 ≤ offset.toInt) :
    (∀ r, computeRange start length offset = .ok r →
      r.Start < r.End ∧
      (0 < length.toInt → (r.Start : ℤ) = offset.toInt + start.toInt ∧
        (r.End : ℤ) = offset.toInt + start.toInt + length.toInt) ∧
      (length.toInt = 0 → (r.Start : ℤ) = offset.toInt + start.toInt ∧ r.End = lockEOF) ∧
      (length.toInt < 0 → (r.Start : ℤ) = offset.toInt + start.toInt + length.toInt ∧
        (r.End : ℤ) = offset.toInt + start.toInt)) ∧
    (offset.toInt + start.toInt < 0 ∨
        (length.toInt < 0 ∧ offset.toInt + start.toInt + length.toInt < 0) →
      computeRange start length offset = .error .EINVAL) := by
  have hl₁ := Int64.toInt_lt length
  rw [computeRange_eq start length offset ho]
  constructor
  · intro r hr
    split_ifs at hr with hbad hpos hneg hback
    all_goals
      cases hr
      simp only [lockEOF, and_true]
      omega
  · intro h
    split_ifs with hbad hpos hneg hback
    all_goals first | rfl | omega

/-- A negative length that reaches back past the start of the file. -/
theorem computeRange_spec_before_start :
    0 ≤ (0 : Int64).toInt ∧ computeRange 0 (-4096) 0 = .error .EINVAL :=
  ⟨by decide, (computeRange_spec 0 (-4096) 0 (by decide)).2 (.inr ⟨by decide, by decide⟩)⟩

end FsLock
