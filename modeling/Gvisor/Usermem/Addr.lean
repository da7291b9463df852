import Gvisor.Lib.MachineInt

/-! `usermem.Addr` (pkg/sentry/usermem/addr.go) on a 64-bit platform, with the
page size of x86 and arm64. `AddLength` and `RoundUp` report wrap-around in
their second component, and on success they are the arithmetic of naturals. -/

namespace Usermem

abbrev Addr := UInt64

/-- `PageSize`, `1 << PageShift` with `PageShift = 12`. -/
def pageSize : UInt64 := 4096

namespace Addr

/-- `AddLength`. The check `length <= uint64(^Addr(0))` always holds for a
64-bit `uintptr`. -/
def addLength (v : Addr) (length : UInt64) : Addr × Bool :=
  let e := v + length
  (e, decide (e ≥ v))

/-- `RoundDown`. -/
def roundDown (v : Addr) : Addr := v &&& ~~~(pageSize - 1)

/-- `RoundUp`. -/
def roundUp (v : Addr) : Addr × Bool :=
  let a := roundDown (v + pageSize - 1)
  (a, decide (a ≥ v))

/-- `PageOffset`. -/
def pageOffset (v : Addr) : UInt64 := v &&& (pageSize - 1)

theorem toNat_roundDown (v : Addr) : (roundDown v).toNat = v.toNat / 4096 * 4096 := by
  have hmask : (~~~(pageSize - 1)).toNat = 2 ^ 64 - 2 ^ 12 := by decide
  rw [roundDown, UInt64.toNat_and, hmask]
  exact Nat.and_two_pow_sub_two_pow v.toNat_lt (by norm_num)

theorem toNat_pageOffset (v : Addr) : (pageOffset v).toNat = v.toNat % 4096 := by
  rw [pageOffset, UInt64.toNat_and]
  exact Nat.and_two_pow_sub_one_eq_mod v.toNat 12

theorem addLength_ok_iff (v : Addr) (length : UInt64) :
    (addLength v length).2 = true ↔ v.toNat + length.toNat < 2 ^ 64 := by
  have := v.toNat_lt
  have := length.toNat_lt
  simp only [addLength, decide_eq_true_eq, UInt64.le_iff_toNat_le, UInt64.toNat_add]
  omega

theorem toNat_addLength {v : Addr} {length : UInt64} (h : (addLength v length).2 = true) :
    (addLength v length).1.toNat = v.toNat + length.toNat := by
  rw [addLength_ok_iff] at h
  simp only [addLength, UInt64.toNat_add]
  omega

theorem addLength_eq_true {v length e : Addr} (h : addLength v length = (e, true)) :
    v.toNat + length.toNat < 2 ^ 64 ∧ e.toNat = v.toNat + length.toNat := by
  have hok : (addLength v length).2 = true := by rw [h]
  refine ⟨(addLength_ok_iff v length).1 hok, ?_⟩
  rw [← toNat_addLength hok, h]

theorem addLength_eq_false {v length e : Addr} (h : addLength v length = (e, false)) :
    2 ^ 64 ≤ v.toNat + length.toNat := by
  have hok : (addLength v length).2 = false := by rw [h]
  rw [← Bool.not_eq_true, addLength_ok_iff] at hok
  omega

theorem toNat_add_pageSize_sub_one (v : Addr) :
    (v + pageSize - 1).toNat = (v.toNat + 4095) % 2 ^ 64 := by
  have := v.toNat_lt
  have hps : pageSize.toNat = 4096 := rfl
  have hone : (1 : UInt64).toNat = 1 := rfl
  rw [UInt64.toNat_sub, UInt64.toNat_add, hps, hone]
  omega

theorem roundUp_ok_iff (v : Addr) : (roundUp v).2 = true ↔ v.toNat + 4095 < 2 ^ 64 := by
  have := v.toNat_lt
  simp only [roundUp, decide_eq_true_eq, UInt64.le_iff_toNat_le, toNat_roundDown,
    toNat_add_pageSize_sub_one]
  omega

theorem toNat_roundUp {v : Addr} (h : (roundUp v).2 = true) :
    (roundUp v).1.toNat = (v.toNat + 4095) / 4096 * 4096 := by
  rw [roundUp_ok_iff] at h
  simp only [roundUp, toNat_roundDown, toNat_add_pageSize_sub_one, Nat.mod_eq_of_lt h]

theorem roundUp_eq_true {v r : Addr} (h : roundUp v = (r, true)) :
    v.toNat + 4095 < 2 ^ 64 ∧ r.toNat = (v.toNat + 4095) / 4096 * 4096 := by
  have hok : (roundUp v).2 = true := by rw [h]
  refine ⟨(roundUp_ok_iff v).1 hok, ?_⟩
  rw [← toNat_roundUp hok, h]

theorem roundUp_eq_false {v r : Addr} (h : roundUp v = (r, false)) : 2 ^ 64 ≤ v.toNat + 4095 := by
  have hok : (roundUp v).2 = false := by rw [h]
  rw [← Bool.not_eq_true, roundUp_ok_iff] at hok
  omega

theorem roundDown_eq_self_iff (v : Addr) : roundDown v = v ↔ v.toNat % 4096 = 0 := by
  rw [← UInt64.toNat_inj, toNat_roundDown]
  omega

end Addr

/-- `HugePageSize`, `1 << HugePageShift` with `HugePageShift = 21`. -/
def hugePageSize : UInt64 := 2097152

/-- `AddrRange`, the range type of `pkg/segment` at `Addr`. -/
structure AddrRange where
  Start : Addr
  End : Addr
  deriving DecidableEq, Repr, Inhabited

namespace AddrRange

def length (ar : AddrRange) : UInt64 := ar.End - ar.Start

def isSupersetOf (ar ar2 : AddrRange) : Bool := ar.Start ≤ ar2.Start && ar.End ≥ ar2.End

def intersect (ar ar2 : AddrRange) : AddrRange :=
  let Start := if ar.Start < ar2.Start then ar2.Start else ar.Start
  let End := if ar.End > ar2.End then ar2.End else ar.End
  ⟨Start, if End < Start then Start else End⟩

/-- `[a, a + n)` lies in `ar`, in naturals. -/
def Holds (ar : AddrRange) (a n : ℕ) : Prop := ar.Start.toNat ≤ a ∧ a + n ≤ ar.End.toNat

theorem toNat_length {ar : AddrRange} (h : ar.Start.toNat ≤ ar.End.toNat) :
    ar.length.toNat = ar.End.toNat - ar.Start.toNat := by
  rw [length, UInt64.toNat_sub_of_le _ _ (UInt64.le_iff_toNat_le.2 h)]

theorem isSupersetOf_iff {ar ar2 : AddrRange} :
    ar.isSupersetOf ar2 = true ↔ ar.Start.toNat ≤ ar2.Start.toNat ∧ ar2.End.toNat ≤ ar.End.toNat := by
  simp only [isSupersetOf, Bool.and_eq_true, decide_eq_true_eq, ge_iff_le, UInt64.le_iff_toNat_le]

theorem toNat_intersect_start (ar ar2 : AddrRange) :
    (ar.intersect ar2).Start.toNat = max ar.Start.toNat ar2.Start.toNat := by
  simp only [intersect, UInt64.lt_iff_toNat_lt]
  split_ifs <;> omega

theorem toNat_intersect_end (ar ar2 : AddrRange) :
    (ar.intersect ar2).End.toNat =
      max (min ar.End.toNat ar2.End.toNat) (max ar.Start.toNat ar2.Start.toNat) := by
  simp only [intersect, gt_iff_lt, UInt64.lt_iff_toNat_lt]
  split_ifs <;> omega

theorem intersect_start_le_end (ar ar2 : AddrRange) :
    (ar.intersect ar2).Start.toNat ≤ (ar.intersect ar2).End.toNat := by
  rw [toNat_intersect_start, toNat_intersect_end]
  omega

theorem toNat_length_intersect (ar ar2 : AddrRange) :
    (ar.intersect ar2).length.toNat =
      min ar.End.toNat ar2.End.toNat - max ar.Start.toNat ar2.Start.toNat := by
  rw [toNat_length (intersect_start_le_end ar ar2), toNat_intersect_start, toNat_intersect_end]
  omega

theorem toNat_length_intersect_le (ar ar2 : AddrRange) :
    (ar.intersect ar2).length.toNat ≤ ar2.End.toNat := by
  rw [toNat_length_intersect]
  omega

theorem length_intersect_eq_zero_of_end_le {ar ar2 : AddrRange} (h : ar.End.toNat ≤ ar2.Start.toNat) :
    (ar.intersect ar2).length.toNat = 0 := by
  rw [toNat_length_intersect]
  omega

theorem length_intersect_eq_zero_of_le_start {ar ar2 : AddrRange}
    (h : ar2.End.toNat ≤ ar.Start.toNat) : (ar.intersect ar2).length.toNat = 0 := by
  rw [toNat_length_intersect]
  omega

/-- A range of `length` from its start fits in a range at least that long. -/
theorem holds_start {ar : AddrRange} {length : UInt64} (hse : ar.Start.toNat ≤ ar.End.toNat)
    (hlen : ar.length ≥ length) : ar.Holds ar.Start.toNat length.toNat := by
  rw [ge_iff_le, UInt64.le_iff_toNat_le, toNat_length hse] at hlen
  exact ⟨Nat.le_refl _, by omega⟩

/-- A range of `length` up to its end fits in a range at least that long. -/
theorem holds_end {ar : AddrRange} {length : UInt64} (hse : ar.Start.toNat ≤ ar.End.toNat)
    (hlen : ar.length ≥ length) : ar.Holds (ar.End - length).toNat length.toNat := by
  rw [ge_iff_le, UInt64.le_iff_toNat_le, toNat_length hse] at hlen
  rw [UInt64.toNat_sub_of_le _ _ (UInt64.le_iff_toNat_le.2 (by omega))]
  exact ⟨by omega, by omega⟩

/-- What the intersection of two ranges holds, both hold. -/
theorem Holds.of_intersect {ar ar2 : AddrRange} {a n : ℕ} (hn : 0 < n)
    (h : (ar.intersect ar2).Holds a n) : ar.Holds a n ∧ ar2.Holds a n := by
  obtain ⟨h1, h2⟩ := h
  rw [toNat_intersect_start] at h1
  rw [toNat_intersect_end] at h2
  exact ⟨⟨by omega, by omega⟩, ⟨by omega, by omega⟩⟩

end AddrRange

/-- `ToRange`. -/
def Addr.toRange (v : Addr) (length : UInt64) : AddrRange × Bool :=
  let (e, ok) := Addr.addLength v length
  (⟨v, e⟩, ok)

end Usermem
