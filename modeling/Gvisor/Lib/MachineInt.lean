import Mathlib.Tactic.Linarith
import Mathlib.Data.Nat.Bitwise

/-! Two's-complement 16-bit arithmetic without wrap-around: where the exact
result is representable, `+`, `-` and negation of `Int16` are those of `ℤ`,
and so is the conversion from `UInt16`; a `UInt64` read as an `int64` is
negative from `2^63` on. The one value whose negation wraps is
`Int16.minValue`. Sums and differences of `Int64` that do not wrap are those
of `ℤ` too, and an `Int64` read as a `UInt64` is its residue modulo `2^64`. A
running `UInt32` sum is the sum of naturals modulo `2^32`,
and masking off the low bits of a number rounds it down. -/

namespace Int16

theorem toInt_add_of_bounds {a b : Int16} (hlo : -2 ^ 15 ≤ a.toInt + b.toInt)
    (hhi : a.toInt + b.toInt < 2 ^ 15) : (a + b).toInt = a.toInt + b.toInt := by
  rw [Int16.toInt_add]
  exact Int.bmod_eq_of_le (by omega) (by omega)

theorem toInt_sub_of_bounds {a b : Int16} (hlo : -2 ^ 15 ≤ a.toInt - b.toInt)
    (hhi : a.toInt - b.toInt < 2 ^ 15) : (a - b).toInt = a.toInt - b.toInt := by
  rw [Int16.toInt_sub]
  exact Int.bmod_eq_of_le (by omega) (by omega)

theorem toInt_neg_of_ne_minValue {a : Int16} (h : a ≠ minValue) : (-a).toInt = -a.toInt := by
  have hne : a.toInt ≠ -2 ^ 15 := fun he => h (Int16.toInt_inj.mp (he.trans toInt_minValue.symm))
  have hlo := a.le_toInt
  have hhi := a.toInt_lt
  rw [Int16.toInt_neg]
  exact Int.bmod_eq_of_le (by omega) (by omega)

/-- `-minValue` wraps to `minValue` itself. -/
theorem neg_minValue : -minValue = minValue := by decide

end Int16

namespace Int64

theorem toInt_add_of_bounds {a b : Int64} (hlo : -2 ^ 63 ≤ a.toInt + b.toInt)
    (hhi : a.toInt + b.toInt < 2 ^ 63) : (a + b).toInt = a.toInt + b.toInt := by
  rw [Int64.toInt_add]
  exact Int.bmod_eq_of_le (by omega) (by omega)

theorem toInt_sub_of_bounds {a b : Int64} (hlo : -2 ^ 63 ≤ a.toInt - b.toInt)
    (hhi : a.toInt - b.toInt < 2 ^ 63) : (a - b).toInt = a.toInt - b.toInt := by
  rw [Int64.toInt_sub]
  exact Int.bmod_eq_of_le (by omega) (by omega)

/-- A difference of two `int64`s wraps by `2^64` exactly when it leaves the
range. -/
theorem bmod_eq_cases {x : ℤ} (hlo : -2 ^ 64 < x) (hhi : x < 2 ^ 64) :
    x.bmod (2 ^ 64) = if x < -2 ^ 63 then x + 2 ^ 64 else if x < 2 ^ 63 then x else x - 2 ^ 64 := by
  rw [Int.bmod]
  push_cast
  split_ifs <;> omega

/-- An `int64` read as a `uint64`, as Go's `uint64(x)` does. -/
theorem toNat_toUInt64 (x : Int64) : (x.toUInt64.toNat : ℤ) = x.toInt % 2 ^ 64 := by
  rw [Int64.toInt, ← Int64.toBitVec_toUInt64 x, BitVec.toInt]
  simp only [UInt64.toNat_toBitVec]
  have := x.toUInt64.toNat_lt
  split_ifs <;> omega

theorem pos_iff_toInt_pos {x : Int64} : 0 < x ↔ 0 < x.toInt := by
  rw [Int64.lt_iff_toInt_lt, Int64.toInt_zero]

theorem neg_iff_toInt_neg {x : Int64} : x < 0 ↔ x.toInt < 0 := by
  rw [Int64.lt_iff_toInt_lt, Int64.toInt_zero]

theorem toNat_toUInt64_of_nonneg {x : Int64} (h : 0 ≤ x.toInt) : x.toUInt64.toNat = x.toInt.toNat := by
  have hx := toNat_toUInt64 x
  have := Int64.toInt_lt x
  omega

/-- An `int64` sum from an offset of at least zero wraps exactly where the sum over the
integers passes `MaxInt64`. -/
theorem toInt_add_of_nonneg {a b : Int64} (ha : 0 ≤ a.toInt) :
    (a + b).toInt = if a.toInt + b.toInt < 2 ^ 63 then a.toInt + b.toInt
      else a.toInt + b.toInt - 2 ^ 64 := by
  have hb := Int64.le_toInt b
  have ha' := Int64.toInt_lt a
  have hb' := Int64.toInt_lt b
  rw [Int64.toInt_add, bmod_eq_cases (by omega) (by omega)]
  split_ifs <;> omega

/-- An `int64` read as a `uint64`, where its value over the integers is in `[0, 2^64)`. -/
theorem toNat_toUInt64_add {a b : Int64} (h₀ : 0 ≤ a.toInt + b.toInt)
    (h₁ : a.toInt + b.toInt < 2 ^ 64) : ((a + b).toUInt64.toNat : ℤ) = a.toInt + b.toInt := by
  have hmod := @Int.bmod_emod (a.toInt + b.toInt) (2 ^ 64)
  rw [toNat_toUInt64, Int64.toInt_add]
  push_cast at hmod ⊢
  rw [hmod]
  exact Int.emod_eq_of_lt h₀ h₁

end Int64

theorem UInt16.toInt_toInt16_of_lt {v : UInt16} (h : v.toNat < 2 ^ 15) :
    v.toInt16.toInt = v.toNat := by
  simp only [UInt16.toInt16, Int16.toInt, Int16.toBitVec, BitVec.toInt, UInt16.toNat_toBitVec]
  rw [if_pos (by omega)]

/-- A `UInt32` read as an `int32`, as Go's `int32(x)` does. -/
theorem UInt32.toInt_toInt32 (x : UInt32) :
    x.toInt32.toInt = if x.toNat < 2 ^ 31 then (x.toNat : ℤ) else (x.toNat : ℤ) - 2 ^ 32 := by
  rw [Int32.toInt, UInt32.toBitVec_toInt32, BitVec.toInt]
  simp only [UInt32.toNat_toBitVec]
  split_ifs <;> omega

theorem UInt32.toInt_toInt32_of_lt {x : UInt32} (h : x < 0x80000000) : x.toInt32.toInt = x.toNat := by
  rw [UInt32.toInt_toInt32, if_pos (show x.toNat < 2 ^ 31 from h)]

/-- Below `2^31`, a signed comparison of two words is the unsigned one. -/
theorem UInt32.toInt32_lt_iff_of_lt {a b : UInt32} (ha : a < 0x80000000) (hb : b < 0x80000000) :
    a.toInt32 < b.toInt32 ↔ a < b := by
  rw [Int32.lt_iff_toInt_lt, toInt_toInt32_of_lt ha, toInt_toInt32_of_lt hb, UInt32.lt_iff_toNat_lt]
  exact Int.ofNat_lt

theorem UInt32.toInt32_le_iff_of_lt {a b : UInt32} (ha : a < 0x80000000) (hb : b < 0x80000000) :
    a.toInt32 ≤ b.toInt32 ↔ a ≤ b := by
  rw [Int32.le_iff_toInt_le, toInt_toInt32_of_lt ha, toInt_toInt32_of_lt hb, UInt32.le_iff_toNat_le]
  exact Int.ofNat_le

theorem UInt32.toInt32_inj {a b : UInt32} : a.toInt32 = b.toInt32 ↔ a = b := by
  constructor
  · intro h
    apply UInt32.toBitVec_inj.1
    rw [← UInt32.toBitVec_toInt32, h, UInt32.toBitVec_toInt32]
  · intro h
    rw [h]

/-- A mask shifted down with the word it masks. -/
theorem UInt32.and_shiftRight (x m n : UInt32) : (x &&& m) >>> n = (x >>> n) &&& (m >>> n) := by
  apply UInt32.toNat_inj.1
  simp only [UInt32.toNat_and, UInt32.toNat_shiftRight]
  exact Nat.shiftRight_and_distrib

/-- Clearing the bits of a mask that a word does not have leaves the word. -/
theorem UInt32.and_not_eq_self {x m : UInt32} (h : x &&& m = 0) : x &&& ~~~m = x := by
  apply UInt32.toBitVec_inj.1
  have hb : x.toBitVec &&& m.toBitVec = 0 := by rw [← UInt32.toBitVec_and, h]; rfl
  apply BitVec.eq_of_getElem_eq
  intro i hi
  have hi' : (x.toBitVec &&& m.toBitVec)[i] = false := by rw [hb]; simp
  rw [BitVec.getElem_and] at hi'
  rw [UInt32.toBitVec_and, UInt32.toBitVec_not, BitVec.getElem_and, BitVec.getElem_not]
  cases hx : x.toBitVec[i] <;> simp_all

/-- A field below `2^(n-1)` is its own sign extension from `n` bits. -/
theorem UInt32.signExtend_setWidth_of_lt {y : UInt32} {n : ℕ} (h : y.toNat < 2 ^ (n - 1)) :
    UInt32.ofBitVec ((y.toBitVec.setWidth n).signExtend 32) = y := by
  have hlt : y.toNat < 2 ^ n :=
    lt_of_lt_of_le h (Nat.pow_le_pow_right (by norm_num) (Nat.sub_le n 1))
  have hmsb : (y.toBitVec.setWidth n).msb = false := by
    rw [BitVec.msb_eq_decide, BitVec.toNat_setWidth, UInt32.toNat_toBitVec, Nat.mod_eq_of_lt hlt]
    simpa using h
  apply UInt32.toBitVec_inj.1
  rw [UInt32.toBitVec_ofBitVec, BitVec.signExtend_eq_setWidth_of_msb_false hmsb]
  apply BitVec.eq_of_toNat_eq
  rw [BitVec.toNat_setWidth, BitVec.toNat_setWidth, UInt32.toNat_toBitVec, Nat.mod_eq_of_lt hlt,
    Nat.mod_eq_of_lt y.toNat_lt]

/-- A `UInt64` read as an `int64`, as Go's `int64(x)` does. -/
theorem UInt64.toInt_toInt64 (x : UInt64) :
    x.toInt64.toInt = if x.toNat < 2 ^ 63 then (x.toNat : ℤ) else (x.toNat : ℤ) - 2 ^ 64 := by
  rw [Int64.toInt, UInt64.toBitVec_toInt64, BitVec.toInt]
  simp only [UInt64.toNat_toBitVec]
  split_ifs <;> omega

/-- A `uint64` product read as an `int64` is the product of integers wrapped
to the signed range. -/
theorem UInt64.toInt_toInt64_mul (x : Int64) (e : UInt64) :
    (x.toUInt64 * e).toInt64.toInt = (x.toInt * e.toNat).bmod (2 ^ 64) := by
  have hx := Int64.toNat_toUInt64 x
  have hprod : ((x.toUInt64.toNat * e.toNat % 2 ^ 64 : ℕ) : ℤ) = x.toInt * e.toNat % 2 ^ 64 :=
    calc ((x.toUInt64.toNat * e.toNat % 2 ^ 64 : ℕ) : ℤ)
        = (x.toUInt64.toNat : ℤ) * e.toNat % 2 ^ 64 := by push_cast; rfl
      _ = x.toInt % 2 ^ 64 * e.toNat % 2 ^ 64 := by rw [hx]
      _ = x.toInt * e.toNat % 2 ^ 64 := by simp [Int.mul_emod]
  have hlo := Int.emod_nonneg (x.toInt * e.toNat) (by norm_num : (2 : ℤ) ^ 64 ≠ 0)
  have hhi := Int.emod_lt_of_pos (x.toInt * e.toNat) (by norm_num : (0 : ℤ) < 2 ^ 64)
  rw [UInt64.toInt_toInt64, UInt64.toNat_mul, Int.bmod]
  push_cast
  split_ifs <;> omega

theorem UInt32.toNat_foldl_add {α : Type*} (f : α → UInt32) : ∀ (l : List α) (c : UInt32),
    (l.foldl (fun sz x => sz + f x) c).toNat = (c.toNat + (l.map fun x => (f x).toNat).sum) % 2 ^ 32
  | [], c => by simp [Nat.mod_eq_of_lt c.toNat_lt]
  | x :: l, c => by
    rw [List.foldl_cons, UInt32.toNat_foldl_add f l, UInt32.toNat_add, List.map_cons, List.sum_cons]
    omega

/-- Clearing the low `k` of `n` bits rounds down to a multiple of `2 ^ k`. -/
theorem Nat.and_two_pow_sub_two_pow {x n k : ℕ} (hx : x < 2 ^ n) (hk : k ≤ n) :
    x &&& (2 ^ n - 2 ^ k) = x / 2 ^ k * 2 ^ k := by
  have hm : 2 ^ n - 2 ^ k = (2 ^ (n - k) - 1) <<< k := by
    rw [Nat.shiftLeft_eq, Nat.sub_mul, one_mul, ← Nat.pow_add, Nat.sub_add_cancel hk]
  have hd : x / 2 ^ k * 2 ^ k = (x >>> k) <<< k := by
    rw [Nat.shiftLeft_eq, Nat.shiftRight_eq_div_pow]
  rw [hm, hd]
  apply Nat.eq_of_testBit_eq
  intro i
  rw [Nat.testBit_and, Nat.testBit_shiftLeft, Nat.testBit_shiftLeft, Nat.testBit_two_pow_sub_one,
    Nat.testBit_shiftRight]
  by_cases hki : k ≤ i
  · rw [Nat.add_sub_cancel' hki]
    by_cases hn : i < n
    · simp [hki, show i - k < n - k by omega]
    · have hlt : x < 2 ^ i := lt_of_lt_of_le hx (Nat.pow_le_pow_right (by norm_num) (by omega))
      simp [hki, Nat.testBit_eq_false_of_lt hlt]
  · simp [hki]
