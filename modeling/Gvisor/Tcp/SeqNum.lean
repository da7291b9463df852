import Mathlib

/-! TCP sequence numbers (pkg/tcpip/seqnum): 32-bit values that wrap at
2^32, compared by the sign of their 32-bit difference, so that the comparisons
order two values correctly when they are less than 2^31 apart. -/

namespace SeqNum

/-- `seqnum.Value`. -/
abbrev Value := UInt32

/-- `seqnum.Size`. -/
abbrev Size := UInt32

theorem toInt32_lt_zero_iff (x : UInt32) : x.toInt32 < 0 ↔ 2 ^ 31 ≤ x.toNat := by
  rw [Int32.lt_iff_toInt_lt]
  show x.toBitVec.toInt < (0 : Int32).toInt ↔ _
  rw [show (0 : Int32).toInt = 0 from rfl, BitVec.toInt_neg_iff]
  simp only [UInt32.toNat_toBitVec]
  omega

namespace Value

def lessThan (v w : Value) : Bool := (v - w).toInt32 < 0

def lessThanEq (v w : Value) : Bool := v == w || v.lessThan w

def inRange (v a b : Value) : Bool := v - a < b - a

def add (v : Value) (s : Size) : Value := v + s

def inWindow (v first : Value) (size : Size) : Bool := v.inRange first (first.add size)

def size (v w : Value) : Size := w - v

/-- `v` is before `w` when `w` is at most `2^31` ahead of it. -/
theorem lessThan_iff (v w : Value) :
    v.lessThan w = true ↔ 0 < (v.size w).toNat ∧ (v.size w).toNat ≤ 2 ^ 31 := by
  rw [lessThan, decide_eq_true_iff, toInt32_lt_zero_iff, size, UInt32.toNat_sub,
    UInt32.toNat_sub]
  have := v.toNat_lt
  have := w.toNat_lt
  omega

theorem lessThanEq_iff (v w : Value) : v.lessThanEq w = true ↔ (v.size w).toNat ≤ 2 ^ 31 := by
  have h := lessThan_iff v w
  have hs : v = w ↔ (v.size w).toNat = 0 := by
    rw [size, UInt32.toNat_sub]
    have := v.toNat_lt
    have := w.toNat_lt
    constructor
    · rintro rfl
      omega
    · intro h0
      apply UInt32.toNat_inj.1
      omega
  rw [lessThanEq, Bool.or_eq_true, beq_iff_eq, hs, h]
  omega

/-- One step before `v` is before `v`: `v.Add(Size(0) - 1)` is `v - 1`. -/
theorem add_zero_sub_one_lessThan (v : Value) : (v.add (0 - 1)).lessThan v = true := by
  have h : v + (0 - 1) - v = 0 - 1 := by grind
  simp only [lessThan, add, h]
  decide

section Distances

variable (base : Value) {a b v : Value}

/-- Within `2^31` past a common base, sequence numbers compare as their
distances from it. -/
theorem lessThan_iff_size_lt (ha : (base.size a).toNat < 2 ^ 31)
    (hb : (base.size b).toNat < 2 ^ 31) :
    a.lessThan b = true ↔ (base.size a).toNat < (base.size b).toNat := by
  rw [lessThan_iff]
  have := a.toNat_lt
  have := b.toNat_lt
  have := base.toNat_lt
  simp only [size, UInt32.toNat_sub] at *
  omega

theorem lessThanEq_iff_size_le (ha : (base.size a).toNat < 2 ^ 31)
    (hb : (base.size b).toNat < 2 ^ 31) :
    a.lessThanEq b = true ↔ (base.size a).toNat ≤ (base.size b).toNat := by
  rw [lessThanEq_iff]
  have := a.toNat_lt
  have := b.toNat_lt
  have := base.toNat_lt
  simp only [size, UInt32.toNat_sub] at *
  omega

/-- A range that lies within `2^31` past the base holds the sequence numbers
whose distances lie in it; any other number lies too far from its start. -/
theorem inRange_iff_size (hab : (base.size a).toNat ≤ (base.size b).toNat)
    (hb : (base.size b).toNat < 2 ^ 31) :
    v.inRange a b = true ↔
      (base.size a).toNat ≤ (base.size v).toNat ∧ (base.size v).toNat < (base.size b).toNat := by
  have := a.toNat_lt
  have := b.toNat_lt
  have := v.toNat_lt
  have := base.toNat_lt
  simp only [inRange, decide_eq_true_eq, UInt32.lt_iff_toNat_lt, UInt32.toNat_sub, size] at *
  omega

/-- The sequence number `n` past `base`. -/
theorem toNat_size_add {n : ℕ} (h : n < 2 ^ 32) : (base.size (base + n.toUInt32)).toNat = n := by
  have := base.toNat_lt
  simp only [size, UInt32.toNat_sub, UInt32.toNat_add, Nat.toUInt32, UInt32.toNat_ofNat']
  omega

/-- The distance from a base further on is the distance from the first one,
less the distance between the two bases. -/
theorem size_eq_sub_size {base' : Value} (hd : (base.size base').toNat ≤ (base.size v).toNat) :
    (base'.size v).toNat = (base.size v).toNat - (base.size base').toNat := by
  have := v.toNat_lt
  have := base.toNat_lt
  have := base'.toNat_lt
  simp only [size, UInt32.toNat_sub] at *
  omega

end Distances

end Value

def overlap (a : Value) (b : Size) (x : Value) (y : Size) : Bool :=
  a.lessThan (x.add y) && x.lessThan (a.add b)

end SeqNum
