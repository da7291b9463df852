import Gvisor.Futex.Manager
import Gvisor.Lib.MachineInt

/-! The operation word of `FUTEX_WAKE_OP` as `atomicOp` applies it to a word of
memory, beside `futex_atomic_op_inuser` of Linux, which defines it. The
`Target` of `atomicOp` only observes memory; here the word holds `v` while the
operation runs (no other task writes it between the load and the
compare-and-swap of the round that ends the loop), and the value the word holds
afterwards is what the swap or that compare-and-swap stores.

Linux reads `oparg` and `cmparg` as signed 12-bit numbers and compares the old
value with `cmparg` as signed 32-bit integers; `atomicOp` reads both fields
unsigned and compares unsigned. The two agree exactly where bit 11 of both
fields is clear, the shift of `FUTEX_OP_OPARG_SHIFT` is below 32 and, for an
ordering comparison, the old value is below `2^31`. -/

namespace Futex

open Syserror Usermem

/-- A `Target` whose word at every address holds `v` while the operation runs. -/
def wordTarget (v : UInt32) : Target where
  swapUint32 _ _ := .ok v
  compareAndSwapUint32 _ _ _ := .ok v
  loadUint32 _ := .ok v
  getSharedKey _ := .error .EFAULT

/-- `atomicOp` on a word that holds `v`, with the value the word holds after it:
`SwapUint32` stores `opArg`, and the `CompareAndSwapUint32` of the loop stores
the new value. -/
def atomicOpWord (v opIn : UInt32) : Except Errno Bool × UInt32 :=
  let opType := (opIn >>> 28) &&& 0xf
  let cmp := (opIn >>> 24) &&& 0xf
  let opArg := (opIn >>> 12) &&& 0xfff
  let cmpArg := opIn &&& 0xfff
  let (opType, opArg) :=
    if opType &&& futexOpOpargShift ≠ 0 then
      (opType &&& ~~~futexOpOpargShift, if opArg < 32 then 1 <<< opArg else 0)
    else (opType, opArg)
  if opType = futexOpSet then (opCmp cmp cmpArg v, opArg)
  else
    match opNewVal opType opArg v with
    | none => (.error .ENOSYS, v)
    | some newVal => (opCmp cmp cmpArg v, newVal)

/-- On a `Target` that reads `v` at `addr`, and whose swap and compare-and-swap
against `v` there find `v`, `atomicOp` ends in its first round and returns what
`atomicOpWord` does. -/
theorem atomicOp_of_word {t : Target} {addr : Addr} {v : UInt32} (opIn : UInt32)
    (hl : t.loadUint32 addr = .ok v) (hs : ∀ x, t.swapUint32 addr x = .ok v)
    (hc : ∀ x, t.compareAndSwapUint32 addr v x = .ok v) :
    atomicOp t addr opIn = some (atomicOpWord v opIn).1 := by
  unfold atomicOp atomicOpWord
  dsimp only
  split_ifs <;> simp only [hl, hs, Option.map_some, Except.bind] <;>
    cases opNewVal _ _ v <;> simp [hc]

theorem atomicOp_wordTarget (v : UInt32) (addr : Addr) (opIn : UInt32) :
    atomicOp (wordTarget v) addr opIn = some (atomicOpWord v opIn).1 :=
  atomicOp_of_word opIn rfl (fun _ => rfl) (fun _ => rfl)

/-! ### `futex_atomic_op_inuser` -/

/-- `sign_extend32(value, index)`: bit `index` of `value` copied into the bits
above it. -/
def signExtend32 (value : UInt32) (index : ℕ) : UInt32 :=
  UInt32.ofBitVec ((value.toBitVec.setWidth (index + 1)).signExtend 32)

/-- `arch_futex_atomic_op_inuser`: the new value of the word, `none` for an
operation it does not know (`-ENOSYS`). -/
def archFutexAtomicOp (op oparg oldval : UInt32) : Option UInt32 :=
  if op = futexOpSet then some oparg
  else if op = futexOpAdd then some (oldval + oparg)
  else if op = futexOpOr then some (oldval ||| oparg)
  else if op = futexOpAndn then some (oldval &&& ~~~oparg)
  else if op = futexOpXor then some (oldval ^^^ oparg)
  else none

/-- The comparison of `futex_atomic_op_inuser`, on `int`s. -/
def futexCmp (cmp : UInt32) (oldval cmparg : Int32) : Except Errno Bool :=
  if cmp = futexOpCmpEq then .ok (oldval == cmparg)
  else if cmp = futexOpCmpNe then .ok (oldval != cmparg)
  else if cmp = futexOpCmpLt then .ok (decide (oldval < cmparg))
  else if cmp = futexOpCmpGe then .ok (decide (oldval ≥ cmparg))
  else if cmp = futexOpCmpLe then .ok (decide (oldval ≤ cmparg))
  else if cmp = futexOpCmpGt then .ok (decide (oldval > cmparg))
  else .error .ENOSYS

/-- `futex_atomic_op_inuser` on a word that holds `oldval`: the result of the
comparison and the value the word holds after it. A shift by an `oparg`
outside `0..31` is taken modulo 32. -/
def futexAtomicOpInuser (oldval encodedOp : UInt32) : Except Errno Bool × UInt32 :=
  let op := (encodedOp &&& 0x70000000) >>> 28
  let cmp := (encodedOp &&& 0x0f000000) >>> 24
  let oparg := signExtend32 ((encodedOp &&& 0x00fff000) >>> 12) 11
  let cmparg := signExtend32 (encodedOp &&& 0x00000fff) 11
  let oparg :=
    if encodedOp &&& (futexOpOpargShift <<< 28) ≠ 0 then
      1 <<< (if oparg.toInt32 < 0 ∨ 31 < oparg.toInt32 then oparg &&& 31 else oparg)
    else oparg
  match archFutexAtomicOp op oparg oldval with
  | none => (.error .ENOSYS, oldval)
  | some newval => (futexCmp cmp oldval.toInt32 cmparg.toInt32, newval)

/-! ### Where the two read the word alike -/

section Fields

variable (x : UInt32)

theorem futexOp_field : (x &&& 0x70000000) >>> 28 = ((x >>> 28) &&& 0xf) &&& ~~~futexOpOpargShift := by
  rw [UInt32.and_assoc, UInt32.and_shiftRight]
  rfl

theorem futexCmp_field : (x &&& 0x0f000000) >>> 24 = (x >>> 24) &&& 0xf := by
  rw [UInt32.and_shiftRight]
  rfl

theorem futexOparg_field : (x &&& 0x00fff000) >>> 12 = (x >>> 12) &&& 0xfff := by
  rw [UInt32.and_shiftRight]
  rfl

/-- Both read `FUTEX_OP_OPARG_SHIFT` as bit 31 of the word. -/
theorem futexOpargShift_field :
    x &&& (futexOpOpargShift <<< 28) ≠ 0 ↔ ((x >>> 28) &&& 0xf) &&& futexOpOpargShift ≠ 0 := by
  rw [UInt32.and_assoc, show (0xf : UInt32) &&& futexOpOpargShift = futexOpOpargShift from rfl]
  simp only [ne_eq, ← UInt32.toNat_inj, UInt32.toNat_and, UInt32.toNat_shiftRight]
  rw [show (futexOpOpargShift <<< 28).toNat = 2 ^ 31 from rfl,
    show futexOpOpargShift.toNat = 2 ^ 3 from rfl, show (28 : UInt32).toNat % 32 = 28 from rfl,
    show (0 : UInt32).toNat = 0 from rfl, Nat.and_two_pow, Nat.and_two_pow, Nat.testBit_shiftRight]
  cases x.toNat.testBit (28 + 3) <;> simp

end Fields

theorem signExtend32_of_lt {y : UInt32} (h : y < 0x800) : signExtend32 y 11 = y :=
  UInt32.signExtend_setWidth_of_lt (show y.toNat < 2 ^ 11 from h)

theorem archFutexAtomicOp_of_ne_set {op : UInt32} (h : op ≠ futexOpSet) (oparg oldval : UInt32) :
    archFutexAtomicOp op oparg oldval = opNewVal op oparg oldval := by
  simp [archFutexAtomicOp, opNewVal, h]

/-- `atomicOp`'s swap for `FUTEX_OP_SET` and its loop for the other operations
store what `arch_futex_atomic_op_inuser` stores. -/
theorem archFutexAtomicOp_dispatch (op oparg oldval : UInt32) (r : Except Errno Bool) :
    (if op = futexOpSet then (r, oparg)
      else match opNewVal op oparg oldval with
        | none => (.error .ENOSYS, oldval)
        | some newVal => (r, newVal)) =
    match archFutexAtomicOp op oparg oldval with
    | none => (.error .ENOSYS, oldval)
    | some newval => (r, newval) := by
  by_cases h : op = futexOpSet
  · simp [h, archFutexAtomicOp]
  · rw [if_neg h, archFutexAtomicOp_of_ne_set h]

/-- The signed comparison of the old value with a non-negative `cmparg` is the
unsigned one, for an ordering comparison once the old value is below `2^31`. -/
theorem futexCmp_toInt32 {cmp cmpArg v : UInt32} (hc : cmpArg < 0x800)
    (hv : v < 0x80000000 ∨ cmp ≤ futexOpCmpNe) :
    futexCmp cmp v.toInt32 cmpArg.toInt32 = opCmp cmp cmpArg v := by
  have hc' : cmpArg < 0x80000000 := UInt32.lt_of_lt_of_le hc (by decide)
  have hbeq : (v.toInt32 == cmpArg.toInt32) = (v == cmpArg) := by simp [UInt32.toInt32_inj]
  unfold futexCmp opCmp
  by_cases h0 : cmp = futexOpCmpEq
  · simp [h0, hbeq]
  by_cases h1 : cmp = futexOpCmpNe
  · simp [h1, futexOpCmpNe, futexOpCmpEq, bne, hbeq]
  have hv' : v < 0x80000000 := by
    rcases hv with hv | hv
    · exact hv
    · exfalso
      have hn : cmp.toNat ≤ 1 := hv
      have h0' : cmp.toNat ≠ 0 := fun h => h0 (UInt32.toNat_inj.1 h)
      have h1' : cmp.toNat ≠ 1 := fun h => h1 (UInt32.toNat_inj.1 h)
      omega
  have hlt := UInt32.toInt32_lt_iff_of_lt hv' hc'
  have hle := UInt32.toInt32_le_iff_of_lt hv' hc'
  have hgt := UInt32.toInt32_lt_iff_of_lt hc' hv'
  have hge := UInt32.toInt32_le_iff_of_lt hc' hv'
  simp only [h0, h1, if_false, gt_iff_lt, ge_iff_le, hlt, hle, hgt, hge]
  -- Linux tests `GE` before `LE` and `GT`; the codes are distinct, so the order is immaterial
  by_cases h3 : cmp = futexOpCmpLe
  · simp [h3, futexOpCmpLe, futexOpCmpGe, futexOpCmpLt]
  by_cases h4 : cmp = futexOpCmpGt
  · simp [h4, futexOpCmpGt, futexOpCmpGe, futexOpCmpLt]
  simp [h3, h4]

/-- An `oparg` of `0..31` is shifted by as it stands. -/
theorem futexOparg_in_range {opArg : UInt32} (h : opArg < 32) :
    ¬(opArg.toInt32 < 0 ∨ 31 < opArg.toInt32) := by
  have hA : opArg.toInt32.toInt = opArg.toNat :=
    UInt32.toInt_toInt32_of_lt (UInt32.lt_of_lt_of_le h (by decide))
  have h' : opArg.toNat < 32 := h
  rw [Int32.lt_iff_toInt_lt, Int32.lt_iff_toInt_lt, hA, show (0 : Int32).toInt = 0 from rfl,
    show (31 : Int32).toInt = 31 from rfl]
  omega

/-- Where bit 11 of `oparg` and of `cmparg` is clear, a shift by
`FUTEX_OP_OPARG_SHIFT` is below 32 and, for an ordering comparison, the old
value is below `2^31`, `atomicOp` stores what `futex_atomic_op_inuser` stores
and returns what it returns. -/
theorem atomicOpWord_eq_futexAtomicOpInuser {v opIn : UInt32}
    (hop : (opIn >>> 12) &&& 0xfff < 0x800) (hcmp : opIn &&& 0xfff < 0x800)
    (hshift : (opIn >>> 28) &&& 0xf &&& futexOpOpargShift ≠ 0 → (opIn >>> 12) &&& 0xfff < 32)
    (hv : v < 0x80000000 ∨ (opIn >>> 24) &&& 0xf ≤ futexOpCmpNe) :
    atomicOpWord v opIn = futexAtomicOpInuser v opIn := by
  unfold atomicOpWord futexAtomicOpInuser
  dsimp only
  simp only [futexOp_field, futexCmp_field, futexOparg_field, futexOpargShift_field,
    signExtend32_of_lt hop, signExtend32_of_lt hcmp]
  have hres := futexCmp_toInt32 hcmp hv
  generalize (opIn >>> 28) &&& 0xf = opType at hshift ⊢
  generalize (opIn >>> 24) &&& 0xf = cmp at hres ⊢
  generalize (opIn >>> 12) &&& 0xfff = opArg at hop hshift ⊢
  rw [hres]
  by_cases hs : opType &&& futexOpOpargShift ≠ 0
  · simp only [if_pos hs, if_pos (hshift hs), futexOparg_in_range (hshift hs), if_false]
    exact archFutexAtomicOp_dispatch _ _ v _
  · -- without the flag, clearing it leaves the operation as it is
    simp only [if_neg hs, UInt32.and_not_eq_self (not_not.1 hs)]
    exact archFutexAtomicOp_dispatch _ _ v _

/-- `atomicOp` does what `futex_atomic_op_inuser` does only on part of the
operation words. On a word that holds `v`, its round that ends the loop applies
the operation to `v`, and it stores and returns what Linux does wherever both
12-bit fields have bit 11 clear and the conditions above hold. But it reads
`cmparg` unsigned: `FUTEX_OP_SET` of 0 with `FUTEX_OP_CMP_EQ` and
`cmparg = 0xfff`, which Linux reads as `-1`, finds the old value `0xffffffff`
unequal where Linux finds it equal. -/
theorem atomicOp_diverges_from_futexAtomicOpInuser :
    (∀ (t : Target) (addr : Addr) (v opIn : UInt32), t.loadUint32 addr = .ok v →
      (∀ x, t.swapUint32 addr x = .ok v) → (∀ x, t.compareAndSwapUint32 addr v x = .ok v) →
      atomicOp t addr opIn = some (atomicOpWord v opIn).1) ∧
    (∀ v opIn : UInt32, (opIn >>> 12) &&& 0xfff < 0x800 → opIn &&& 0xfff < 0x800 →
      ((opIn >>> 28) &&& 0xf &&& futexOpOpargShift ≠ 0 → (opIn >>> 12) &&& 0xfff < 32) →
      (v < 0x80000000 ∨ (opIn >>> 24) &&& 0xf ≤ futexOpCmpNe) →
      atomicOpWord v opIn = futexAtomicOpInuser v opIn) ∧
    atomicOp (wordTarget 0xffffffff) 0 0x00000fff = some (.ok false) ∧
    atomicOpWord 0xffffffff 0x00000fff = (.ok false, 0) ∧
    futexAtomicOpInuser 0xffffffff 0x00000fff = (.ok true, 0) := by
  refine ⟨fun _ _ _ opIn hl hs hc => atomicOp_of_word opIn hl hs hc,
    fun _ _ hop hcmp hshift hv => atomicOpWord_eq_futexAtomicOpInuser hop hcmp hshift hv, ?_, rfl, rfl⟩
  rw [atomicOp_wordTarget]
  rfl

/-- `FUTEX_OP(FUTEX_OP_ADD, 1, FUTEX_OP_CMP_LT, 5)` on a word holding 3, as
`atomicOp` and as Linux apply it: 4 is stored, and 3 < 5. -/
theorem atomicOp_diverges_from_futexAtomicOpInuser_add :
    atomicOp (wordTarget 3) 0 0x12001005 = some (atomicOpWord 3 0x12001005).1 ∧
      atomicOpWord 3 0x12001005 = futexAtomicOpInuser 3 0x12001005 ∧
      futexAtomicOpInuser 3 0x12001005 = (.ok true, 4) :=
  ⟨atomicOp_diverges_from_futexAtomicOpInuser.1 _ _ 3 _ rfl (fun _ => rfl) (fun _ => rfl),
    atomicOp_diverges_from_futexAtomicOpInuser.2.1 3 _ (by decide) (by decide) (by decide)
      (Or.inl (by decide)), rfl⟩

end Futex
