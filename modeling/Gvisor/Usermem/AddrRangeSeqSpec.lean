import Gvisor.Usermem.AddrRangeSeq

/-! What an `AddrRangeSeq` stands for. A sequence is read as the list of ranges that
`Head` and `Tail` give. That list is the raw ranges (the array, from `offset` bytes into
its first range) cut after `limit` bytes, and the cut keeps every range, with ranges past
it of length zero. `Inv` is the part of the documented invariant that `Tail`,
`TakeFirst64` and `DropFirst64` keep. `DocInv` adds the documented `limit > 0` for
`length >= 2`, which `TakeFirst64` and `DropFirst64` do not keep. -/

namespace Usermem

/-- The combined length of a list of ranges. -/
def bytesOf (l : List AddrRange) : ℕ := (l.map fun ar => ar.length.toNat).sum

/-- `l` cut after `n` bytes: each range keeps its start, and each range past the cut has
no bytes. -/
def truncate : List AddrRange → ℕ → List AddrRange
  | [], _ => []
  | ar :: rest, n =>
    if ar.length.toNat ≤ n then ar :: truncate rest (n - ar.length.toNat)
    else ⟨ar.Start, ar.Start + n.toUInt64⟩ :: truncate rest 0

/-- `l` without its first `n` bytes. Each range that ends at or before the cut goes. A
range that the cut falls inside starts at the cut. -/
def dropFrom : List AddrRange → ℕ → List AddrRange
  | l, 0 => l
  | [], _ + 1 => []
  | ar :: rest, n + 1 =>
    if n + 1 < ar.length.toNat then ⟨ar.Start + (n + 1).toUInt64, ar.End⟩ :: rest
    else dropFrom rest (n + 1 - ar.length.toNat)

/-- The list of the documentation of `DropFirst`: empty past its bytes, and a first
range of length zero always dropped. -/
def dropBytes (l : List AddrRange) (n : ℕ) : List AddrRange :=
  if bytesOf l < n then []
  else match l with
    | ar :: rest => if ar.length = 0 then dropFrom rest n else dropFrom l n
    | [] => []

theorem dropBytes_of_lt {l : List AddrRange} {n : ℕ} (h : bytesOf l < n) : dropBytes l n = [] := by
  simp only [dropBytes, if_pos h]

theorem dropBytes_cons {ar : AddrRange} {rest : List AddrRange} {n : ℕ}
    (h : ¬ bytesOf (ar :: rest) < n) :
    dropBytes (ar :: rest) n = if ar.length = 0 then dropFrom rest n else dropFrom (ar :: rest) n := by
  simp only [dropBytes, if_neg h]

@[simp] theorem bytesOf_nil : bytesOf [] = 0 := rfl

@[simp] theorem bytesOf_cons (ar : AddrRange) (l : List AddrRange) :
    bytesOf (ar :: l) = ar.length.toNat + bytesOf l := by
  simp [bytesOf]

@[simp] theorem truncate_nil (n : ℕ) : truncate [] n = [] := rfl

theorem truncate_cons_of_le {ar : AddrRange} {n : ℕ} (h : ar.length.toNat ≤ n)
    (rest : List AddrRange) :
    truncate (ar :: rest) n = ar :: truncate rest (n - ar.length.toNat) := by
  rw [truncate, if_pos h]

theorem truncate_cons_of_lt {ar : AddrRange} {n : ℕ} (h : n < ar.length.toNat)
    (rest : List AddrRange) :
    truncate (ar :: rest) n = ⟨ar.Start, ar.Start + n.toUInt64⟩ :: truncate rest 0 := by
  rw [truncate, if_neg (Nat.not_le.mpr h)]

theorem toNat_length_cut (ar : AddrRange) {n : ℕ} (h : n < ar.length.toNat) :
    (AddrRange.length ⟨ar.Start, ar.Start + n.toUInt64⟩).toNat = n := by
  have hn : n < 2 ^ 64 := lt_trans h (UInt64.toNat_lt _)
  rw [AddrRange.length, UInt64.add_comm, UInt64.add_sub_cancel, Nat.toUInt64_eq,
    UInt64.toNat_ofNat', Nat.mod_eq_of_lt hn]

theorem length_truncate (l : List AddrRange) (n : ℕ) : (truncate l n).length = l.length := by
  induction l generalizing n with
  | nil => rfl
  | cons ar rest ih =>
    by_cases h : ar.length.toNat ≤ n
    · simp [truncate_cons_of_le h, ih]
    · simp [truncate_cons_of_lt (Nat.lt_of_not_le h), ih]

theorem bytesOf_truncate (l : List AddrRange) (n : ℕ) :
    bytesOf (truncate l n) = min (bytesOf l) n := by
  induction l generalizing n with
  | nil => simp
  | cons ar rest ih =>
    by_cases h : ar.length.toNat ≤ n
    · rw [truncate_cons_of_le h, bytesOf_cons, bytesOf_cons, ih]
      omega
    · have hlt := Nat.lt_of_not_le h
      rw [truncate_cons_of_lt hlt, bytesOf_cons, bytesOf_cons, ih, toNat_length_cut ar hlt]
      omega

theorem truncate_of_bytesOf_le {l : List AddrRange} {n : ℕ} (h : bytesOf l ≤ n) :
    truncate l n = l := by
  induction l generalizing n with
  | nil => rfl
  | cons ar rest ih =>
    rw [bytesOf_cons] at h
    rw [truncate_cons_of_le (by omega), ih (by omega)]

/-- Cutting twice is cutting at the smaller bound. -/
theorem truncate_truncate (l : List AddrRange) (m n : ℕ) :
    truncate (truncate l m) n = truncate l (min m n) := by
  induction l generalizing m n with
  | nil => rfl
  | cons ar rest ih =>
    by_cases hm : ar.length.toNat ≤ m
    · rw [truncate_cons_of_le hm]
      by_cases hn : ar.length.toNat ≤ n
      · rw [truncate_cons_of_le hn, truncate_cons_of_le (by omega), ih]
        congr 2
        omega
      · have hlt := Nat.lt_of_not_le hn
        rw [truncate_cons_of_lt hlt, Nat.min_eq_right (by omega), truncate_cons_of_lt hlt, ih]
        simp
    · have hlt := Nat.lt_of_not_le hm
      rw [truncate_cons_of_lt hlt]
      by_cases hn : m ≤ n
      · rw [truncate_cons_of_le (by rw [toNat_length_cut ar hlt]; omega),
          truncate_cons_of_lt (by omega), ih, Nat.min_eq_left hn]
        simp
      · have hnm : n < m := Nat.lt_of_not_le hn
        rw [truncate_cons_of_lt (by rw [toNat_length_cut ar hlt]; omega),
          truncate_cons_of_lt (by omega), ih, Nat.min_eq_right hnm.le]
        simp

@[simp] theorem dropFrom_zero (l : List AddrRange) : dropFrom l 0 = l := by
  cases l <;> rfl

@[simp] theorem dropFrom_nil (n : ℕ) : dropFrom [] n = [] := by
  cases n <;> rfl

theorem dropFrom_cons_of_lt {ar : AddrRange} {n : ℕ} (h0 : n ≠ 0) (h : n < ar.length.toNat)
    (rest : List AddrRange) :
    dropFrom (ar :: rest) n = ⟨ar.Start + n.toUInt64, ar.End⟩ :: rest := by
  obtain ⟨m, rfl⟩ := Nat.exists_eq_succ_of_ne_zero h0
  rw [dropFrom, if_pos h]

theorem dropFrom_cons_of_le {ar : AddrRange} {n : ℕ} (h0 : n ≠ 0) (h : ar.length.toNat ≤ n)
    (rest : List AddrRange) :
    dropFrom (ar :: rest) n = dropFrom rest (n - ar.length.toNat) := by
  obtain ⟨m, rfl⟩ := Nat.exists_eq_succ_of_ne_zero h0
  rw [dropFrom, if_neg (Nat.not_lt.mpr h)]

theorem toNat_length_drop (ar : AddrRange) {n : ℕ} (h : n < ar.length.toNat) :
    (AddrRange.length ⟨ar.Start + n.toUInt64, ar.End⟩).toNat = ar.length.toNat - n := by
  have hn : n.toUInt64.toNat = n := by
    rw [Nat.toUInt64_eq, UInt64.toNat_ofNat', Nat.mod_eq_of_lt (lt_trans h (UInt64.toNat_lt _))]
  have hsub : AddrRange.length ⟨ar.Start + n.toUInt64, ar.End⟩ = ar.length - n.toUInt64 := by
    simp only [AddrRange.length]
    grind
  rw [hsub, UInt64.toNat_sub_of_le _ _ (UInt64.le_iff_toNat_le.mpr (by omega)), hn]

/-- Dropping fewer bytes than the cut commutes with the cut. -/
theorem dropFrom_truncate (l : List AddrRange) {u c : ℕ} (hu : u < c) :
    dropFrom (truncate l c) u = truncate (dropFrom l u) (c - u) := by
  induction l generalizing u c with
  | nil => simp
  | cons ar rest ih =>
    rcases Nat.eq_zero_or_pos u with rfl | hpos
    · simp
    have h0 : u ≠ 0 := Nat.pos_iff_ne_zero.mp hpos
    by_cases hc : ar.length.toNat ≤ c
    · rw [truncate_cons_of_le hc]
      by_cases hlu : u < ar.length.toNat
      · rw [dropFrom_cons_of_lt h0 hlu, dropFrom_cons_of_lt h0 hlu,
          truncate_cons_of_le (by rw [toNat_length_drop ar hlu]; omega), toNat_length_drop ar hlu]
        congr 2
        omega
      · have hle := Nat.le_of_not_lt hlu
        rw [dropFrom_cons_of_le h0 hle, dropFrom_cons_of_le h0 hle, ih (by omega)]
        congr 1
        omega
    · have hlt := Nat.lt_of_not_le hc
      have hcut : u < (AddrRange.length ⟨ar.Start, ar.Start + c.toUInt64⟩).toNat := by
        rw [toNat_length_cut ar hlt]
        exact hu
      have hdrop : c - u < (AddrRange.length ⟨ar.Start + u.toUInt64, ar.End⟩).toNat := by
        rw [toNat_length_drop ar (by omega)]
        omega
      rw [truncate_cons_of_lt hlt, dropFrom_cons_of_lt h0 hcut, dropFrom_cons_of_lt h0 (by omega),
        truncate_cons_of_lt hdrop]
      have hcu : (c - u).toUInt64 = c.toUInt64 - u.toUInt64 := by
        simp only [Nat.toUInt64_eq]
        exact UInt64.ofNat_sub (by omega)
      rw [hcu]
      grind

namespace AddrRangeSeq

/-- The first range of the array from `offset` bytes in, the head before the cut. -/
def rawFirst (ars : AddrRangeSeq) : AddrRange :=
  { ars.rawHead with Start := ars.rawHead.Start + ars.offset }

/-- The head of two or more ranges: the first raw range cut at `limit`. -/
def firstCut (ars : AddrRangeSeq) : AddrRange :=
  if ars.rawFirst.length > ars.limit then
    { ars.rawFirst with End := ars.rawFirst.Start + ars.limit } else ars.rawFirst

/-- The ranges of `ars` before the cut at `limit`. -/
def raw (ars : AddrRangeSeq) : List AddrRange :=
  if ars.length = 0 then []
  else if ars.length = 1 then [⟨ars.offset, ars.offset + ars.limit⟩]
  else ars.rawFirst :: ars.data.tail

/-- The invariants of the documentation that the operations keep: all of them but
`limit > 0`. The array of a sequence of two or more ranges is its `length` ranges. -/
structure Inv (ars : AddrRangeSeq) : Prop where
  of_zero : ars.length = 0 → ars = empty
  of_one : ars.length = 1 → ars.data = []
  length_data : 2 ≤ ars.length → ars.data.length = ars.length
  offset_le : 2 ≤ ars.length → ars.offset.toNat ≤ ars.rawHead.length.toNat
  limit_le : 2 ≤ ars.length → ars.offset.toNat + ars.limit.toNat ≤ bytesOf ars.data

/-- The documented invariants, with `limit > 0` for two or more ranges. -/
structure DocInv (ars : AddrRangeSeq) : Prop extends Inv ars where
  limit_pos : 2 ≤ ars.length → 0 < ars.limit.toNat

theorem toNat_length_single (o l : Addr) : (AddrRange.length ⟨o, o + l⟩).toNat = l.toNat := by
  rw [AddrRange.length, UInt64.add_comm, UInt64.add_sub_cancel]

theorem head_of_two_le {ars : AddrRangeSeq} (h2 : 2 ≤ ars.length) :
    ars.head = some ars.firstCut := by
  rw [head, if_neg (by omega), if_neg (by omega)]
  rfl

theorem tail_of_two_le {ars : AddrRangeSeq} (h2 : 2 ≤ ars.length) :
    ars.tail = some ars.externalTail := by
  rw [tail, if_neg (by omega), if_neg (by omega)]

theorem rawFirst_length (ars : AddrRangeSeq) :
    ars.rawFirst.length = ars.rawHead.length - ars.offset := by
  simp only [rawFirst, AddrRange.length]
  grind

section Inv

variable {ars : AddrRangeSeq} (h : Inv ars) (h2 : 2 ≤ ars.length)
include h h2

theorem Inv.data_eq : ars.data = ars.rawHead :: ars.data.tail := by
  have hlen := h.length_data h2
  match hd : ars.data with
  | [] => rw [hd] at hlen; simp at hlen; omega
  | ar :: rest => simp [rawHead, hd]

theorem Inv.take_drop : (ars.data.take ars.length).drop 1 = ars.data.tail := by
  rw [← h.length_data h2, List.take_length, List.drop_one]

theorem Inv.toNat_length_rawFirst :
    ars.rawFirst.length.toNat = ars.rawHead.length.toNat - ars.offset.toNat := by
  rw [rawFirst_length, UInt64.toNat_sub_of_le _ _ (UInt64.le_iff_toNat_le.mpr (h.offset_le h2))]

theorem Inv.bytesOf_data : bytesOf ars.data = ars.rawHead.length.toNat + bytesOf ars.data.tail := by
  rw [h.data_eq h2, bytesOf_cons]
  rfl

end Inv

section Slice

variable {slice : List AddrRange} {t : UInt64} (ht : t.toNat ≤ bytesOf slice)
include ht

theorem inv_fromSliceLimited : Inv (fromSliceLimited slice t) := by
  match slice with
  | [] => exact ⟨fun _ => rfl, nofun, nofun, nofun, nofun⟩
  | [_] => exact ⟨nofun, fun _ => rfl, nofun, nofun, nofun⟩
  | _ :: _ :: _ =>
    exact ⟨nofun, nofun, fun _ => rfl, fun _ => Nat.zero_le _,
      fun _ => by simpa [AddrRangeSeq.fromSliceLimited] using ht⟩

theorem limit_fromSliceLimited : (fromSliceLimited slice t).limit = t := by
  match slice with
  | [] =>
    have : t.toNat = 0 := by simpa using ht
    exact (UInt64.toNat_inj.mp this).symm
  | [_] => rfl
  | _ :: _ :: _ => rfl

theorem truncate_raw_fromSliceLimited :
    truncate (fromSliceLimited slice t).raw t.toNat = truncate slice t.toNat := by
  match slice with
  | [] => rfl
  | [ar] =>
    have hle : t.toNat ≤ ar.length.toNat := by simpa using ht
    show truncate [⟨ar.Start, ar.Start + t⟩] t.toNat = truncate [ar] t.toNat
    rcases Nat.lt_or_eq_of_le hle with hlt | heq
    · rw [truncate_cons_of_le (toNat_length_single _ _).le, truncate_cons_of_lt hlt]
      simp [Nat.toUInt64_eq]
    · have har : (⟨ar.Start, ar.Start + t⟩ : AddrRange) = ar := by
        rw [UInt64.toNat_inj.mp heq, AddrRange.length]
        cases ar
        simp only [AddrRange.mk.injEq, true_and]
        grind
      rw [har]
  | a :: b :: rest =>
    simp [AddrRangeSeq.fromSliceLimited, raw, rawFirst, rawHead]

end Slice

theorem toNat_tailLimit (l h : UInt64) :
    (if l > h then l - h else 0 : UInt64).toNat = l.toNat - h.toNat := by
  split
  · rename_i hlt
    rw [UInt64.toNat_sub_of_le _ _ (UInt64.le_of_lt hlt)]
  · rename_i hle
    rw [UInt64.not_lt, UInt64.le_iff_toNat_le] at hle
    simp only [UInt64.toNat_zero]
    omega

section Inv

variable {ars : AddrRangeSeq} (h : Inv ars) (h2 : 2 ≤ ars.length)
include h h2

/-- The tail of a sequence of two or more ranges starts its cut where the first raw range
ends. -/
theorem Inv.externalTail_eq : ars.externalTail = fromSliceLimited ars.data.tail
    (if ars.limit > ars.rawFirst.length then ars.limit - ars.rawFirst.length else 0) := by
  rw [externalTail, h.take_drop h2, rawFirst_length]

theorem Inv.tailLimit_le :
    (if ars.limit > ars.rawFirst.length then ars.limit - ars.rawFirst.length else 0 :
      UInt64).toNat ≤ bytesOf ars.data.tail := by
  have hlim := h.limit_le h2
  rw [toNat_tailLimit, h.toNat_length_rawFirst h2]
  rw [h.bytesOf_data h2] at hlim
  omega

theorem inv_externalTail : Inv ars.externalTail := by
  rw [h.externalTail_eq h2]
  exact inv_fromSliceLimited (h.tailLimit_le h2)

theorem Inv.toNat_limit_externalTail :
    ars.externalTail.limit.toNat = ars.limit.toNat - ars.rawFirst.length.toNat := by
  rw [h.externalTail_eq h2, limit_fromSliceLimited (h.tailLimit_le h2), toNat_tailLimit]

theorem Inv.truncate_raw_externalTail :
    truncate ars.externalTail.raw ars.externalTail.limit.toNat =
      truncate ars.data.tail (ars.limit.toNat - ars.rawFirst.length.toNat) := by
  rw [← h.toNat_limit_externalTail h2, h.externalTail_eq h2,
    limit_fromSliceLimited (h.tailLimit_le h2), truncate_raw_fromSliceLimited (h.tailLimit_le h2)]

end Inv

theorem toList_of_length_eq_zero {ars : AddrRangeSeq} (h : ars.length = 0) :
    ars.toList = [] := by
  rw [toList]
  split
  · rename_i ar t hh _
    simp [head, h] at hh
  · rfl

theorem toList_of_head_tail {ars t : AddrRangeSeq} {ar : AddrRange} (hh : ars.head = some ar)
    (ht : ars.tail = some t) : ars.toList = ar :: t.toList := by
  rw [toList]
  split
  · simp_all
  · simp_all

@[simp] theorem toList_empty : empty.toList = [] := toList_of_length_eq_zero rfl

theorem raw_of_length_eq_one {ars : AddrRangeSeq} (h1 : ars.length = 1) :
    ars.raw = [⟨ars.offset, ars.offset + ars.limit⟩] := by
  rw [raw, if_neg (by omega), if_pos h1]

theorem raw_of_two_le {ars : AddrRangeSeq} (h2 : 2 ≤ ars.length) :
    ars.raw = ars.rawFirst :: ars.data.tail := by
  rw [raw, if_neg (by omega), if_neg (by omega)]

theorem head_of_length_eq_one {ars : AddrRangeSeq} (h1 : ars.length = 1) :
    ars.head = some ⟨ars.offset, ars.offset + ars.limit⟩ := by
  rw [head, if_neg (by omega), if_pos h1]

theorem tail_of_length_eq_one {ars : AddrRangeSeq} (h1 : ars.length = 1) :
    ars.tail = some empty := by
  rw [tail, if_neg (by omega), if_pos h1]

/-- Cutting the raw ranges of two or more ranges gives the head and then the cut of the
tail. -/
theorem Inv.truncate_raw {ars : AddrRangeSeq} (h : Inv ars) (h2 : 2 ≤ ars.length) :
    truncate ars.raw ars.limit.toNat =
      ars.firstCut :: truncate ars.externalTail.raw ars.externalTail.limit.toNat := by
  rw [raw_of_two_le h2, h.truncate_raw_externalTail h2, firstCut]
  by_cases hlt : ars.rawFirst.length > ars.limit
  · have hlt' : ars.limit.toNat < ars.rawFirst.length.toNat := UInt64.lt_iff_toNat_lt.mp hlt
    rw [truncate_cons_of_lt hlt', if_pos hlt, Nat.sub_eq_zero_of_le hlt'.le]
    simp
  · have hle : ars.rawFirst.length.toNat ≤ ars.limit.toNat :=
      UInt64.le_iff_toNat_le.mp (UInt64.not_lt.mp hlt)
    rw [truncate_cons_of_le hle, if_neg hlt]

/-- The list of ranges that `Head` and `Tail` give is the raw ranges cut at `limit`. -/
theorem Inv.toList_eq_truncate {ars : AddrRangeSeq} (h : Inv ars) :
    ars.toList = truncate ars.raw ars.limit.toNat := by
  induction hn : ars.length using Nat.strong_induction_on generalizing ars with
  | _ n ih =>
    rcases (by omega : n = 0 ∨ n = 1 ∨ 2 ≤ n) with h0 | h1 | h2
    · rw [toList_of_length_eq_zero (hn.trans h0), raw, if_pos (hn.trans h0), truncate_nil]
    · have h1' := hn.trans h1
      rw [toList_of_head_tail (head_of_length_eq_one h1') (tail_of_length_eq_one h1'),
        raw_of_length_eq_one h1', truncate_cons_of_le (toNat_length_single _ _).le]
      simp
    · have h2' : 2 ≤ ars.length := hn ▸ h2
      have hlt : ars.externalTail.length < n := by
        rw [length_externalTail]
        omega
      rw [toList_of_head_tail (head_of_two_le h2') (tail_of_two_le h2'), h.truncate_raw h2',
        ih _ hlt (inv_externalTail h h2') rfl]

theorem inv_empty : Inv empty := ⟨fun _ => rfl, nofun, nofun, nofun, nofun⟩

theorem Inv.limit_le_bytesOf_raw {ars : AddrRangeSeq} (h : Inv ars) :
    ars.limit.toNat ≤ bytesOf ars.raw := by
  rcases (by omega : ars.length = 0 ∨ ars.length = 1 ∨ 2 ≤ ars.length) with h0 | h1 | h2
  · rw [h.of_zero h0]
    exact Nat.zero_le _
  · rw [raw_of_length_eq_one h1, bytesOf_cons, toNat_length_single]
    exact Nat.le_add_right _ _
  · have hlim := h.limit_le h2
    rw [h.bytesOf_data h2] at hlim
    rw [raw_of_two_le h2, bytesOf_cons, h.toNat_length_rawFirst h2]
    omega

/-- `NumBytes` counts the bytes of the ranges, as a natural number. -/
theorem Inv.bytesOf_toList {ars : AddrRangeSeq} (h : Inv ars) :
    bytesOf ars.toList = ars.limit.toNat := by
  rw [h.toList_eq_truncate, bytesOf_truncate, Nat.min_eq_right h.limit_le_bytesOf_raw]

/-- `NumBytes` is the number of bytes as long as it fits in an `int64`. -/
theorem Inv.toInt_numBytes {ars : AddrRangeSeq} (h : Inv ars) (hl : ars.limit.toNat < 2 ^ 63) :
    ars.numBytes.toInt = bytesOf ars.toList := by
  rw [h.bytesOf_toList, numBytes]
  show ars.limit.toBitVec.toInt = _
  rw [BitVec.toInt_eq_toNat_of_lt (by simp; omega)]
  rfl

theorem inv_tail {ars t : AddrRangeSeq} (h : Inv ars) (ht : ars.tail = some t) : Inv t := by
  unfold tail at ht
  split_ifs at ht with h0 h1
  · cases ht
    exact inv_empty
  · cases ht
    exact inv_externalTail h (by omega)

theorem Inv.withLimit {ars : AddrRangeSeq} (h : Inv ars) {m : UInt64}
    (hm : m.toNat ≤ ars.limit.toNat) : Inv { ars with limit := m } := by
  refine ⟨fun h0 => ?_, h.of_one, h.length_data, h.offset_le, fun h2 => ?_⟩
  · have he := h.of_zero h0
    have hm0 : m = 0 := by
      rw [he] at hm
      exact UInt64.toNat_inj.mp (Nat.le_zero.mp hm)
    rw [he, hm0]
    rfl
  · have := h.limit_le h2
    exact le_trans (Nat.add_le_add_left hm _) this

theorem truncate_raw_withLimit (ars : AddrRangeSeq) {m : UInt64} (hm : m.toNat ≤ ars.limit.toNat) :
    truncate { ars with limit := m }.raw m.toNat = truncate ars.raw m.toNat := by
  rcases (by omega : ars.length = 0 ∨ ars.length = 1 ∨ 2 ≤ ars.length) with h0 | h1 | h2
  · simp [raw, h0]
  · have h1' : ({ ars with limit := m } : AddrRangeSeq).length = 1 := h1
    rw [raw_of_length_eq_one h1', raw_of_length_eq_one h1,
      truncate_cons_of_le (toNat_length_single _ _).le]
    rcases Nat.lt_or_eq_of_le hm with hlt | heq
    · rw [truncate_cons_of_lt (by rw [toNat_length_single]; exact hlt)]
      simp [Nat.toUInt64_eq]
    · rw [UInt64.toNat_inj.mp heq, truncate_cons_of_le (toNat_length_single _ _).le]
  · rw [raw_of_two_le h2, raw_of_two_le (show 2 ≤ ({ ars with limit := m } : AddrRangeSeq).length from h2)]
    rfl

/-- `TakeFirst64` keeps the invariant and cuts the ranges after `n` bytes. -/
theorem Inv.takeFirst64 {ars : AddrRangeSeq} (h : Inv ars) {n : Int64} (hn : 0 ≤ n) :
    ∃ t, ars.takeFirst64 n = some t ∧ Inv t ∧ t.toList = truncate ars.toList n.toUInt64.toNat := by
  rw [AddrRangeSeq.takeFirst64, if_neg (Int64.not_lt.mpr hn)]
  refine ⟨_, rfl, ?_⟩
  split
  · rename_i hlt
    have hlt' := UInt64.lt_iff_toNat_lt.mp hlt
    have ht := h.withLimit hlt'.le
    refine ⟨ht, ?_⟩
    rw [ht.toList_eq_truncate, h.toList_eq_truncate, truncate_truncate, truncate_raw_withLimit _ hlt'.le,
      Nat.min_eq_right hlt'.le]
  · rename_i hle
    have hle' := UInt64.le_iff_toNat_le.mp (UInt64.not_lt.mp hle)
    exact ⟨h, (truncate_of_bytesOf_le (h.bytesOf_toList ▸ hle')).symm⟩

/-- The length of the head in the loop of `DropFirst64`, before the cut at `limit`. -/
def loopHeadLen (ars : AddrRangeSeq) : Addr :=
  if ars.length = 1 then ars.limit else ars.rawHead.length - ars.offset

/-- `ars` with `n` more bytes dropped inside its head. -/
def advance (ars : AddrRangeSeq) (n : Addr) : AddrRangeSeq :=
  { ars with offset := ars.offset + n, limit := ars.limit - n }

theorem dropLoop_zero (ars : AddrRangeSeq) : ars.dropLoop 0 = some ars := by
  rw [dropLoop, if_pos rfl]

theorem dropLoop_of_lt {ars : AddrRangeSeq} {n : Int64} (hn : n ≠ 0)
    (hlt : n.toUInt64 < ars.loopHeadLen) : ars.dropLoop n = some (ars.advance n.toUInt64) := by
  rw [dropLoop, if_neg hn]
  exact if_pos hlt

theorem dropLoop_of_tail {ars t : AddrRangeSeq} {n : Int64} (hn : n ≠ 0)
    (hle : ¬ n.toUInt64 < ars.loopHeadLen) (ht : ars.tail = some t) :
    ars.dropLoop n = t.dropLoop (n - ars.loopHeadLen.toInt64) := by
  rw [dropLoop, if_neg hn]
  unfold loopHeadLen at hle ⊢
  dsimp only
  rw [if_neg hle]
  split
  · simp_all
  · rename_i t' ht'
    rw [ht] at ht'
    cases ht'
    rfl

theorem eq_zero_iff_toUInt64 (n : Int64) : n = 0 ↔ n.toUInt64 = 0 := by
  constructor
  · rintro rfl
    rfl
  · intro h
    cases n
    cases h
    rfl

theorem toNat_sub_loopHeadLen {n : Int64} {x : Addr} (hx : x.toNat ≤ n.toUInt64.toNat) :
    (n - x.toInt64).toUInt64.toNat = n.toUInt64.toNat - x.toNat := by
  rw [Int64.toUInt64_sub, UInt64.toUInt64_toInt64,
    UInt64.toNat_sub_of_le _ _ (UInt64.le_iff_toNat_le.mpr hx)]

theorem toNat_length_firstCut (ars : AddrRangeSeq) :
    ars.firstCut.length.toNat = min ars.rawFirst.length.toNat ars.limit.toNat := by
  unfold firstCut
  split
  · rename_i hlt
    rw [toNat_length_single]
    have := UInt64.lt_iff_toNat_lt.mp hlt
    omega
  · rename_i hle
    have := UInt64.le_iff_toNat_le.mp (UInt64.not_lt.mp hle)
    omega

theorem loopHeadLen_of_two_le {ars : AddrRangeSeq} (h2 : 2 ≤ ars.length) :
    ars.loopHeadLen = ars.rawFirst.length := by
  rw [loopHeadLen, if_neg (by omega), rawFirst_length]

/-- `Tail` of a non-empty sequence: a shorter sequence that keeps the invariant, with the
bytes of the head before the cut gone. -/
theorem Inv.tail_spec {ars : AddrRangeSeq} (h : Inv ars) (h0 : ars.length ≠ 0) :
    ∃ t, ars.tail = some t ∧ Inv t ∧ t.length < ars.length ∧
      t.limit.toNat = ars.limit.toNat - ars.loopHeadLen.toNat := by
  by_cases h1 : ars.length = 1
  · refine ⟨empty, tail_of_length_eq_one h1, inv_empty, by simp [empty]; omega, ?_⟩
    rw [loopHeadLen, if_pos h1, Nat.sub_self]
    rfl
  · have h2 : 2 ≤ ars.length := by omega
    refine ⟨_, tail_of_two_le h2, inv_externalTail h h2, by rw [length_externalTail]; omega, ?_⟩
    rw [h.toNat_limit_externalTail h2, loopHeadLen_of_two_le h2]

theorem Inv.advance {ars : AddrRangeSeq} (h : Inv ars) (h0 : ars.length ≠ 0) {u : Addr}
    (hlt : u < ars.loopHeadLen) (hu : u.toNat ≤ ars.limit.toNat) : Inv (ars.advance u) := by
  refine ⟨fun h0' => absurd h0' h0, h.of_one, h.length_data, fun h2 => ?_, fun h2 => ?_⟩
  all_goals
    change 2 ≤ ars.length at h2
    have hlt' := UInt64.lt_iff_toNat_lt.mp hlt
    rw [loopHeadLen_of_two_le h2, h.toNat_length_rawFirst h2] at hlt'
    have hoff : (ars.offset + u).toNat = ars.offset.toNat + u.toNat := by
      rw [UInt64.toNat_add, Nat.mod_eq_of_lt (by have := UInt64.toNat_lt ars.rawHead.length; omega)]
  · show (ars.offset + u).toNat ≤ ars.rawHead.length.toNat
    omega
  · have hlim := h.limit_le h2
    show (ars.offset + u).toNat + (ars.limit - u).toNat ≤ bytesOf ars.data
    rw [hoff, UInt64.toNat_sub_of_le _ _ (UInt64.le_iff_toNat_le.mpr hu)]
    omega

theorem limit_le_of_length_eq_zero {ars : AddrRangeSeq} (h : Inv ars) (h0 : ars.length = 0)
    {n : Int64} (hu : n.toUInt64.toNat ≤ ars.limit.toNat) : n = 0 := by
  rw [h.of_zero h0] at hu
  rw [eq_zero_iff_toUInt64]
  exact UInt64.toNat_inj.mp (Nat.le_zero.mp hu)

/-- The loop of `DropFirst64` keeps the invariant and drops `n` bytes of `limit`, for
every `n` up to `limit`. -/
theorem inv_dropLoop {ars : AddrRangeSeq} (h : Inv ars) {n : Int64}
    (hu : n.toUInt64.toNat ≤ ars.limit.toNat) :
    ∃ t, ars.dropLoop n = some t ∧ Inv t ∧ t.limit.toNat = ars.limit.toNat - n.toUInt64.toNat := by
  induction hl : ars.length using Nat.strong_induction_on generalizing ars n with
  | _ len ih =>
    by_cases hn : n = 0
    · subst hn
      exact ⟨ars, dropLoop_zero ars, h, (Nat.sub_zero _).symm⟩
    have h0 : ars.length ≠ 0 := fun h0 => hn (limit_le_of_length_eq_zero h h0 hu)
    by_cases hlt : n.toUInt64 < ars.loopHeadLen
    · refine ⟨_, dropLoop_of_lt hn hlt, h.advance h0 hlt hu, ?_⟩
      exact UInt64.toNat_sub_of_le _ _ (UInt64.le_iff_toNat_le.mpr hu)
    · obtain ⟨t, ht, hti, htl, htlim⟩ := h.tail_spec h0
      have hle := UInt64.le_iff_toNat_le.mp (UInt64.not_lt.mp hlt)
      have hu' : (n - ars.loopHeadLen.toInt64).toUInt64.toNat ≤ t.limit.toNat := by
        rw [toNat_sub_loopHeadLen hle, htlim]
        omega
      obtain ⟨t', ht', hti', htlim'⟩ := ih _ (hl ▸ htl) hti hu' rfl
      refine ⟨t', (dropLoop_of_tail hn hlt ht).trans ht', hti', ?_⟩
      rw [htlim', htlim, toNat_sub_loopHeadLen hle]
      omega

theorem dropLoop_of_tail_none {ars : AddrRangeSeq} {n : Int64} (hn : n ≠ 0)
    (hle : ¬ n.toUInt64 < ars.loopHeadLen) (ht : ars.tail = none) : ars.dropLoop n = none := by
  rw [dropLoop, if_neg hn]
  unfold loopHeadLen at hle
  dsimp only
  rw [if_neg hle]
  split
  · rfl
  · simp_all

theorem length_dropLoop_le {ars t : AddrRangeSeq} {n : Int64} (hd : ars.dropLoop n = some t) :
    t.length ≤ ars.length := by
  induction hl : ars.length using Nat.strong_induction_on generalizing ars n with
  | _ len ih =>
    by_cases hn : n = 0
    · rw [hn, dropLoop_zero] at hd
      cases hd
      exact hl.le
    by_cases hlt : n.toUInt64 < ars.loopHeadLen
    · rw [dropLoop_of_lt hn hlt] at hd
      cases hd
      exact hl.le
    · cases ht : ars.tail with
      | none => rw [dropLoop_of_tail_none hn hlt ht] at hd; cases hd
      | some t' =>
        rw [dropLoop_of_tail hn hlt ht] at hd
        have := length_tail ht
        have := ih _ (by omega) hd rfl
        omega

theorem Inv.head_spec {ars : AddrRangeSeq} (h0 : ars.length ≠ 0) :
    ∃ H, ars.head = some H ∧ H.length.toNat = min ars.loopHeadLen.toNat ars.limit.toNat := by
  by_cases h1 : ars.length = 1
  · refine ⟨_, head_of_length_eq_one h1, ?_⟩
    rw [toNat_length_single, loopHeadLen, if_pos h1, Nat.min_self]
  · have h2 : 2 ≤ ars.length := by omega
    exact ⟨_, head_of_two_le h2, by rw [toNat_length_firstCut, loopHeadLen_of_two_le h2]⟩

theorem raw_advance {ars : AddrRangeSeq} (h0 : ars.length ≠ 0) {u : Addr} (hu0 : u ≠ 0)
    (hlt : u < ars.loopHeadLen) : (ars.advance u).raw = dropFrom ars.raw u.toNat := by
  have hu0' : u.toNat ≠ 0 := fun h => hu0 (UInt64.toNat_inj.mp h)
  have hlt' := UInt64.lt_iff_toNat_lt.mp hlt
  by_cases h1 : ars.length = 1
  · rw [raw_of_length_eq_one (show (ars.advance u).length = 1 from h1), raw_of_length_eq_one h1,
      dropFrom_cons_of_lt hu0' (by rw [toNat_length_single]; rwa [loopHeadLen, if_pos h1] at hlt')]
    simp only [advance, List.cons.injEq, AddrRange.mk.injEq, and_true, Nat.toUInt64_eq,
      UInt64.ofNat_toNat]
    grind
  · have h2 : 2 ≤ ars.length := by omega
    rw [loopHeadLen_of_two_le h2] at hlt'
    rw [raw_of_two_le (show 2 ≤ (ars.advance u).length from h2), raw_of_two_le h2,
      dropFrom_cons_of_lt hu0' hlt']
    simp only [advance, rawFirst, rawHead, List.cons.injEq, AddrRange.mk.injEq, and_true,
      Nat.toUInt64_eq, UInt64.ofNat_toNat]
    grind

theorem docInv_empty : DocInv empty := ⟨inv_empty, nofun⟩

/-- With the documented invariant, the loop of `DropFirst64` drops the first `n` bytes of
the ranges, for every `n` below `limit`, and keeps the documented invariant. -/
theorem DocInv.dropLoop {ars : AddrRangeSeq} (h : DocInv ars) {n : Int64}
    (hu : n.toUInt64.toNat < ars.limit.toNat) :
    ∃ t, ars.dropLoop n = some t ∧ DocInv t ∧ t.toList = dropFrom ars.toList n.toUInt64.toNat := by
  induction hl : ars.length using Nat.strong_induction_on generalizing ars n with
  | _ len ih =>
    by_cases hn : n = 0
    · subst hn
      exact ⟨ars, dropLoop_zero ars, h, (dropFrom_zero _).symm⟩
    have h0 : ars.length ≠ 0 := fun h0 => by
      rw [h.of_zero h0] at hu
      exact Nat.not_lt_zero _ hu
    have hu0 : n.toUInt64 ≠ 0 := fun h' => hn ((eq_zero_iff_toUInt64 n).mpr h')
    by_cases hlt : n.toUInt64 < ars.loopHeadLen
    · have hlim : (ars.limit - n.toUInt64).toNat = ars.limit.toNat - n.toUInt64.toNat :=
        UInt64.toNat_sub_of_le _ _ (UInt64.le_iff_toNat_le.mpr hu.le)
      have ha := h.toInv.advance h0 hlt hu.le
      refine ⟨_, dropLoop_of_lt hn hlt, ⟨ha, fun _ => ?_⟩, ?_⟩
      · show 0 < (ars.limit - n.toUInt64).toNat
        omega
      · rw [ha.toList_eq_truncate, h.toList_eq_truncate, dropFrom_truncate _ hu,
          raw_advance h0 hu0 hlt]
        exact congrArg _ hlim
    · obtain ⟨t, ht, hti, htl, htlim⟩ := h.toInv.tail_spec h0
      obtain ⟨H, hh, hH⟩ := Inv.head_spec h0
      have hle := UInt64.le_iff_toNat_le.mp (UInt64.not_lt.mp hlt)
      have htd : DocInv t := ⟨hti, fun _ => by omega⟩
      have hu' : (n - ars.loopHeadLen.toInt64).toUInt64.toNat < t.limit.toNat := by
        rw [toNat_sub_loopHeadLen hle, htlim]
        omega
      obtain ⟨t', ht', htd', htl'⟩ := ih _ (hl ▸ htl) htd hu' rfl
      refine ⟨t', (dropLoop_of_tail hn hlt ht).trans ht', htd', ?_⟩
      have hu0' : n.toUInt64.toNat ≠ 0 := fun h' => hu0 (UInt64.toNat_inj.mp h')
      rw [htl', toNat_sub_loopHeadLen hle, toList_of_head_tail hh ht,
        dropFrom_cons_of_le hu0' (by omega), hH, Nat.min_eq_left (by omega)]

theorem dropFirst64_eq {ars : AddrRangeSeq} {n : Int64} (hn : 0 ≤ n)
    (hle : ¬ n.toUInt64 > ars.limit) :
    ars.dropFirst64 n =
      if ars.length = 0 ∨ (ars.length = 1 ∧ ars.limit = 0) then some empty
      else (if 2 ≤ ars.length ∧ ars.offset = ars.rawHead.length then ars.externalTail
        else ars).dropLoop n := by
  rw [dropFirst64, if_neg (Int64.not_lt.mpr hn), if_neg hle]
  match hl : ars.length with
  | 0 => simp
  | 1 => by_cases hz : ars.limit = 0 <;> simp [hz]
  | k + 2 => simp

theorem dropFirst64_of_gt {ars : AddrRangeSeq} {n : Int64} (hn : 0 ≤ n)
    (hgt : n.toUInt64 > ars.limit) : ars.dropFirst64 n = some empty := by
  rw [dropFirst64, if_neg (Int64.not_lt.mpr hn), if_pos hgt]

theorem toNat_length_rawFirst_eq_zero {ars : AddrRangeSeq} (h : Inv ars) (h2 : 2 ≤ ars.length) :
    ars.rawFirst.length.toNat = 0 ↔ ars.offset = ars.rawHead.length := by
  rw [h.toNat_length_rawFirst h2]
  have := h.offset_le h2
  constructor
  · intro hz
    exact UInt64.toNat_inj.mp (by omega)
  · intro he
    rw [he, Nat.sub_self]

/-- `DropFirst64` keeps the invariant and drops `n` bytes of `limit`. -/
theorem Inv.dropFirst64 {ars : AddrRangeSeq} (h : Inv ars) {n : Int64} (hn : 0 ≤ n) :
    ∃ t, ars.dropFirst64 n = some t ∧ Inv t ∧
      t.limit.toNat = ars.limit.toNat - n.toUInt64.toNat := by
  by_cases hgt : n.toUInt64 > ars.limit
  · have := UInt64.lt_iff_toNat_lt.mp hgt
    exact ⟨empty, dropFirst64_of_gt hn hgt, inv_empty, by simp [empty]; omega⟩
  have hu := UInt64.le_iff_toNat_le.mp (UInt64.not_lt.mp hgt)
  rw [dropFirst64_eq hn hgt]
  split_ifs with he hx
  · refine ⟨empty, rfl, inv_empty, ?_⟩
    have hlim : ars.limit = 0 := by
      rcases he with h0 | ⟨_, hz⟩
      · rw [h.of_zero h0]
        rfl
      · exact hz
    rw [hlim] at hu ⊢
    rw [Nat.le_zero.mp hu]
    rfl
  · have hz := (toNat_length_rawFirst_eq_zero h hx.1).mpr hx.2
    have hext : ars.externalTail.limit.toNat = ars.limit.toNat := by
      rw [h.toNat_limit_externalTail hx.1, hz, Nat.sub_zero]
    obtain ⟨t, ht, hti, htl⟩ := inv_dropLoop (inv_externalTail h hx.1) (n := n) (hext ▸ hu)
    exact ⟨t, ht, hti, by rw [htl, hext]⟩
  · exact inv_dropLoop h hu

/-- With the documented invariant, `DropFirst64` is the documented drop for every `n` but
`limit`, and keeps the documented invariant. -/
theorem DocInv.dropFirst64 {ars : AddrRangeSeq} (h : DocInv ars) {n : Int64} (hn : 0 ≤ n)
    (hne : n.toUInt64 ≠ ars.limit) :
    ∃ t, ars.dropFirst64 n = some t ∧ DocInv t ∧ t.toList = dropBytes ars.toList n.toUInt64.toNat := by
  by_cases hgt : n.toUInt64 > ars.limit
  · have hlt := UInt64.lt_iff_toNat_lt.mp hgt
    refine ⟨AddrRangeSeq.empty, dropFirst64_of_gt hn hgt, docInv_empty, ?_⟩
    rw [dropBytes_of_lt (h.bytesOf_toList ▸ hlt), toList_empty]
  have hu : n.toUInt64.toNat < ars.limit.toNat := by
    have := UInt64.le_iff_toNat_le.mp (UInt64.not_lt.mp hgt)
    have : n.toUInt64.toNat ≠ ars.limit.toNat := fun h' => hne (UInt64.toNat_inj.mp h')
    omega
  have hbytes : ¬ bytesOf ars.toList < n.toUInt64.toNat := by
    rw [h.bytesOf_toList]
    omega
  have h0 : ars.length ≠ 0 := fun h0 => by
    rw [h.of_zero h0] at hu
    exact Nat.not_lt_zero _ hu
  obtain ⟨t, ht, hti, htl, htlim⟩ := h.toInv.tail_spec h0
  obtain ⟨H, hh, hH⟩ := Inv.head_spec h0
  have hne0 : ¬(ars.length = 0 ∨ (ars.length = 1 ∧ ars.limit = 0)) := by
    rintro (h0' | ⟨_, hz⟩)
    · exact h0 h0'
    · rw [hz] at hu
      exact Nat.not_lt_zero _ hu
  rw [dropFirst64_eq hn hgt, if_neg hne0, toList_of_head_tail hh ht,
    dropBytes_cons (toList_of_head_tail hh ht ▸ hbytes)]
  by_cases hx : 2 ≤ ars.length ∧ ars.offset = ars.rawHead.length
  · -- the initial empty range: the head has no bytes, and the tail is the whole sequence
    have hz := (toNat_length_rawFirst_eq_zero h.toInv hx.1).mpr hx.2
    have hH0 : H.length = 0 := by
      rw [head_of_two_le hx.1] at hh
      cases hh
      rw [← UInt64.toNat_inj, toNat_length_firstCut, hz]
      rfl
    rw [if_pos hx, if_pos hH0]
    rw [tail_of_two_le hx.1] at ht
    cases ht
    have hext : ars.externalTail.limit.toNat = ars.limit.toNat := by
      rw [h.toInv.toNat_limit_externalTail hx.1, hz, Nat.sub_zero]
    have htd : DocInv ars.externalTail := ⟨hti, fun _ => by omega⟩
    exact htd.dropLoop (hext ▸ hu)
  · have hH0 : H.length ≠ 0 := by
      intro hH0
      have hz : H.length.toNat = 0 := by rw [hH0]; rfl
      rw [hH] at hz
      rcases (by omega : ars.length = 1 ∨ 2 ≤ ars.length) with h1 | h2
      · rw [loopHeadLen, if_pos h1, Nat.min_self] at hz
        exact hne0 (Or.inr ⟨h1, UInt64.toNat_inj.mp hz⟩)
      · rw [loopHeadLen_of_two_le h2] at hz
        have := h.limit_pos h2
        exact hx ⟨h2, (toNat_length_rawFirst_eq_zero h.toInv h2).mp (by omega)⟩
    rw [if_neg hx, if_neg hH0, ← toList_of_head_tail hh ht]
    exact h.dropLoop hu

/-- With the documented invariant, `DropFirst64` always drops a head of no bytes, even for
`n = 0`, as its documentation promises: the loops over `Head` and `DropFirst` rest on this. -/
theorem DocInv.length_dropFirst64_lt {ars : AddrRangeSeq} (h : DocInv ars) {H : AddrRange}
    (hh : ars.head = some H) (hH0 : H.length = 0) {n : Int64} (hn : 0 ≤ n) :
    ∃ t, ars.dropFirst64 n = some t ∧ t.length < ars.length := by
  have h0 : ars.length ≠ 0 := fun h0 => by simp [head, h0] at hh
  by_cases hgt : n.toUInt64 > ars.limit
  · exact ⟨_, dropFirst64_of_gt hn hgt, Nat.pos_of_ne_zero h0⟩
  have hu := UInt64.le_iff_toNat_le.mp (UInt64.not_lt.mp hgt)
  obtain ⟨H', hh', hH'⟩ := Inv.head_spec h0
  rw [hh] at hh'
  cases hh'
  have hz : min ars.loopHeadLen.toNat ars.limit.toNat = 0 := by rw [← hH', hH0]; rfl
  rw [dropFirst64_eq hn hgt]
  split_ifs with he hx
  · exact ⟨_, rfl, Nat.pos_of_ne_zero h0⟩
  · have hlim : ars.externalTail.limit.toNat = ars.limit.toNat := by
      rw [h.toInv.toNat_limit_externalTail hx.1,
        (toNat_length_rawFirst_eq_zero h.toInv hx.1).mpr hx.2, Nat.sub_zero]
    obtain ⟨t, ht, -, -⟩ := inv_dropLoop (inv_externalTail h.toInv hx.1) (n := n) (hlim ▸ hu)
    refine ⟨t, ht, lt_of_le_of_lt (length_dropLoop_le ht) ?_⟩
    rw [length_externalTail]
    omega
  · exfalso
    rcases (by omega : ars.length = 1 ∨ 2 ≤ ars.length) with h1 | h2
    · rw [loopHeadLen, if_pos h1, Nat.min_self] at hz
      exact he (Or.inr ⟨h1, UInt64.toNat_inj.mp hz⟩)
    · rw [loopHeadLen_of_two_le h2] at hz
      have := h.limit_pos h2
      exact hx ⟨h2, (toNat_length_rawFirst_eq_zero h.toInv h2).mp (by omega)⟩

theorem length_dropFirst64_le {ars t : AddrRangeSeq} {n : Int64}
    (hd : ars.dropFirst64 n = some t) : t.length ≤ ars.length := by
  by_cases hn : n < 0
  · rw [dropFirst64, if_pos hn] at hd
    cases hd
  have hn' := Int64.not_lt.mp hn
  by_cases hgt : n.toUInt64 > ars.limit
  · rw [dropFirst64_of_gt hn' hgt] at hd
    cases hd
    exact Nat.zero_le _
  rw [dropFirst64_eq hn' hgt] at hd
  split_ifs at hd with he hx
  · cases hd
    exact Nat.zero_le _
  · have := length_dropLoop_le hd
    rw [length_externalTail] at this
    omega
  · exact length_dropLoop_le hd

theorem inv_addrRangeSeqOf (ar : AddrRange) : Inv (addrRangeSeqOf ar) :=
  ⟨nofun, fun _ => rfl, nofun, nofun, nofun⟩

theorem toInt_toInt64_of_nonneg {x : UInt64} (h : 0 ≤ x.toInt64) : x.toInt64.toInt = x.toNat := by
  rw [Int64.le_iff_toInt_le] at h
  change 0 ≤ x.toBitVec.toInt at h
  change x.toBitVec.toInt = _
  rw [BitVec.toInt_eq_toNat_cond] at h ⊢
  split_ifs at h ⊢
  · rfl
  · have := x.toBitVec.isLt
    omega

/-- The overflow test of `AddrRangeSeqFromSlice`: a sum of two `int64`s of at least zero
that is not below the first has not wrapped. -/
theorem toInt_add_of_not_lt {a b : Int64} (ha : 0 ≤ a) (hb : 0 ≤ b) (hs : ¬ a + b < a) :
    (a + b).toInt = a.toInt + b.toInt := by
  rw [Int64.le_iff_toInt_le] at ha hb
  rw [Int64.lt_iff_toInt_lt, Int64.toInt_add] at hs
  rw [Int64.toInt_add]
  have := Int64.toInt_lt a
  have := Int64.toInt_lt b
  simp only [Int64.toInt_zero] at ha hb
  have hmod : (a.toInt + b.toInt) % ((2 ^ 64 : ℕ) : ℤ) = a.toInt + b.toInt :=
    Int.emod_eq_of_lt (by omega) (by omega)
  rw [Int.bmod, hmod] at hs ⊢
  split_ifs at hs ⊢
  · rfl
  · omega

theorem toNat_toUInt64_of_nonneg {a : Int64} (ha : 0 ≤ a) : a.toUInt64.toNat = a.toInt.toNat := by
  rw [Int64.toNat_toUInt64_of_le ha]
  rfl

/-- The `int64` sum of `AddrRangeSeqFromSlice`, where it does not panic, adds up the lengths. -/
theorem toNat_sliceLimit {slice : List AddrRange} {acc r : Int64} (hacc : 0 ≤ acc)
    (hs : sliceLimit slice acc = some r) :
    r.toUInt64.toNat = acc.toUInt64.toNat + bytesOf slice := by
  induction slice generalizing acc with
  | nil =>
    cases hs
    rfl
  | cons ar rest ih =>
    rw [sliceLimit] at hs
    dsimp only at hs
    split_ifs at hs with hneg hov
    have hlen : 0 ≤ ar.length.toInt64 := Int64.not_lt.mp hneg
    have hsum : 0 ≤ acc + ar.length.toInt64 := Int64.le_trans hacc (Int64.not_lt.mp hov)
    rw [ih hsum hs, toNat_toUInt64_of_nonneg hsum, toNat_toUInt64_of_nonneg hacc,
      toInt_add_of_not_lt hacc hlen hov, toInt_toInt64_of_nonneg hlen, bytesOf_cons]
    have := Int64.le_iff_toInt_le.mp hacc
    simp only [Int64.toInt_zero] at this
    omega

theorem inv_fromSlice {slice : List AddrRange} {ars : AddrRangeSeq} (hs : fromSlice slice = some ars) :
    Inv ars := by
  obtain ⟨r, hr, rfl⟩ := Option.map_eq_some_iff.mp hs
  have hr' : r.toUInt64.toNat = bytesOf slice := by
    rw [toNat_sliceLimit (Int64.le_refl 0) hr]
    exact Nat.zero_add _
  exact inv_fromSliceLimited hr'.le

/-- The sequences that `AddrRangeSeqOf` and `AddrRangeSeqFromSlice` build and `Tail`,
`DropFirst64` and `TakeFirst64` transform. -/
inductive Built : AddrRangeSeq → Prop
  | of (ar : AddrRange) : Built (addrRangeSeqOf ar)
  | fromSlice {slice : List AddrRange} {ars : AddrRangeSeq} : fromSlice slice = some ars → Built ars
  | tail {ars t : AddrRangeSeq} : Built ars → ars.tail = some t → Built t
  | dropFirst64 {ars t : AddrRangeSeq} {n : Int64} : Built ars → ars.dropFirst64 n = some t → Built t
  | takeFirst64 {ars t : AddrRangeSeq} {n : Int64} : Built ars → ars.takeFirst64 n = some t → Built t

/-- Every sequence built and transformed by the operations keeps the invariant. -/
theorem Built.inv {ars : AddrRangeSeq} (hb : Built ars) : Inv ars := by
  induction hb with
  | of ar => exact inv_addrRangeSeqOf ar
  | fromSlice hs => exact inv_fromSlice hs
  | tail _ ht ih => exact inv_tail ih ht
  | @dropFirst64 ars t n _ hd ih =>
    have hn : 0 ≤ n := by
      by_contra hneg
      rw [AddrRangeSeq.dropFirst64, if_pos (Int64.not_le.mp hneg)] at hd
      cases hd
    obtain ⟨t', ht', hti, -⟩ := ih.dropFirst64 hn
    rw [hd] at ht'
    cases ht'
    exact hti
  | @takeFirst64 ars t n _ hd ih =>
    have hn : 0 ≤ n := by
      by_contra hneg
      rw [AddrRangeSeq.takeFirst64, if_pos (Int64.not_le.mp hneg)] at hd
      cases hd
    obtain ⟨t', ht', hti, -⟩ := ih.takeFirst64 hn
    rw [hd] at ht'
    cases ht'
    exact hti

/-- Two ranges cut to no bytes by `TakeFirst64(0)`: a built sequence without the documented
`limit > 0`, whose head has no bytes and which `DropFirst64(0)` leaves as it is. -/
theorem takeFirst64_zero_keeps_empty_head :
    ((fromSlice [⟨0x1000, 0x2000⟩, ⟨0x3000, 0x4000⟩]).bind fun s => s.takeFirst64 0) =
        some ⟨[⟨0x1000, 0x2000⟩, ⟨0x3000, 0x4000⟩], 2, 0, 0⟩ ∧
      Built ⟨[⟨0x1000, 0x2000⟩, ⟨0x3000, 0x4000⟩], 2, 0, 0⟩ ∧
      ¬ DocInv ⟨[⟨0x1000, 0x2000⟩, ⟨0x3000, 0x4000⟩], 2, 0, 0⟩ ∧
      head ⟨[⟨0x1000, 0x2000⟩, ⟨0x3000, 0x4000⟩], 2, 0, 0⟩ = some ⟨0x1000, 0x1000⟩ ∧
      dropFirst64 ⟨[⟨0x1000, 0x2000⟩, ⟨0x3000, 0x4000⟩], 2, 0, 0⟩ 0 =
        some ⟨[⟨0x1000, 0x2000⟩, ⟨0x3000, 0x4000⟩], 2, 0, 0⟩ := by
  have hs : fromSlice [⟨0x1000, 0x2000⟩, ⟨0x3000, 0x4000⟩] =
      some ⟨[⟨0x1000, 0x2000⟩, ⟨0x3000, 0x4000⟩], 2, 0, 0x2000⟩ := by decide
  have ht : AddrRangeSeq.takeFirst64 ⟨[⟨0x1000, 0x2000⟩, ⟨0x3000, 0x4000⟩], 2, 0, 0x2000⟩ 0 =
      some ⟨[⟨0x1000, 0x2000⟩, ⟨0x3000, 0x4000⟩], 2, 0, 0⟩ := by decide
  refine ⟨by rw [hs, Option.bind_some, ht], Built.takeFirst64 (Built.fromSlice hs) ht,
    fun h => absurd (h.limit_pos (by decide)) (by decide), by decide, ?_⟩
  rw [dropFirst64_eq (Int64.le_refl 0) (by decide), if_neg (by decide), if_neg (by decide),
    dropLoop_zero]

end AddrRangeSeq

end Usermem
