import Mathlib.Data.List.Basic

/-! The length of the first rune of a byte slice, as `utf8.DecodeRune` of the
Go library returns it: the length of a well-formed encoding of one to four
bytes, and 1 for a byte that starts none, also where the slice ends inside an
encoding. The rune itself is not needed here. -/

namespace Utf8

/-- The `first` and `acceptRanges` tables: for a byte that starts an encoding
of two to four bytes, its length and the range its second byte must be in;
`none` for an ASCII byte and for a byte that starts no encoding. -/
def first (b : UInt8) : Option (ℕ × UInt8 × UInt8) :=
  if b < 0xC2 then none
  else if b ≤ 0xDF then some (2, 0x80, 0xBF)
  else if b = 0xE0 then some (3, 0xA0, 0xBF)
  else if b ≤ 0xEC then some (3, 0x80, 0xBF)
  else if b = 0xED then some (3, 0x80, 0x9F)
  else if b ≤ 0xEF then some (3, 0x80, 0xBF)
  else if b = 0xF0 then some (4, 0x90, 0xBF)
  else if b ≤ 0xF3 then some (4, 0x80, 0xBF)
  else if b = 0xF4 then some (4, 0x80, 0x8F)
  else none

/-- A continuation byte, between `locb` and `hicb`. -/
def isCont (b : UInt8) : Bool := 0x80 ≤ b && b ≤ 0xBF

/-- The `size` of `DecodeRune`. -/
def decodeRuneSize : List UInt8 → ℕ
  | [] => 0
  | p0 :: rest =>
    match first p0 with
    | none => 1
    | some (sz, lo, hi) =>
      if rest.length + 1 < sz then 1
      else
        match rest with
        | [] => 1
        | b1 :: rest =>
          if b1 < lo || hi < b1 then 1
          else if sz = 2 then 2
          else
            match rest with
            | [] => 1
            | b2 :: rest =>
              if !isCont b2 then 1
              else if sz = 3 then 3
              else
                match rest with
                | [] => 1
                | b3 :: _ => if !isCont b3 then 1 else 4

theorem two_le_of_first {b : UInt8} {sz : ℕ} {lo hi : UInt8} (h : first b = some (sz, lo, hi)) :
    2 ≤ sz := by
  unfold first at h
  split_ifs at h <;> cases h <;> decide

/-- The size of a rune that starts at `p0` is at least one and at most the
bytes there are: the encodings of two bytes and more are only taken when the
slice holds all of them. -/
theorem decodeRuneSize_cons_bounds (p0 : UInt8) (rest : List UInt8) :
    1 ≤ decodeRuneSize (p0 :: rest) ∧ decodeRuneSize (p0 :: rest) ≤ rest.length + 1 := by
  simp only [decodeRuneSize]
  split
  · simp
  · -- one case for each byte the encoding still needs
    rcases rest with _ | ⟨b1, _ | ⟨b2, _ | ⟨b3, rest⟩⟩⟩ <;> simp only [List.length_cons, List.length_nil] <;>
      split_ifs <;> omega

theorem decodeRuneSize_pos {b : List UInt8} (h : b ≠ []) : 0 < decodeRuneSize b := by
  obtain ⟨p0, rest, rfl⟩ := List.exists_cons_of_ne_nil h
  exact (decodeRuneSize_cons_bounds p0 rest).1

theorem decodeRuneSize_le_length (b : List UInt8) : decodeRuneSize b ≤ b.length := by
  cases b with
  | nil => exact Nat.le_refl 0
  | cons p0 rest => exact (decodeRuneSize_cons_bounds p0 rest).2

/-- A byte below `0xC2` starts no encoding of two bytes or more. -/
theorem decodeRuneSize_of_lt {p0 : UInt8} (h : p0 < 0xC2) (rest : List UInt8) :
    decodeRuneSize (p0 :: rest) = 1 := by
  simp [decodeRuneSize, first, h]

/-- A single byte is a rune of one byte, whatever it is. -/
@[simp] theorem decodeRuneSize_singleton (c : UInt8) : decodeRuneSize [c] = 1 := by
  simp only [decodeRuneSize]
  split
  · rfl
  · rename_i sz lo hi hfirst
    have := two_le_of_first hfirst
    rw [if_pos (by simp only [List.length_nil]; omega)]

end Utf8
