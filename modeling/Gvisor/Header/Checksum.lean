import Mathlib
import Gvisor.Buffer.View

/-! The Internet checksum of pkg/tcpip/header/checksum.go: `calculateChecksum`,
`Checksum`, `ChecksumVV` and `ChecksumCombine`, in the source's fixed-width arithmetic.
Over them, what RFC 1071 says the checksum is: the sum of the big-endian 16-bit words with
the end-around carry folded in, a trailing odd byte padded with zero. -/

namespace Header

open Buffer

/-- `ChecksumCombine`. -/
def checksumCombine (a b : UInt16) : UInt16 :=
  let v := a.toUInt32 + b.toUInt32
  (v + (v >>> 16)).toUInt16

/-- The loop of `calculateChecksum` over the words of an even number of bytes. -/
def wordsLoop : List UInt8 → UInt32 → UInt32
  | b₀ :: b₁ :: rest, v => wordsLoop rest (v + ((b₀.toUInt32 <<< 8) + b₁.toUInt32))
  | _, v => v

/-- `calculateChecksum`: a trailing odd byte first, as the high half of a word, and then
the words of the rest. -/
def calculateChecksum (buf : List UInt8) (initial : UInt32) : UInt16 :=
  let l := buf.length
  let (l, v) := if l % 2 ≠ 0 then (l - 1, initial + ((buf.getD (l - 1) 0).toUInt32 <<< 8))
    else (l, initial)
  let v := wordsLoop (buf.take l) v
  checksumCombine v.toUInt16 (v >>> 16).toUInt16

/-- `Checksum`. -/
def checksum (buf : List UInt8) (initial : UInt16) : UInt16 :=
  calculateChecksum buf initial.toUInt32

/-- The loop of `ChecksumVV` over the views, with `odd` set after an odd number of bytes. -/
def checksumVVLoop : List View → Bool → UInt16 → UInt16
  | [], _, sum => sum
  | v :: rest, odd, sum =>
    if v.length = 0 then checksumVVLoop rest odd sum
    else
      -- the first byte of a view after an odd number of bytes is the low half of a word
      let (s, v) := if odd then (sum.toUInt32 + (v.headD 0).toUInt32, v.drop 1)
        else (sum.toUInt32, v)
      checksumVVLoop rest (v.length % 2 ≠ 0) (calculateChecksum v s)

/-- `ChecksumVV`. -/
def checksumVV (vv : VectorisedView) (initial : UInt16) : UInt16 :=
  checksumVVLoop vv.views false initial

/-! ### The one's complement sum of RFC 1071 -/

/-- A sum folded to 16 bits by adding the end-around carry until it fits. -/
def fold (v : ℕ) : ℕ :=
  if v < 2 ^ 16 then v else fold (v % 2 ^ 16 + v / 2 ^ 16)
termination_by v
decreasing_by omega

/-- The big-endian 16-bit words of `buf`, a trailing odd byte padded with zero. -/
def words : List UInt8 → List ℕ
  | b₀ :: b₁ :: rest => (b₀.toNat * 2 ^ 8 + b₁.toNat) :: words rest
  | [b] => [b.toNat * 2 ^ 8]
  | [] => []

/-- The RFC 1071 checksum of `buf` from `initial`. -/
def onesSum (initial : ℕ) (buf : List UInt8) : ℕ := fold (initial + (words buf).sum)

/-- The folded sum is the sum modulo `2^16 - 1`, where zero stays zero and every other
multiple of `2^16 - 1` is `2^16 - 1`. -/
theorem fold_eq (v : ℕ) : fold v = if v = 0 then 0 else (v - 1) % 65535 + 1 := by
  induction v using fold.induct with
  | case1 v hv =>
    rw [fold, if_pos hv]
    split_ifs <;> omega
  | case2 v hv ih =>
    rw [fold, if_neg hv, ih]
    split_ifs <;> omega

theorem fold_lt (v : ℕ) : fold v < 2 ^ 16 := by
  rw [fold_eq]
  split_ifs <;> omega

/-- Folding part of a sum first folds the same sum. -/
theorem fold_fold_add (x y : ℕ) : fold (fold x + y) = fold (x + y) := by
  rw [fold_eq (fold x + y), fold_eq (x + y), fold_eq x]
  split_ifs <;> omega

theorem fold_of_lt {v : ℕ} (h : v < 2 ^ 16) : fold v = v := by
  rw [fold, if_pos h]

/-- A sum of 32 bits folds as its two halves. -/
theorem fold_halves (v : ℕ) : fold (v % 2 ^ 16 + v / 2 ^ 16) = fold v := by
  by_cases h : v < 2 ^ 16
  · rw [Nat.mod_eq_of_lt h, Nat.div_eq_of_lt h, Nat.add_zero]
  · conv_rhs => rw [fold, if_neg h]

theorem toNat_checksumCombine (a b : UInt16) :
    (checksumCombine a b).toNat = fold (a.toNat + b.toNat) := by
  have ha := a.toNat_lt
  have hb := b.toNat_lt
  have hv : (a.toUInt32 + b.toUInt32).toNat = a.toNat + b.toNat := by
    rw [UInt32.toNat_add, UInt16.toNat_toUInt32, UInt16.toNat_toUInt32, Nat.mod_eq_of_lt (by omega)]
  simp only [checksumCombine, UInt32.toNat_toUInt16, UInt32.toNat_add, UInt32.toNat_shiftRight, hv,
    show UInt32.toNat 16 % 32 = 16 from rfl, Nat.shiftRight_eq_div_pow]
  -- the sum of two halves is at most `2 * (2^16 - 1)`, so one carry folds it
  have hs : a.toNat + b.toNat ≤ 2 * (2 ^ 16 - 1) := by omega
  generalize a.toNat + b.toNat = s at hs ⊢
  by_cases h : s < 2 ^ 16
  · rw [fold_of_lt h]
    omega
  · rw [fold, if_neg h, fold_of_lt (by omega)]
    omega

/-! ### The words of a buffer -/

theorem words_append_of_even {a : List UInt8} (ha : a.length % 2 = 0) (b : List UInt8) :
    words (a ++ b) = words a ++ words b := by
  induction a using words.induct with
  | case1 b₀ b₁ rest ih =>
    simp only [List.length_cons] at ha
    simp only [List.cons_append, words, ih (by omega)]
  | case2 c => simp at ha
  | case3 => rfl

theorem sum_words_le (buf : List UInt8) :
    (words buf).sum ≤ (2 ^ 16 - 1) * ((buf.length + 1) / 2) := by
  induction buf using words.induct with
  | case1 b₀ b₁ rest ih =>
    have := b₀.toNat_lt
    have := b₁.toNat_lt
    simp only [words, List.sum_cons, List.length_cons]
    omega
  | case2 b =>
    have := b.toNat_lt
    simp [words]
    omega
  | case3 => simp [words]

/-- After an odd number of bytes, the next byte is the low half of the last word. -/
theorem sum_words_append_of_odd {a : List UInt8} (ha : a.length % 2 = 1) (c : UInt8)
    (v : List UInt8) : (words (a ++ c :: v)).sum = (words a).sum + c.toNat + (words v).sum := by
  have hne : a ≠ [] := by
    rintro rfl
    simp at ha
  obtain ⟨a', b, rfl⟩ : ∃ a' b, a = a' ++ [b] := ⟨a.dropLast, a.getLast hne,
    (List.dropLast_append_getLast hne).symm⟩
  have ha' : a'.length % 2 = 0 := by
    simp only [List.length_append, List.length_singleton] at ha
    omega
  rw [List.append_assoc, words_append_of_even ha', words_append_of_even ha', List.singleton_append]
  simp only [words, List.sum_append, List.sum_cons, List.sum_nil]
  omega

theorem toNat_wordsLoop (buf : List UInt8) (v : UInt32) (heven : buf.length % 2 = 0)
    (h : v.toNat + (words buf).sum < 2 ^ 32) :
    (wordsLoop buf v).toNat = v.toNat + (words buf).sum := by
  induction buf, v using wordsLoop.induct with
  | case1 b₀ b₁ rest v ih =>
    have h₀ := b₀.toNat_lt
    have h₁ := b₁.toNat_lt
    simp only [List.length_cons] at heven
    simp only [words, List.sum_cons] at h ⊢
    have hw : (v + ((b₀.toUInt32 <<< 8) + b₁.toUInt32)).toNat = v.toNat + (b₀.toNat * 2 ^ 8 + b₁.toNat) := by
      rw [UInt32.toNat_add, UInt32.toNat_add, UInt32.toNat_shiftLeft, UInt8.toNat_toUInt32,
        UInt8.toNat_toUInt32]
      simp only [show (8 : UInt32).toNat % 32 = 8 from rfl, Nat.shiftLeft_eq]
      omega
    rw [wordsLoop, ih (by omega) (by omega), hw]
    omega
  | case2 buf v hbuf =>
    rw [wordsLoop]
    · rcases buf with _ | ⟨b₀, _ | ⟨b₁, rest⟩⟩
      · rfl
      · simp at heven
      · exact absurd rfl (hbuf b₀ b₁ rest)
    · exact hbuf

/-- The two halves that `calculateChecksum` combines fold as the whole sum. -/
theorem fold_toUInt16_halves (v : UInt32) :
    fold (v.toUInt16.toNat + (v >>> 16).toUInt16.toNat) = fold v.toNat := by
  have hv := v.toNat_lt
  simp only [UInt32.toNat_toUInt16, UInt32.toNat_shiftRight, show UInt32.toNat 16 % 32 = 16 from rfl,
    Nat.shiftRight_eq_div_pow]
  rw [Nat.mod_eq_of_lt (a := v.toNat / 2 ^ 16) (by omega)]
  exact fold_halves v.toNat

/-- `calculateChecksum` is the folded sum of `initial` and the words of `buf`, as long as
that sum fits in the `uint32` accumulator. -/
theorem toNat_calculateChecksum (buf : List UInt8) (initial : UInt32)
    (h : initial.toNat + (words buf).sum < 2 ^ 32) :
    (calculateChecksum buf initial).toNat = fold (initial.toNat + (words buf).sum) := by
  by_cases hodd : buf.length % 2 = 0
  · have hv := toNat_wordsLoop buf initial hodd h
    simp only [calculateChecksum, hodd, ne_eq, not_true_eq_false, if_false, List.take_length,
      toNat_checksumCombine, fold_toUInt16_halves, hv]
  · -- the trailing byte is added first, as the high half of the last word
    have hsplit : words buf =
        words (buf.take (buf.length - 1)) ++ [(buf.getD (buf.length - 1) 0).toNat * 2 ^ 8] := by
      have hne : buf ≠ [] := by
        rintro rfl
        simp at hodd
      have hb : buf = buf.take (buf.length - 1) ++ [buf.getD (buf.length - 1) 0] := by
        rw [← List.dropLast_eq_take, List.getD_eq_getElem?_getD,
          List.getElem?_eq_getElem (by omega), Option.getD_some,
          ← List.getLast_eq_getElem hne, List.dropLast_append_getLast hne]
      conv_lhs => rw [hb]
      rw [words_append_of_even (by rw [List.length_take]; omega)]
      rfl
    simp only [calculateChecksum, ne_eq, hodd, not_false_eq_true, if_true]
    generalize buf.getD (buf.length - 1) 0 = b at hsplit ⊢
    have hb := b.toNat_lt
    rw [hsplit, List.sum_append, List.sum_singleton] at h ⊢
    have hv : (initial + b.toUInt32 <<< 8).toNat = initial.toNat + b.toNat * 2 ^ 8 := by
      simp only [UInt32.toNat_add, UInt32.toNat_shiftLeft, UInt8.toNat_toUInt32, UInt32.reduceToNat,
        Nat.reduceMod, Nat.shiftLeft_eq]
      omega
    have hw := toNat_wordsLoop (buf.take (buf.length - 1)) (initial + b.toUInt32 <<< 8)
      (by rw [List.length_take]; omega) (by omega)
    rw [toNat_checksumCombine, fold_toUInt16_halves, hw, hv]
    congr 1
    omega

/-- `Checksum` is the RFC 1071 sum for every buffer of at most `2^17` bytes. -/
theorem toNat_checksum (buf : List UInt8) (initial : UInt16) (h : buf.length ≤ 2 ^ 17) :
    (checksum buf initial).toNat = onesSum initial.toNat buf := by
  have hi := initial.toNat_lt
  have hw := sum_words_le buf
  have hs : initial.toUInt32.toNat + (words buf).sum < 2 ^ 32 := by
    rw [UInt16.toNat_toUInt32]
    have : (2 ^ 16 - 1) * ((buf.length + 1) / 2) ≤ (2 ^ 16 - 1) * 2 ^ 16 :=
      Nat.mul_le_mul_left _ (by omega)
    omega
  rw [checksum, toNat_calculateChecksum buf _ hs, UInt16.toNat_toUInt32, onesSum]

/-! ### The vectorised checksum -/

/-- The invariant of the `ChecksumVV` loop: after the bytes `pre`, `sum` is their folded
sum from `initial`, and `odd` says that there was an odd number of them. -/
theorem toNat_checksumVVLoop (initial : ℕ) (views : List View) (pre : List UInt8) (odd : Bool)
    (sum : UInt16) (hodd : odd = decide (pre.length % 2 = 1))
    (hsum : sum.toNat = fold (initial + (words pre).sum))
    (hsize : pre.length + (views.map List.length).sum < 2 ^ 16) :
    (checksumVVLoop views odd sum).toNat = fold (initial + (words (pre ++ views.flatten)).sum) := by
  induction views generalizing pre odd sum with
  | nil => simpa [checksumVVLoop] using hsum
  | cons v rest ih =>
    simp only [List.map_cons, List.sum_cons] at hsize
    rw [checksumVVLoop, List.flatten_cons, ← List.append_assoc]
    by_cases hv : v.length = 0
    · rw [if_pos hv, List.length_eq_zero_iff.mp hv, List.append_nil]
      exact ih pre odd sum hodd hsum (by omega)
    rw [if_neg hv]
    have hs := sum.toNat_lt
    cases odd with
    | false =>
      -- after an even number of bytes the view starts a new word
      have hpre : pre.length % 2 = 0 := by simpa using hodd
      have hw := sum_words_le v
      simp only [Bool.false_eq_true, if_false]
      apply ih (pre ++ v) _ _ _ _ (by rw [List.length_append]; omega)
      · rw [decide_eq_decide, List.length_append]
        omega
      · have hv' : (2 ^ 16 - 1) * ((v.length + 1) / 2) ≤ (2 ^ 16 - 1) * 2 ^ 15 :=
          Nat.mul_le_mul_left _ (by omega)
        rw [toNat_calculateChecksum v _ (by rw [UInt16.toNat_toUInt32]; omega),
          UInt16.toNat_toUInt32, hsum, fold_fold_add, words_append_of_even hpre, List.sum_append,
          Nat.add_assoc]
    | true =>
      -- after an odd number of bytes the first byte of the view ends the last word
      obtain ⟨c, v', rfl⟩ : ∃ c v', v = c :: v' := List.exists_cons_of_ne_nil (by simpa using hv)
      have hpre : pre.length % 2 = 1 := by simpa using hodd
      have hc := c.toNat_lt
      have hw := sum_words_le v'
      simp only [if_true, List.headD_cons, List.drop_succ_cons, List.drop_zero]
      simp only [List.length_cons] at hsize
      apply ih (pre ++ c :: v') _ _ _ _ (by rw [List.length_append, List.length_cons]; omega)
      · rw [decide_eq_decide, List.length_append, List.length_cons]
        omega
      · have hsc : (sum.toUInt32 + c.toUInt32).toNat = sum.toNat + c.toNat := by
          rw [UInt32.toNat_add, UInt16.toNat_toUInt32, UInt8.toNat_toUInt32, Nat.mod_eq_of_lt (by omega)]
        have hv' : (2 ^ 16 - 1) * ((v'.length + 1) / 2) ≤ (2 ^ 16 - 1) * 2 ^ 15 :=
          Nat.mul_le_mul_left _ (by omega)
        rw [toNat_calculateChecksum v' _ (by rw [hsc]; omega), hsc, hsum, Nat.add_assoc,
          fold_fold_add, sum_words_append_of_odd hpre]
        congr 1
        omega

theorem checksumVV_eq_checksum_toView (vv : VectorisedView) (initial : UInt16)
    (h : (vv.views.map List.length).sum < 2 ^ 16) :
    checksumVV vv initial = checksum vv.toView initial ∧
      ∀ buf : List UInt8, buf.length ≤ 2 ^ 17 →
        (checksum buf initial).toNat = onesSum initial.toNat buf := by
  have hi := initial.toNat_lt
  have hvv := toNat_checksumVVLoop initial.toNat vv.views [] false initial rfl
    (by rw [words, List.sum_nil, Nat.add_zero, fold_of_lt hi]) (by simpa using h)
  have hlen : vv.toView.length ≤ 2 ^ 17 := by
    rw [VectorisedView.toView_eq_bytes, VectorisedView.bytes, List.length_flatten]
    omega
  refine ⟨UInt16.toNat_inj.mp ?_, fun buf hbuf => toNat_checksum buf initial hbuf⟩
  rw [checksumVV, hvv, toNat_checksum _ _ hlen, onesSum, VectorisedView.toView_eq_bytes, VectorisedView.bytes,
    List.nil_append]

/-- Views of odd length and an empty view between them. -/
theorem checksumVV_odd_views :
    ([[0x12], [], [0x34, 0x56]].map List.length).sum < 2 ^ 16 ∧
      checksumVV ⟨[[0x12], [], [0x34, 0x56]], 3⟩ 0xffff =
        checksum (VectorisedView.toView ⟨[[0x12], [], [0x34, 0x56]], 3⟩) 0xffff :=
  ⟨by decide, (checksumVV_eq_checksum_toView _ 0xffff (by decide)).1⟩

end Header
