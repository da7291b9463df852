import Gvisor.Tcp.ScoreboardSpec

/-! `IsRangeLost` and `IsLost` (pkg/tcpip/transport/tcp/sack_scoreboard.go), RFC
6675's loss test, on a board. The descending walk looks at the range just below
`r`. If that range holds `r`, then `r` is not lost. If it covers the start of
`r`, then `r` is moved to start where it ends, which is the first number of `r`
that no range covers (`FirstGap`). The ascending walk then counts the ranges
that start after that number (`rangesAbove`), with their bytes, until it reaches
`nDupAckThreshold` ranges or the byte threshold (`LostAbove`).

The byte threshold is `(nDupAckThreshold-1)*s.smss` computed in `uint16`, which
wraps once `smss` reaches `2^15`; below that it is the RFC's
`(DupThresh - 1) * SMSS`. -/

namespace Tcp

open SeqNum HalfOpen OrderedSet

variable {T : Type} [OrderedSet T SACKBlock]

/-- `u` is the first number of `r`, counted from `base`, that no range covers. -/
structure FirstGap (base : Value) (ranges : List SACKBlock) (r : SACKBlock) (u : ℕ) : Prop where
  mem : Covers (r.ival base) u
  gap : ¬∃ b ∈ ranges, Covers (b.ival base) u
  below : ∀ x, (r.ival base).1 ≤ x → x < u → ∃ b ∈ ranges, Covers (b.ival base) x

/-- The ranges that start past `u`. -/
def rangesAbove (base : Value) (ranges : List SACKBlock) (u : ℕ) : List SACKBlock :=
  ranges.filter fun b => u < (b.ival base).1

/-- RFC 6675's `IsLost` over the ranges above a number: there is one, and there
are `nDupAckThreshold` of them or they hold `threshold` bytes. -/
def LostAbove (threshold : ℕ) (above : List SACKBlock) : Prop :=
  above ≠ [] ∧ (nDupAckThreshold ≤ above.length ∨
    threshold ≤ (above.map fun b => (b.Start.size b.End).toNat).sum)

instance (threshold : ℕ) (above : List SACKBlock) : Decidable (LostAbove threshold above) :=
  inferInstanceAs (Decidable (_ ∧ _))

namespace SACKScoreboard

/-- The callback of `IsRangeLost`'s descending walk. -/
def lowerTurn (st : Bool × SACKBlock) (i : SACKBlock) : Bool × Bool × SACKBlock :=
  let (_, r) := st
  if i.contains r then (false, false, r)
  else if i.End.lessThanEq r.Start then (false, true, r)
  else (false, true, { r with Start := i.End })

/-- The byte threshold of `IsRangeLost`, `(nDupAckThreshold-1)*s.smss` as the
source computes it, in `uint16`. -/
def byteThreshold (smss : UInt16) : ℕ :=
  (((nDupAckThreshold - 1 : ℕ).toUInt16 * smss).toUInt32).toNat

/-- Below `2^15` the `uint16` product does not wrap. -/
theorem byteThreshold_of_lt {smss : UInt16} (h : smss.toNat < 2 ^ 15) :
    byteThreshold smss = (nDupAckThreshold - 1) * smss.toNat := by
  simp [byteThreshold, nDupAckThreshold]
  omega

/-- The callback of `IsRangeLost`'s ascending walk. -/
def countTurn (smss : UInt16) (r : SACKBlock) (st : ℕ × Size × Bool) (i : SACKBlock) :
    Bool × ℕ × Size × Bool :=
  let (nDupSACK, nDupSACKBytes, _) := st
  if i.contains r then (false, st)
  else
    let nDupSACKBytes := nDupSACKBytes + i.Start.size i.End
    let nDupSACK := nDupSACK + 1
    if nDupSACK ≥ nDupAckThreshold ∨
        nDupSACKBytes ≥ (((nDupAckThreshold - 1 : ℕ).toUInt16 * smss).toUInt32) then
      (false, nDupSACK, nDupSACKBytes, true)
    else (true, nDupSACK, nDupSACKBytes, false)

theorem isRangeLost_eq (s : SACKScoreboard T) (r : SACKBlock) :
    s.isRangeLost r = if s.empty then false else
      match descendLessOrEqual s.ranges r lowerTurn (true, r) with
      | (searchMore, r') =>
        if !searchMore then false
        else match ascendGreaterOrEqual s.ranges r' (countTurn s.smss r') (0, 0, false) with
          | (_, _, isLost) => isLost :=
  rfl

end SACKScoreboard

section Lower

variable {base : Value} {l : List SACKBlock} {r : SACKBlock}

/-- `IsRangeLost`'s descending walk on a chain stops at the range just below
`r`. It says `false` when that range holds `r`; otherwise `r` keeps its end and
now starts at its first number that no range covers. -/
theorem walk_lowerTurn (hl : Chain base l) (hr : r.Fits base) :
    ((walk SACKScoreboard.lowerTurn (l.takeWhile fun i => !r.less i).reverse (true, r)).1 = false ∧
        ∀ x, Covers (r.ival base) x → ∃ b ∈ l, Covers (b.ival base) x) ∨
      ((walk SACKScoreboard.lowerTurn (l.takeWhile fun i => !r.less i).reverse (true, r)).1 = true ∧
        (walk SACKScoreboard.lowerTurn (l.takeWhile fun i => !r.less i).reverse (true, r)).2.End = r.End ∧
        FirstGap base l r
          ((walk SACKScoreboard.lowerTurn (l.takeWhile fun i => !r.less i).reverse (true, r)).2.ival base).1) := by
  have hr1 := hr.1
  rcases hl.descend_cases hr.start_lt with ⟨hnil, hall⟩ | ⟨j, W, hW, hj, hj1, -, hother⟩
  · -- no range starts at or before `r`, so none covers its start
    rw [hnil, walk]
    dsimp only
    refine .inr ⟨rfl, rfl, ⟨Nat.le_refl _, hr1⟩, fun hcov => ?_,
      fun x h1 h2 => absurd h2 (Nat.not_lt.2 h1)⟩
    obtain ⟨b, hb, hx⟩ := hcov
    have := hall b hb
    have := hx.1
    omega
  rw [hW]
  have hjf := hl.fits j hj
  have hj12 := hjf.1
  by_cases hc : j.contains r = true
  · -- `j` holds `r`
    have hstep : SACKScoreboard.lowerTurn (true, r) j = (false, false, r) := by
      simp [SACKScoreboard.lowerTurn, hc]
    rw [walk_cons_of_stop hstep]
    rw [SACKBlock.contains_iff hjf hr] at hc
    exact .inl ⟨rfl, fun x hx => ⟨j, hj, Nat.le_trans hc.1 hx.1, Nat.lt_of_lt_of_le hx.2 hc.2⟩⟩
  have hend : (j.ival base).2 < (r.ival base).2 ∨ (j.ival base).2 ≤ (r.ival base).1 := by
    rw [SACKBlock.contains_iff hjf hr] at hc
    omega
  by_cases hgap : j.End.lessThanEq r.Start = true
  · -- `j` ends by `r`'s start, which stays uncovered
    have hstep : SACKScoreboard.lowerTurn (true, r) j = (false, true, r) := by
      simp [SACKScoreboard.lowerTurn, hc, hgap]
    rw [walk_cons_of_stop hstep]
    dsimp only
    rw [Value.lessThanEq_iff_size_le base hjf.2 hr.start_lt] at hgap
    change (j.ival base).2 ≤ (r.ival base).1 at hgap
    refine .inr ⟨rfl, rfl, ⟨Nat.le_refl _, hr1⟩, fun hcov => ?_,
      fun x h1 h2 => absurd h2 (Nat.not_lt.2 h1)⟩
    obtain ⟨b, hb, hx⟩ := hcov
    have := hx.1
    have := hx.2
    rcases hother b hb with rfl | hb2 | ⟨hb1, -⟩
    · exact absurd hgap (Nat.not_le.2 this)
    · omega
    · omega
  · -- `j` covers the start of `r` and ends inside it: `r` now starts at `j`'s end
    have hstep : SACKScoreboard.lowerTurn (true, r) j = (false, true, { r with Start := j.End }) := by
      simp [SACKScoreboard.lowerTurn, hc, hgap]
    rw [walk_cons_of_stop hstep]
    dsimp only
    rw [Value.lessThanEq_iff_size_le base hjf.2 hr.start_lt] at hgap
    change ¬(j.ival base).2 ≤ (r.ival base).1 at hgap
    have hj2 : (j.ival base).2 < (r.ival base).2 := by omega
    refine .inr ⟨rfl, rfl, ?_⟩
    show FirstGap base l r (j.ival base).2
    refine ⟨⟨by omega, hj2⟩, fun hcov => ?_, fun x h1 h2 => ?_⟩
    · obtain ⟨b, hb, hx⟩ := hcov
      have := hx.1
      have := hx.2
      rcases hother b hb with rfl | hb2 | ⟨-, hjb⟩
      · exact Nat.lt_irrefl _ this
      · omega
      · exact absurd hjb (Nat.not_lt.2 (by assumption))
    · exact ⟨j, hj, by omega, h2⟩

theorem FirstGap.unique {base : Value} {l : List SACKBlock} {r : SACKBlock} {u v : ℕ}
    (hu : FirstGap base l r u) (hv : FirstGap base l r v) : u = v := by
  rcases Nat.lt_trichotomy u v with h | h | h
  · exact absurd (hv.below u hu.mem.1 h) hu.gap
  · exact h
  · exact absurd (hu.below v hv.mem.1 h) hv.gap

end Lower

section Count

variable {base : Value} {l : List SACKBlock} {r r' : SACKBlock}

/-- On a chain, `AscendGreaterOrEqual` from a number no range covers walks the
ranges above it. -/
theorem ascend_eq_rangesAbove (hl : Chain base l) (hu : (r'.ival base).1 < 2 ^ 31)
    (hgap : ¬∃ b ∈ l, Covers (b.ival base) (r'.ival base).1) :
    l.dropWhile (·.less r') = rangesAbove base l (r'.ival base).1 := by
  have hall : ∀ x ∈ l.dropWhile (·.less r'), x.less r' = false := fun x hx =>
    (SACKBlock.less_eq_false (hl.fits x ((List.dropWhile_sublist _).subset hx)).start_lt hu).2
      (hl.le_of_mem_dropWhile_less hu hx)
  rw [List.dropWhile_eq_filter hall, rangesAbove]
  refine List.filter_congr fun x hx => ?_
  have hxf := hl.fits x hx
  by_cases h : (r'.ival base).1 < (x.ival base).1
  · rw [(SACKBlock.less_eq_false hxf.start_lt hu).2 h.le]
    simp [h]
  · -- `x` starts before the gap, as it cannot start at it
    have hlt : (x.ival base).1 < (r'.ival base).1 := by
      rcases Nat.lt_or_ge (x.ival base).1 (r'.ival base).1 with h' | h'
      · exact h'
      · exact absurd ⟨x, hx, by omega, by have := hxf.1; omega⟩ hgap
    rw [(SACKBlock.less_iff hxf.start_lt hu).2 hlt]
    simp [h]

variable (smss : UInt16) (r : SACKBlock)

/-- `IsRangeLost`'s ascending walk over ranges that do not hold `r`, from `n`
ranges and `c` bytes, without a wrap of the byte count: it says lost when there
is a range and the counts reach a threshold by the end. -/
theorem walk_countTurn {L : List SACKBlock} (hL : ∀ i ∈ L, i.contains r = false) (n : ℕ)
    (c : Size) (hc : c.toNat + (L.map fun b => (b.Start.size b.End).toNat).sum < 2 ^ 32) :
    (walk (SACKScoreboard.countTurn smss r) L (n, c, false)).2.2 = true ↔
      L ≠ [] ∧ (nDupAckThreshold ≤ n + L.length ∨
        SACKScoreboard.byteThreshold smss ≤ c.toNat + (L.map fun b => (b.Start.size b.End).toNat).sum) := by
  induction L generalizing n c with
  | nil => simp [walk]
  | cons a L ih =>
    have ha := hL a List.mem_cons_self
    simp only [List.map_cons, List.sum_cons] at hc
    have hbytes : (c + a.Start.size a.End).toNat = c.toNat + (a.Start.size a.End).toNat := by
      rw [UInt32.toNat_add]
      exact Nat.mod_eq_of_lt (by omega)
    simp only [List.map_cons, List.sum_cons, List.length_cons, ne_eq, reduceCtorEq,
      not_false_eq_true, true_and]
    by_cases hhit : n + 1 ≥ nDupAckThreshold ∨
        c + a.Start.size a.End ≥ (((nDupAckThreshold - 1 : ℕ).toUInt16 * smss).toUInt32)
    · -- this range reaches a threshold: the walk stops and says lost
      have hstep : SACKScoreboard.countTurn smss r (n, c, false) a =
          (false, n + 1, c + a.Start.size a.End, true) := by
        simp only [SACKScoreboard.countTurn, ha, hhit]
        simp
      rw [walk_cons_of_stop hstep]
      simp only [true_iff]
      rcases hhit with h | h
      · omega
      · rw [ge_iff_le, UInt32.le_iff_toNat_le, hbytes] at h
        change SACKScoreboard.byteThreshold smss ≤ _ at h
        omega
    · -- the walk goes on with the counts of this range
      have hstep : SACKScoreboard.countTurn smss r (n, c, false) a =
          (true, n + 1, c + a.Start.size a.End, false) := by
        simp only [SACKScoreboard.countTurn, ha, hhit]
        simp
      rw [walk_cons_of_more hstep, ih (fun i hi => hL i (List.mem_cons_of_mem _ hi)) (n + 1)
        (c + a.Start.size a.End) (by omega), hbytes]
      have hN : ¬nDupAckThreshold ≤ n + 1 := fun h => hhit (.inl h)
      have hT : ¬SACKScoreboard.byteThreshold smss ≤ c.toNat + (a.Start.size a.End).toNat :=
        fun h => hhit (.inr (by rw [ge_iff_le, UInt32.le_iff_toNat_le, hbytes]; exact h))
      cases L with
      | nil => simp only [List.map_nil, List.sum_nil, List.length_nil]; omega
      | cons b L => simp only [ne_eq, reduceCtorEq, not_false_eq_true, true_and]; omega

end Count

/-- `IsRangeLost` on a board: `r` is lost exactly when part of it is uncovered
and, above its first uncovered number, there is a range and there are
`nDupAckThreshold` ranges or `byteThreshold s.smss` bytes. -/
theorem Board.isRangeLost_iff [Lawful T SACKBlock] {base : Value} {s : SACKScoreboard T}
    {r : SACKBlock} (hb : Board base s) (hr : r.Fits base) :
    s.isRangeLost r = true ↔ ∃ u, FirstGap base (items s.ranges) r u ∧
      LostAbove (SACKScoreboard.byteThreshold s.smss) (rangesAbove base (items s.ranges) u) := by
  rw [SACKScoreboard.isRangeLost_eq]
  by_cases he : s.empty = true
  · have hnil : items s.ranges = [] := (SACKScoreboard.empty_iff s).1 he
    rw [if_pos he]
    simp only [Bool.false_eq_true, false_iff, not_exists, not_and]
    intro u _ hlost
    exact hlost.1 (by simp [rangesAbove, hnil])
  rw [if_neg he, descend_of_chain hb.chain hr.start_lt]
  rcases walk_lowerTurn hb.chain hr with ⟨hf, hcov⟩ | ⟨ht, hend, hgap⟩
  · -- a range holds `r`, so no number of `r` is a gap
    generalize walk SACKScoreboard.lowerTurn ((items s.ranges).takeWhile fun i => !r.less i).reverse (true, r) = w at hf
    obtain ⟨sm, r'⟩ := w
    subst hf
    simp only [Bool.not_false, ite_true, Bool.false_eq_true, false_iff, not_exists, not_and]
    exact fun u hu => absurd (hcov u hu.mem) hu.gap
  generalize walk SACKScoreboard.lowerTurn ((items s.ranges).takeWhile fun i => !r.less i).reverse (true, r) = w
    at ht hend hgap
  obtain ⟨sm, r'⟩ := w
  dsimp only at ht hend hgap
  subst ht
  have hu : (r'.ival base).1 < 2 ^ 31 := Nat.lt_trans hgap.mem.2 hr.2
  have hr'2 : (r'.ival base).2 = (r.ival base).2 := by rw [SACKBlock.ival, SACKBlock.ival, hend]
  have hr' : r'.Fits base := ⟨by rw [hr'2]; exact hgap.mem.2, by rw [hr'2]; exact hr.2⟩
  have habove : Chain base (rangesAbove base (items s.ranges) (r'.ival base).1) :=
    hb.chain.sublist List.filter_sublist
  -- what the ascending walk sees lies past the gap, so none of it holds `r'`
  have hnot : ∀ i ∈ rangesAbove base (items s.ranges) (r'.ival base).1, i.contains r' = false := by
    intro i hi
    have hi1 := hi
    simp only [rangesAbove, List.mem_filter, decide_eq_true_eq] at hi1
    rw [← Bool.not_eq_true, SACKBlock.contains_iff (habove.fits i hi) hr']
    omega
  show (ascendGreaterOrEqual s.ranges r' (SACKScoreboard.countTurn s.smss r')
    (0, 0, false)).2.2 = true ↔ _
  rw [ascend_of_chain hb.chain hu, ascend_eq_rangesAbove hb.chain hu hgap.gap,
    walk_countTurn s.smss r' hnot 0 0 (by
      rw [UInt32.toNat_zero, Nat.zero_add]
      exact Nat.lt_of_le_of_lt habove.sum_lengths_le (by decide))]
  simp only [Nat.zero_add, UInt32.toNat_zero]
  constructor
  · exact fun hlost => ⟨_, hgap, hlost⟩
  · rintro ⟨u, hu', hlost⟩
    rw [hgap.unique hu'] at ⊢
    exact hlost

/-- `IsLost(seq)` is `IsRangeLost([seq, seq+1))`: on a board, `seq` is lost when
no range covers it and the ranges above it reach a threshold. -/
theorem Board.isLost_iff [Lawful T SACKBlock] {base : Value} {s : SACKScoreboard T} {seq : Value}
    (hb : Board base s) (hseq : (base.size seq).toNat + 1 < 2 ^ 31) :
    s.isLost seq = true ↔ (¬∃ b ∈ items s.ranges, Covers (b.ival base) (base.size seq).toNat) ∧
      LostAbove (SACKScoreboard.byteThreshold s.smss)
        (rangesAbove base (items s.ranges) (base.size seq).toNat) := by
  have hnext : (base.size (seq.add 1)).toNat = (base.size seq).toNat + 1 := by
    have h : base.size (seq.add 1) = base.size seq + 1 := by
      simp only [Value.size, Value.add]
      grind
    rw [h, UInt32.toNat_add]
    exact Nat.mod_eq_of_lt (by simp; omega)
  have hival : SACKBlock.ival base ⟨seq, seq.add 1⟩ =
      ((base.size seq).toNat, (base.size seq).toNat + 1) := by
    rw [SACKBlock.ival, hnext]
  have hr : SACKBlock.Fits base ⟨seq, seq.add 1⟩ := by
    simp only [SACKBlock.Fits, hival]
    omega
  rw [SACKScoreboard.isLost, hb.isRangeLost_iff hr]
  constructor
  · -- the only number of `[seq, seq+1)` is `seq`
    rintro ⟨u, hu, hlost⟩
    have hmem := hu.mem
    simp only [Covers, hival] at hmem
    obtain rfl : u = (base.size seq).toNat := by omega
    exact ⟨hu.gap, hlost⟩
  · rintro ⟨hgap, hlost⟩
    refine ⟨_, ⟨?_, hgap, fun x h1 h2 => ?_⟩, hlost⟩
    · simp only [Covers, hival]
      omega
    · rw [hival] at h1
      exact absurd h2 (Nat.not_lt.2 h1)

/-- At a loopback MSS of 65483 the `uint16` threshold wraps to 65430 bytes. One
range of 65430 bytes above `[0, 1)` then makes it lost, where RFC 6675 asks for
`(nDupAckThreshold-1)*65483` bytes or `nDupAckThreshold` ranges. -/
theorem SACKScoreboard.isRangeLost_wraps_threshold [Lawful T SACKBlock] :
    items ((newSACKScoreboard 65483 0 : SACKScoreboard T).insert ⟨100, 65530⟩).ranges =
        [⟨100, 65530⟩] ∧
      ((newSACKScoreboard 65483 0 : SACKScoreboard T).insert ⟨100, 65530⟩).isRangeLost ⟨0, 1⟩ =
        true ∧
      ¬LostAbove ((nDupAckThreshold - 1) * 65483) (rangesAbove 0
        (items ((newSACKScoreboard 65483 0 : SACKScoreboard T).insert ⟨100, 65530⟩).ranges) 0) := by
  have hnew : items (newSACKScoreboard 65483 0 : SACKScoreboard T).ranges = [] := Lawful.items_new
  obtain ⟨hitems, -, hsmss⟩ := insert_of_items_nil hnew ⟨100, 65530⟩
  have hb : Board 0 ((newSACKScoreboard 65483 0 : SACKScoreboard T).insert ⟨100, 65530⟩) :=
    ((SACKScoreboard.Reachable.new 0 65483 0).step (.insert _ _ ⟨by decide, by decide⟩)).board
  refine ⟨hitems, ?_, by rw [hitems]; decide⟩
  -- `0` is the first uncovered number of `[0, 1)`, and the one range above it reaches the
  -- wrapped threshold
  rw [hb.isRangeLost_iff ⟨by decide, by decide⟩, hitems, hsmss,
    show (newSACKScoreboard 65483 0 : SACKScoreboard T).smss = 65483 from rfl]
  refine ⟨0, ⟨⟨by decide, by decide⟩, ?_, fun x h1 h2 => absurd h2 (Nat.not_lt.2 h1)⟩, by decide⟩
  rintro ⟨b, hb, hx⟩
  rw [List.mem_singleton] at hb
  subst hb
  exact absurd hx.1 (by decide)

theorem SACKScoreboard.isRangeLost_wraps_threshold_list :
    ((newSACKScoreboard 65483 0 : SACKScoreboard (List SACKBlock)).insert ⟨100, 65530⟩).ranges =
        [⟨100, 65530⟩] ∧
      ((newSACKScoreboard 65483 0 : SACKScoreboard (List SACKBlock)).insert
        ⟨100, 65530⟩).isRangeLost ⟨0, 1⟩ = true ∧
      ¬LostAbove ((nDupAckThreshold - 1) * 65483) (rangesAbove 0
        ((newSACKScoreboard 65483 0 : SACKScoreboard (List SACKBlock)).insert ⟨100, 65530⟩).ranges 0) :=
  @SACKScoreboard.isRangeLost_wraps_threshold (List SACKBlock) _ _

end Tcp
