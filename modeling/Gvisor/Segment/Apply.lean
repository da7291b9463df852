import Gvisor.Lib.Outcome
import Gvisor.Segment.Ops

/-! `ApplyContiguous`: `fn` applied to the pieces in `r` of the run of adjacent segments from
`r.Start`, one `Isolate` at a time, up to the first gap that is not empty. The loop is a walk
over the original segments: at each turn the segments from the current one on are those of the
original set from some index on, so the pieces are the parts in `r` of the original segments
that meet the run, in order. -/

namespace Segment

variable {V : Type} [Inhabited V]

variable (F : Functions V) (r : Range) (fn : Range → V → V)

/-- The loop of `ApplyContiguous` at the segment `seg`: the set after it, the pieces `fn` was
applied to (the range and the value of each, in order), and the gap it returns, `none` for a
terminal one. -/
def applyContiguousLoop : ℕ → List (Range × V) → ℕ → List (Range × V) →
    Outcome Unit (List (Range × V) × List (Range × V) × Option ℕ)
  | 0, _, _, _ => .hang
  | fuel + 1, s, seg, applied =>
    let (s, seg) := isolate F s seg r
    let applied := applied ++ [(segRange s seg, value s seg)]
    let s := setValue s seg (fn (segRange s seg) (value s seg))
    if r.End ≤ segEnd s seg then .ok (s, applied, none)
    else if (gapRange s F (seg + 1)).length ≠ 0 then .ok (s, applied, some (seg + 1))
    -- the empty gap's `NextSegment`; a terminal one means the segment reached `MaxKey`
    else if seg + 1 < s.length then applyContiguousLoop fuel s (seg + 1) applied
    else .ok (s, applied, none)

/-- `ApplyContiguous`, with `fn` a function of the segment's range and value that gives its new
value. -/
def applyContiguous (s : List (Range × V)) : Outcome Unit (List (Range × V) × List (Range × V) × Option ℕ) :=
  let (seg, gap) := find s r.Start
  if seg < s.length then applyContiguousLoop F r fn (s.length + 1) s seg [] else .ok (s, [], some gap)

variable {F r}
variable {s s0 : List (Range × V)} {seg j : ℕ}

/-- `Isolate` of a segment that ends by `r.End` cuts nothing after the piece. -/
theorem drop_isolate_of_end_le (hseg : seg < s.length) (h : segEnd s seg ≤ r.End) :
    (isolate F s seg r).1.drop ((isolate F s seg r).2 + 1) = s.drop (seg + 1) := by
  unfold isolate
  split_ifs with h1
  · dsimp only
    simp only [splitUnchecked_snd]
    have h2 : ¬(segRange (splitUnchecked F s seg r.Start).1 (seg + 1)).canSplitAt r.End := by
      rw [(segRange_of_drop (drop_succ_splitUnchecked hseg)).1, Range.canSplitAt_iff]
      dsimp only
      omega
    simp only [h2]
    exact drop_succ_succ_splitUnchecked hseg
  · dsimp only
    have h2 : ¬(segRange s seg).canSplitAt r.End := by
      rw [Range.canSplitAt_iff]
      simp only [segEnd] at h
      omega
    simp only [h2]
    rfl

omit [Inhabited V] in
/-- Of segments sorted around `o`, those that meet `[r.Start, c)`, where `c` lies in `o` past its
start: those that meet `r` and start before `o`, and `o`. -/
theorem filter_run (pre post : List (Range × V)) {o : Range × V} {c : ℕ}
    (hpre : ∀ p ∈ pre, p.1.Start < o.1.Start) (hpost : ∀ p ∈ post, o.1.End ≤ p.1.Start)
    (hc1 : o.1.Start < c) (hc2 : c ≤ o.1.End) (hr : r.Start < o.1.End) :
    (pre ++ o :: post).filter (fun p => p.1.Start < c ∧ r.Start < p.1.End) =
      (pre ++ o :: post).filter (fun p => p.1.Start < o.1.Start ∧ r.Start < p.1.End) ++ [o] := by
  -- before `o`, both tests read `r.Start < p.1.End`; after it, both fail
  have hb : pre.filter (fun p => p.1.Start < c ∧ r.Start < p.1.End) =
      pre.filter (fun p => p.1.Start < o.1.Start ∧ r.Start < p.1.End) := List.filter_congr fun p hp => by
    have := hpre p hp
    simp only [decide_eq_decide]
    omega
  have ha : ∀ d, d ≤ o.1.End → post.filter (fun p => p.1.Start < d ∧ r.Start < p.1.End) = [] :=
    fun d hd => List.filter_eq_nil_iff.2 fun p hp => by
      have := hpost p hp
      simp only [decide_eq_true_eq, not_and, not_lt]
      omega
  rw [List.filter_append, List.filter_append, List.filter_cons, List.filter_cons, hb, ha c hc2,
    ha o.1.Start (by omega)]
  simp [hc1, hr]

/-- The same, for the segment `j` of a well-formed set. -/
theorem WellFormed.filter_run (hw : WellFormed F s0) (hj : j < s0.length) {c : ℕ}
    (hc1 : segStart s0 j < c) (hc2 : c ≤ segEnd s0 j) (hr : r.Start < segEnd s0 j) :
    s0.filter (fun p => p.1.Start < c ∧ r.Start < p.1.End) =
      s0.filter (fun p => p.1.Start < segStart s0 j ∧ r.Start < p.1.End) ++ [(segRange s0 j, value s0 j)] := by
  have hs0 : s0 = s0.take j ++ (segRange s0 j, value s0 j) :: s0.drop (j + 1) := by
    rw [← drop_eq_cons hj, List.take_append_drop]
  have h := Segment.filter_run (r := r) (c := c) (o := (segRange s0 j, value s0 j)) (s0.take j)
    (s0.drop (j + 1)) (fun p hp => by
      obtain ⟨i, hi, hl, rfl⟩ := exists_of_mem_take hp
      exact Nat.lt_of_lt_of_le (hw.range i hl).2.1 (hw.end_le_start hi hj))
    (fun p hp => by
      obtain ⟨i, hi, hl, rfl⟩ := exists_of_mem_drop hp
      exact hw.end_le_start (by omega) hl)
    hc1 hc2 hr
  rwa [← hs0] at h

theorem intersect_eq {p r : Range} (h : max p.Start r.Start ≤ min p.End r.End) :
    p.intersect r = ⟨max p.Start r.Start, min p.End r.End⟩ := by
  have he := Range.intersect_end p r
  rw [show p.intersect r = ⟨(p.intersect r).Start, (p.intersect r).End⟩ from rfl,
    Range.intersect_start, he]
  congr 1
  omega

variable (F r s0) in
/-- The set `s`, with the pieces `applied` behind the frontier `c`: the keys of `r` before `c`
lie in segments of `s0`; the pieces are the parts in `r` of the segments of `s0` that meet
`[r.Start, c)`, in order, and end by `c`; they hold what `fn` made of the value `s0` gave there,
and every other key reads as in `s0`. -/
structure AppliedUpTo (s applied : List (Range × V)) (c : ℕ) : Prop where
  wellFormed : WellFormed F s
  covered : ∀ x, r.Start ≤ x → x < c → (lookup s0 x).isSome
  pieces_end : ∀ q ∈ applied, q.1.End ≤ c
  pieces : applied.map Prod.fst =
    (s0.filter fun p => p.1.Start < c ∧ r.Start < p.1.End).map fun p => p.1.intersect r
  readAt : ∀ (A : Type) (α : Range → V → ℕ → A), SplitKeeps F α → ∀ x,
    (¬(r.Start ≤ x ∧ x < c) → readAt α s x = readAt α s0 x) ∧
    ∀ q ∈ applied, q.1.contains x →
      readAt α s x = some (α q.1 (fn q.1 q.2) x) ∧ readAt α s0 x = some (α q.1 q.2 x)

variable (F r s0) in
/-- The loop of `ApplyContiguous` at the segment `seg` of `s`, which meets `r` and starts at the
frontier, with the segments from it on those of `s0` from some index on. -/
structure ApplyInv (s : List (Range × V)) (seg : ℕ) (applied : List (Range × V)) : Prop
    extends AppliedUpTo F r fn s0 s applied (segStart s seg) where
  lt_length : seg < s.length
  start_lt : segStart s seg < r.End
  lt_end : r.Start < segEnd s seg
  suffix : ∃ j, s.drop seg = s0.drop j

variable {fn} {applied : List (Range × V)} {s1 : List (Range × V)} {k : ℕ}

/-- One turn of the loop: `Isolate` cuts the piece at the frontier, `fn` takes it, and the
frontier moves to the piece's end; where the segment ends by `r.End`, nothing after it was cut. -/
theorem ApplyInv.turn (h : ApplyInv F r fn s0 s seg applied) (hw0 : WellFormed F s0)
    (hr : r.Start < r.End) (hres : isolate F s seg r = (s1, k)) :
    k < s1.length ∧ segRange s1 k = ⟨max (segStart s seg) r.Start, min (segEnd s seg) r.End⟩ ∧
      AppliedUpTo F r fn s0 (setValue s1 k (fn (segRange s1 k) (value s1 k)))
        (applied ++ [(segRange s1 k, value s1 k)]) (min (segEnd s seg) r.End) ∧
      (segEnd s seg ≤ r.End → s1.drop (k + 1) = s.drop (seg + 1)) := by
  obtain ⟨hR, hk1⟩ := segRange_isolate (F := F) h.lt_length hr h.lt_end h.start_lt
  have hw1 : WellFormed F (isolate F s seg r).1 := h.wellFormed.isolate
  have hd := drop_isolate_of_end_le (F := F) (r := r) h.lt_length
  have hsub := fun (A : Type) (α : Range → V → ℕ → A) (hk : SplitKeeps F α) x =>
    (readAt_isolate h.wellFormed hk : readAt α (isolate F s seg r).1 x = readAt α s x)
  rw [hres] at hR hk1 hw1 hd hsub
  dsimp only at hR hk1 hw1 hd hsub
  -- the original segment the piece comes from
  obtain ⟨j, hj⟩ := h.suffix
  rw [drop_eq_cons h.lt_length] at hj
  have hjl : j < s0.length := List.lt_length_of_drop hj.symm
  obtain ⟨ho1, ho2⟩ := segRange_of_drop hj.symm
  have hfe := (h.wellFormed.range seg h.lt_length).2.1
  have hsl := h.start_lt
  have hel := h.lt_end
  have hS : segStart s0 j = segStart s seg := by rw [segStart, ho1]; rfl
  have hE : segEnd s0 j = segEnd s seg := by rw [segEnd, ho1]; rfl
  refine ⟨hk1, hR, ⟨hw1.setValue, fun x hx1 hx2 => ?_, fun q hq => ?_, ?_, fun A α hk x => ?_⟩, hd⟩
  · -- covered: behind the old frontier, or in the original segment
    by_cases hx : x < segStart s seg
    · exact h.covered x hx1 hx
    · have hx' : segStart s0 j ≤ x ∧ x < segEnd s0 j := by
        rw [hS, hE]
        omega
      exact lookup_isSome_of_mem (mem_of_lt_length hjl) (Range.contains_iff.2 hx')
  · rcases List.mem_append.1 hq with hq | hq
    · exact Nat.le_trans (h.pieces_end q hq) (by omega)
    · rw [List.mem_singleton.1 hq, hR]
  · -- pieces: the filter grows by the original segment, whose part in `r` is the piece
    have hrun := hw0.filter_run (r := r) (c := min (segEnd s seg) r.End) hjl
      (by rw [hS]; omega) (by rw [hE]; omega) (by rw [hE]; exact h.lt_end)
    have hmax : max (segStart s seg) r.Start ≤ min (segEnd s seg) r.End := by omega
    rw [hS, ho1] at hrun
    rw [List.map_append, h.pieces, hrun, List.map_append, List.map_singleton, List.map_singleton, hR]
    exact congrArg (fun c => _ ++ [c]) (intersect_eq (p := segRange s seg) hmax).symm
  -- readings: the piece reads as `fn` made it, the rest as before
  have hsv := fun y => readAt_setValue (α := α) (x := y) (v := fn (segRange s1 k) (value s1 k)) hw1 hk1
  have hin : ∀ y, (segRange s1 k).contains y → readAt α s y = readAt α s0 y := fun y hy => by
    refine ((h.readAt A α hk y).1 fun hy' => ?_)
    rw [hR, Range.contains_iff] at hy
    dsimp only at hy
    omega
  refine ⟨fun hx => ?_, fun q hq hx => ?_⟩
  · have hxp : ¬(segRange s1 k).contains x := by
      rw [hR, Range.contains_iff]
      dsimp only
      omega
    rw [hsv x, if_neg hxp, hsub A α hk x]
    exact (h.readAt A α hk x).1 fun h' => hx ⟨h'.1, by omega⟩
  rcases List.mem_append.1 hq with hq | hq
  · have hxp : ¬(segRange s1 k).contains x := by
      have := h.pieces_end q hq
      rw [Range.contains_iff] at hx
      rw [hR, Range.contains_iff]
      dsimp only
      omega
    rw [hsv x, if_neg hxp, hsub A α hk x]
    exact (h.readAt A α hk x).2 q hq hx
  · rw [List.mem_singleton.1 hq] at hx ⊢
    rw [hsv x, if_pos hx, ← hin x hx, ← hsub A α hk x, readAt_of_contains hw1 hk1 hx]
    exact ⟨rfl, rfl⟩

variable (F r fn s0) in
/-- What `ApplyContiguous` leaves, with the frontier `c`: the pieces up to `c`, which is `r.End`
or else the first key of `r` that no segment of `s0` holds; the gap it returns holds `c` in the
new set, and there is none exactly when `c` is `r.End`. -/
structure Applied (s applied : List (Range × V)) (g : Option ℕ) (c : ℕ) : Prop
    extends AppliedUpTo F r fn s0 s applied c where
  start_le : r.Start ≤ c
  le_end : c ≤ r.End
  stops : c < r.End → (lookup s0 c).isSome = false
  terminal : g = none ↔ c = r.End
  in_gap : ∀ gap, g = some gap → gap ≤ s.length ∧ gapStart s F gap ≤ c ∧ c < gapEnd s F gap

/-- No segment holds a key of a gap. -/
theorem lookup_isSome_of_gap {x gap : ℕ} (hw : WellFormed F s) (hg : gap ≤ s.length)
    (hx : gapStart s F gap ≤ x ∧ x < gapEnd s F gap) : (lookup s x).isSome = false := by
  rw [← isSome_readAt_const (), readAt_of_gap hw hg hx]
  rfl

/-- The frontier, in a gap of the new set, is a key that the original set does not cover
either, read through `AppliedUpTo.readAt`. -/
theorem AppliedUpTo.lookup_eq_none (h : AppliedUpTo F r fn s0 s applied c) (gap : ℕ)
    (hg : gap ≤ s.length) (hc : gapStart s F gap ≤ c ∧ c < gapEnd s F gap) :
    (lookup s0 c).isSome = false := by
  have hk : SplitKeeps F fun (_ : Range) (_ : V) (_ : ℕ) => () := (keepsAt_const (F := F) ()).split
  rw [← isSome_readAt_const (), ← (h.readAt Unit _ hk c).1 (by omega), isSome_readAt_const]
  exact lookup_isSome_of_gap h.wellFormed hg hc

/-- The loop of `ApplyContiguous`, from a segment that meets `r` at the frontier, returns the
pieces of the run of adjacent segments from it, and the gap that ends the run. Each turn is
`ApplyInv.turn`; the loop then returns at `r.End` or at a gap that is not empty, or goes on to
the next segment, which starts where the piece ended; the last segment of the set cannot end
before `r.End`, which is at most `MaxKey`. -/
theorem applyContiguousLoop_spec (hw0 : WellFormed F s0) (hr : r.Start < r.End)
    (hmax : r.End ≤ F.maxKey) :
    ∀ (fuel : ℕ) (s : List (Range × V)) (seg : ℕ) (applied : List (Range × V)),
      ApplyInv F r fn s0 s seg applied → pendingBefore r.End (s.drop seg) < fuel →
      ∃ s' applied' g c, applyContiguousLoop F r fn fuel s seg applied = .ok (s', applied', g) ∧
        Applied F r fn s0 s' applied' g c
  | 0, _, _, _, _, hp => absurd hp (Nat.not_lt_zero _)
  | fuel + 1, s, seg, applied, h, hp => by
    rw [applyContiguousLoop]
    generalize hres : isolate F s seg r = res
    obtain ⟨s1, k⟩ := res
    obtain ⟨hk1, hR, hup, hd⟩ := h.turn hw0 hr hres
    have hsl := h.start_lt
    have hel := h.lt_end
    have hfe := (h.wellFormed.range seg h.lt_length).2.1
    have hend : segEnd s1 k = min (segEnd s seg) r.End := by rw [segEnd, hR]
    dsimp only
    generalize hs2 : setValue s1 k (fn (segRange s1 k) (value s1 k)) = s2 at hup
    have hl2 : s2.length = s1.length := by rw [← hs2, length_setValue]
    have he2 : segEnd s2 k = min (segEnd s seg) r.End := by rw [← hs2, segEnd_setValue, hend]
    by_cases h1 : r.End ≤ segEnd s2 k
    · -- the piece reaches `r.End`: all of `r` is covered
      rw [if_pos h1]
      have hc : min (segEnd s seg) r.End = r.End := by omega
      rw [hc] at hup
      exact ⟨_, _, _, r.End, rfl, hup, Nat.le_of_lt hr, Nat.le_refl _, fun h => absurd h (Nat.lt_irrefl _),
        iff_of_true rfl rfl, fun _ h => absurd h (by simp)⟩
    rw [if_neg h1]
    have hlt : segEnd s seg < r.End := by omega
    rw [Nat.min_eq_left (Nat.le_of_lt hlt)] at hup he2
    have hgs : gapStart s2 F (k + 1) = segEnd s seg := by
      rw [gapStart_of_pos (by omega : 0 < k + 1), Nat.add_sub_cancel, he2]
    by_cases h2 : (gapRange s2 F (k + 1)).length ≠ 0
    · -- a gap that is not empty ends the run, at the frontier
      rw [if_pos h2]
      have hg : k + 1 ≤ s2.length := by omega
      have hge : segEnd s seg < gapEnd s2 F (k + 1) := by
        simp only [gapRange, Range.length, hgs] at h2
        omega
      refine ⟨_, _, _, segEnd s seg, rfl, hup, by omega, Nat.le_of_lt hlt,
        fun _ => hup.lookup_eq_none (k + 1) hg ⟨Nat.le_of_eq hgs, hge⟩, iff_of_false (by simp) (by omega),
        fun gap hgap => ?_⟩
      obtain rfl : k + 1 = gap := Option.some.inj hgap
      exact ⟨hg, Nat.le_of_eq hgs, hge⟩
    rw [if_neg h2]
    have hz : gapEnd s2 F (k + 1) ≤ segEnd s seg := by
      simp only [gapRange, Range.length, hgs, ne_eq, Decidable.not_not] at h2
      omega
    by_cases h3 : k + 1 < s2.length
    · -- an empty gap: the next segment starts at the frontier and goes on the run
      rw [if_pos h3]
      have hst : segStart s2 (k + 1) = segEnd s seg := by
        have := hup.wellFormed.sorted k h3
        rw [gapEnd_of_lt h3] at hz
        omega
      have hsuf : s2.drop (k + 1) = s.drop (seg + 1) := by
        rw [← hs2, drop_setValue_of_lt (Nat.lt_succ_self k), hd (Nat.le_of_lt hlt)]
      have hp' : pendingBefore r.End (s2.drop (k + 1)) < fuel := by
        rw [drop_eq_cons h.lt_length,
          pendingBefore_cons_of_lt (show (segRange s seg, value s seg).1.Start < r.End from hsl)] at hp
        rw [hsuf]
        omega
      have hfe2 := (hup.wellFormed.range (k + 1) h3).2.1
      refine applyContiguousLoop_spec hw0 hr hmax fuel s2 (k + 1) _
        ⟨hst ▸ hup, h3, by omega, by omega, ?_⟩ hp'
      obtain ⟨j, hj⟩ := h.suffix
      exact ⟨j + 1, by rw [hsuf, ← List.drop_drop, hj, List.drop_drop]⟩
    -- the last segment ended before `r.End`, at `MaxKey`: it cannot
    rw [gapEnd_of_le (by omega)] at hz
    omega

/-- Before any turn, the frontier `c` at or before `r.Start`, when the segments that start
before it end by `r.Start`. -/
theorem AppliedUpTo.nil (hw : WellFormed F s) (hc : c ≤ r.Start)
    (hf : ∀ p ∈ s, p.1.Start < c → p.1.End ≤ r.Start) : AppliedUpTo F r fn s s [] c := by
  refine ⟨hw, fun x h1 h2 => absurd h2 (by omega), fun q hq => absurd hq List.not_mem_nil, ?_,
    fun A α _ x => ⟨fun _ => rfl, fun q hq => absurd hq List.not_mem_nil⟩⟩
  have hnil : s.filter (fun p => p.1.Start < c ∧ r.Start < p.1.End) = [] :=
    List.filter_eq_nil_iff.2 fun p hp => by
      have := hf p hp
      simp only [decide_eq_true_eq, not_and, not_lt]
      exact this
  rw [hnil]
  rfl

/-- A segment that holds `r.Start` starts the loop. -/
theorem ApplyInv.start (hw : WellFormed F s) (hseg : seg < s.length) (h1 : segStart s seg ≤ r.Start)
    (h2 : r.Start < segEnd s seg) (hr : r.Start < r.End) : ApplyInv F r fn s s seg [] := by
  refine ⟨AppliedUpTo.nil hw h1 fun p hp hlt => ?_, hseg, by omega, h2, seg, rfl⟩
  -- a segment that starts before `seg` comes before it, so it ends by `seg`'s start
  obtain ⟨i, hi, rfl⟩ := List.mem_iff_getElem.1 hp
  rw [getElem_eq hi] at hlt ⊢
  have hlt' : i < seg := Nat.lt_of_not_le fun h => absurd (hw.segStart_le_segStart h hi) (by
    simp only [segStart] at hlt ⊢
    omega)
  exact Nat.le_trans (hw.end_le_start hlt' hseg) h1

/-- Where `r.Start` lies in a gap, `ApplyContiguous` applies `fn` to nothing and returns that
gap. -/
theorem Applied.of_gap (hw : WellFormed F s) (hg : gap ≤ s.length)
    (h1 : gapStart s F gap ≤ r.Start) (h2 : r.Start < gapEnd s F gap) (hr : r.Start < r.End) :
    Applied F r fn s s [] (some gap) r.Start := by
  have hnone : (lookup s r.Start).isSome = false := lookup_isSome_of_gap hw hg ⟨h1, h2⟩
  -- a segment that starts before `r.Start` and ends after it would hold it
  have hup : AppliedUpTo F r fn s s [] r.Start := AppliedUpTo.nil hw (Nat.le_refl _) fun p hp hlt =>
    Nat.le_of_not_lt fun hgt => by
      have := lookup_isSome_of_mem hp (Range.contains_iff.2 ⟨Nat.le_of_lt hlt, hgt⟩)
      rw [hnone] at this
      exact Bool.false_ne_true this
  exact ⟨hup, Nat.le_refl _, Nat.le_of_lt hr, fun _ => hnone, iff_of_false (by simp) (by omega),
    fun _ h => Option.some.inj h ▸ ⟨hg, h1, h2⟩⟩

/-- The gap that `ApplyContiguous` returns is terminal exactly when the set covers all of `r`. -/
theorem Applied.terminal_iff_covered {g : Option ℕ} (h : Applied F r fn s0 s applied g c) :
    g = none ↔ ∀ x, r.contains x → (lookup s0 x).isSome := by
  rw [h.terminal]
  constructor
  · rintro rfl x hx
    rw [Range.contains_iff] at hx
    exact h.covered x hx.1 hx.2
  · intro hcov
    refine Nat.le_antisymm h.le_end (Nat.le_of_not_lt fun hlt => ?_)
    have := hcov c (Range.contains_iff.2 ⟨h.start_le, hlt⟩)
    rw [h.stops hlt] at this
    exact Bool.false_ne_true this

/-- `ApplyContiguous` of a non-empty range of keys applies `fn` once to each part in `r` of the
segments of the run of adjacent segments from `r.Start`, in order, and returns the gap that ends
the run, which holds the first key of `r` that the set does not cover; it returns no gap exactly
when the set covers all of `r`. -/
theorem applyContiguous_spec (hw : WellFormed F s) (hmin : F.minKey ≤ r.Start) (hr : r.Start < r.End)
    (hmax : r.End ≤ F.maxKey) (fn : Range → V → V) :
    ∃ s' applied g c, applyContiguous F r fn s = .ok (s', applied, g) ∧
      Applied F r fn s s' applied g c ∧ (g = none ↔ ∀ x, r.contains x → (lookup s x).isSome) := by
  rcases find_cases (s := s) hmin (Nat.lt_of_lt_of_le hr hmax) with
    ⟨seg, hf, hseg, h1, h2⟩ | ⟨gap, hf, hg, h1, h2⟩
  · -- `r.Start` lies in a segment: the loop starts from it
    obtain ⟨s', applied, g, c, h, happ⟩ := applyContiguousLoop_spec hw hr hmax (s.length + 1) s seg []
      (ApplyInv.start hw hseg h1 h2 hr) pendingBefore_drop_lt_succ
    refine ⟨s', applied, g, c, ?_, happ, happ.terminal_iff_covered⟩
    rw [applyContiguous, hf]
    dsimp only
    rw [if_pos hseg, h]
  · -- `r.Start` lies in a gap, which is returned
    have happ : Applied F r fn s s [] (some gap) r.Start := Applied.of_gap hw hg h1 h2 hr
    refine ⟨s, [], some gap, r.Start, ?_, happ, happ.terminal_iff_covered⟩
    rw [applyContiguous, hf]
    dsimp only
    rw [if_neg (Nat.lt_irrefl _)]

theorem applyContiguous_spec_uncovered :
    ∃ s' applied g, applyContiguous (⟨0, 100, fun _ _ _ _ => none, fun _ v _ => (v, v)⟩ : Functions Unit)
        ⟨3, 7⟩ (fun _ v => v) [(⟨2, 5⟩, ())] = .ok (s', applied, g) ∧ g ≠ none := by
  obtain ⟨s', applied, g, -, h, -, hg⟩ := applyContiguous_spec
    (F := (⟨0, 100, fun _ _ _ _ => none, fun _ v _ => (v, v)⟩ : Functions Unit)) (s := [(⟨2, 5⟩, ())])
    (r := ⟨3, 7⟩) ⟨by decide, fun _ hi => absurd hi (by simp)⟩ (by decide) (by decide) (by decide)
    (fun _ v => v)
  refine ⟨s', applied, g, h, fun hn => ?_⟩
  exact absurd (hg.1 hn 5 (by decide)) (by decide)

/-- For the empty range `[5, 5)` in the empty set, `ApplyContiguous` returns a gap that is not
terminal, although no key of the range is uncovered; and inside the segment `[2, 8)` it cuts the
segment at `5` and applies `fn` to `[5, 8)`, which is not part of the range. -/
theorem applyContiguous_empty_range :
    applyContiguous (⟨0, 100, fun _ _ _ _ => none, fun _ v _ => (v, v)⟩ : Functions Unit) ⟨5, 5⟩
        (fun _ v => v) [] = .ok ([], [], some 0) ∧
      (∀ x, (⟨5, 5⟩ : Range).contains x → (lookup ([] : List (Range × Unit)) x).isSome) ∧
      applyContiguous (⟨0, 100, fun _ _ _ _ => none, fun _ v _ => (v, v)⟩ : Functions Unit) ⟨5, 5⟩
        (fun _ v => v) [(⟨2, 8⟩, ())] = .ok ([(⟨2, 5⟩, ()), (⟨5, 8⟩, ())], [(⟨5, 8⟩, ())], none) ∧
      (⟨5, 5⟩ : Range).isSupersetOf ⟨5, 8⟩ = false := by
  refine ⟨rfl, fun x hx => ?_, rfl, rfl⟩
  rw [Range.contains_iff] at hx
  exact absurd (Nat.lt_of_le_of_lt hx.1 hx.2) (Nat.lt_irrefl 5)

end Segment
