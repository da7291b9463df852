import Mathlib
import Gvisor.Tcp.Scoreboard
import Gvisor.Lib.HalfOpen

/-! The SACK blocks a TCP receiver reports to its peer
(pkg/tcpip/transport/tcp/sack.go). `UpdateSACKBlocks` puts the range of an
arriving segment at the front of the list, merged with every block it
overlaps or touches; `TrimSACKBlockList` forgets what lies before `rcvNxt`.
`SACKInfo` holds its `NumBlocks` blocks in the first entries of a fixed array;
here they are a list, `NumBlocks` its length.

Within `2^31` past `rcvNxt` sequence numbers compare as their distances from
`rcvNxt`, and there the blocks are half-open intervals of naturals
(`HalfOpen`). Blocks that start after `rcvNxt` and lie apart stay so, and the
union grows by the segment, less the block a full list drops. A block that
starts at `rcvNxt` itself, which a trim leaves behind when `rcvNxt` falls
inside a block, is merged and then lost with the segment
(`updateSACKBlocks_loses_merged_block`). -/

namespace Tcp

open SeqNum HalfOpen

/-- `MaxSACKBlocks`, the blocks the receiver keeps. -/
def MaxSACKBlocks : ℕ := 6

/-- `header.SACKInfo`. -/
structure SACKInfo where
  blocks : List SACKBlock
  deriving DecidableEq, Repr

/-- A turn of the loop of `UpdateSACKBlocks`: a block before `rcvNxt` is
dropped, one that overlaps or touches the new block is merged into it, and
the others are saved in order. -/
def updateStep (rcvNxt : Value) (st : SACKBlock × List SACKBlock) (b : SACKBlock) :
    SACKBlock × List SACKBlock :=
  let (newSB, saved) := st
  if b.End.lessThanEq rcvNxt then (newSB, saved)
  else if newSB.Start.lessThanEq b.End && b.Start.lessThanEq newSB.End then
    let newSB := if b.Start.lessThan newSB.Start then { newSB with Start := b.Start } else newSB
    let newSB := if newSB.End.lessThan b.End then { newSB with End := b.End } else newSB
    (newSB, saved)
  else (newSB, saved ++ [b])

/-- `UpdateSACKBlocks`. -/
def updateSACKBlocks (sack : SACKInfo) (segStart segEnd rcvNxt : Value) : SACKInfo :=
  let newSB : SACKBlock := ⟨segStart, segEnd⟩
  if newSB.End.lessThanEq newSB.Start || newSB.End.lessThan rcvNxt then sack
  else if sack.blocks.length = 0 then ⟨[newSB]⟩
  else
    let (newSB, saved) := sack.blocks.foldl (updateStep rcvNxt) (newSB, [])
    if rcvNxt.lessThan newSB.Start then
      -- a full list loses its last block to make room at the front
      let saved := if saved.length = MaxSACKBlocks then saved.dropLast else saved
      ⟨newSB :: saved⟩
    else ⟨saved⟩

/-- A turn of `TrimSACKBlockList`: a block before `rcvNxt` goes, and one that
holds it is shrunk to start there. -/
def trimBlock (rcvNxt : Value) (b : SACKBlock) : Option SACKBlock :=
  if b.End.lessThanEq rcvNxt then none
  else some (if b.Start.lessThan rcvNxt then { b with Start := rcvNxt } else b)

/-- `TrimSACKBlockList`. -/
def trimSACKBlockList (sack : SACKInfo) (rcvNxt : Value) : SACKInfo :=
  ⟨sack.blocks.filterMap (trimBlock rcvNxt)⟩

/-- The sequence numbers the blocks report. -/
def Covered (blocks : List SACKBlock) (v : Value) : Prop :=
  ∃ b ∈ blocks, v.inRange b.Start b.End = true

/-- The blocks as the receiver keeps them: at most `MaxSACKBlocks`, each
nonempty and lying within `2^31` past `rcvNxt`, each pair apart (disjoint,
and not adjacent). -/
structure WellFormed (rcvNxt : Value) (blocks : List SACKBlock) : Prop where
  length_le : blocks.length ≤ MaxSACKBlocks
  nonempty : ∀ b ∈ blocks, b.Start.lessThan b.End = true
  within : ∀ b ∈ blocks, (rcvNxt.size b.Start).toNat < 2 ^ 31 ∧ (rcvNxt.size b.End).toNat < 2 ^ 31
  apart : blocks.Pairwise fun a b => a.End.lessThan b.Start = true ∨ b.End.lessThan a.Start = true

/-- A block that starts at `rcvNxt`, well formed, and a segment that starts
after `rcvNxt` and touches it: the two are merged into a block that starts at
`rcvNxt`, which is then not put back, and the list is left empty. And a trim
at a `rcvNxt` more than `2^31` on removes a block whose first numbers do not
come before it. -/
theorem updateSACKBlocks_loses_merged_block :
    WellFormed 0 [⟨0, 5⟩] ∧ (0 : Value).lessThan 5 = true ∧ (5 : Value).lessThan 10 = true ∧
      updateSACKBlocks ⟨[⟨0, 5⟩]⟩ 5 10 0 = ⟨[]⟩ ∧
      trimSACKBlockList ⟨[⟨10, 20⟩]⟩ (2 ^ 31 + 15) = ⟨[]⟩ ∧
      (10 : Value).lessThan (2 ^ 31 + 15) = false := by
  refine ⟨⟨by decide, by decide, by decide, by decide⟩, by decide, by decide, by decide, by decide,
    by decide⟩

namespace SACKBlock

/-- The distances of the block's ends from `rcvNxt`. -/
def ival (rcvNxt : Value) (b : SACKBlock) : ℕ × ℕ :=
  ((rcvNxt.size b.Start).toNat, (rcvNxt.size b.End).toNat)

/-- The block is nonempty and lies within `2^31` past `rcvNxt`. -/
def Fits (rcvNxt : Value) (b : SACKBlock) : Prop :=
  (b.ival rcvNxt).1 < (b.ival rcvNxt).2 ∧ (b.ival rcvNxt).2 < 2 ^ 31

end SACKBlock

section Distances

variable {rcvNxt : Value} {a b : SACKBlock} {blocks : List SACKBlock} {v : Value}

theorem toNat_size_self (v : Value) : (v.size v).toNat = 0 := by
  simp [Value.size]

theorem WellFormed.fits (h : WellFormed rcvNxt blocks) (hb : b ∈ blocks) : b.Fits rcvNxt :=
  ⟨(Value.lessThan_iff_size_lt rcvNxt (h.within b hb).1 (h.within b hb).2).1 (h.nonempty b hb),
    (h.within b hb).2⟩

theorem SACKBlock.Fits.start_lt (hb : b.Fits rcvNxt) : (b.ival rcvNxt).1 < 2 ^ 31 :=
  hb.1.trans hb.2

theorem SACKBlock.Fits.inRange_iff (hb : b.Fits rcvNxt) :
    v.inRange b.Start b.End = true ↔ Covers (b.ival rcvNxt) (rcvNxt.size v).toNat :=
  Value.inRange_iff_size rcvNxt hb.1.le hb.2

/-- Blocks within `2^31` past `rcvNxt` are apart as their intervals of
distances are. -/
theorem apart_iff (ha : a.Fits rcvNxt) (hb : b.Fits rcvNxt) :
    (a.End.lessThan b.Start = true ∨ b.End.lessThan a.Start = true) ↔
      Apart (a.ival rcvNxt) (b.ival rcvNxt) := by
  rw [Value.lessThan_iff_size_lt rcvNxt ha.2 hb.start_lt,
    Value.lessThan_iff_size_lt rcvNxt hb.2 ha.start_lt]
  rfl

theorem covered_iff (hl : ∀ b ∈ blocks, b.Fits rcvNxt) :
    Covered blocks v ↔ ∃ b ∈ blocks, Covers (b.ival rcvNxt) (rcvNxt.size v).toNat := by
  constructor
  · rintro ⟨b, hb, hv⟩
    exact ⟨b, hb, ((hl b hb).inRange_iff).1 hv⟩
  · rintro ⟨b, hb, hv⟩
    exact ⟨b, hb, ((hl b hb).inRange_iff).2 hv⟩

theorem lessThan_start_iff (hb : b.Fits rcvNxt) :
    rcvNxt.lessThan b.Start = true ↔ 0 < (b.ival rcvNxt).1 := by
  have h := Value.lessThan_iff_size_lt rcvNxt
    (show (rcvNxt.size rcvNxt).toNat < 2 ^ 31 by rw [toNat_size_self]; decide) hb.start_lt
  rwa [toNat_size_self] at h

/-- Blocks that fit, lie apart and are few enough are well formed. -/
theorem wellFormed_of_fits (hlen : blocks.length ≤ MaxSACKBlocks)
    (hf : ∀ c ∈ blocks, c.Fits rcvNxt)
    (hp : blocks.Pairwise fun a b => Apart (a.ival rcvNxt) (b.ival rcvNxt)) :
    WellFormed rcvNxt blocks where
  length_le := hlen
  nonempty c hc := (Value.lessThan_iff_size_lt rcvNxt (hf c hc).start_lt (hf c hc).2).2 (hf c hc).1
  within c hc := ⟨(hf c hc).start_lt, (hf c hc).2⟩
  apart := hp.imp_of_mem fun ha hb hab => (apart_iff (hf _ ha) (hf _ hb)).2 hab

end Distances

section Update

variable {rcvNxt : Value} {newSB b : SACKBlock} {saved : List SACKBlock}

theorem end_lessThanEq_rcvNxt (hb : b.Fits rcvNxt) : b.End.lessThanEq rcvNxt = false := by
  have h := Value.lessThanEq_iff_size_le rcvNxt hb.2
    (show (rcvNxt.size rcvNxt).toNat < 2 ^ 31 by rw [toNat_size_self]; decide)
  rw [toNat_size_self] at h
  have := hb.1
  simp only [SACKBlock.ival] at this
  cases hE : b.End.lessThanEq rcvNxt
  · rfl
  · exact absurd (h.1 hE) (by omega)

/-- The test of a turn that merges: the blocks touch, that is, do not lie
apart. -/
theorem touch_iff (hn : newSB.Fits rcvNxt) (hb : b.Fits rcvNxt) :
    (newSB.Start.lessThanEq b.End && b.Start.lessThanEq newSB.End) = true ↔
      ¬Apart (newSB.ival rcvNxt) (b.ival rcvNxt) := by
  rw [Bool.and_eq_true, Value.lessThanEq_iff_size_le rcvNxt hn.start_lt hb.2,
    Value.lessThanEq_iff_size_le rcvNxt hb.start_lt hn.2]
  simp only [Apart, SACKBlock.ival]
  omega

theorem updateStep_of_apart (hn : newSB.Fits rcvNxt) (hb : b.Fits rcvNxt)
    (h : Apart (newSB.ival rcvNxt) (b.ival rcvNxt)) :
    updateStep rcvNxt (newSB, saved) b = (newSB, saved ++ [b]) := by
  have ht : (newSB.Start.lessThanEq b.End && b.Start.lessThanEq newSB.End) = false := by
    cases hc : (newSB.Start.lessThanEq b.End && b.Start.lessThanEq newSB.End)
    · rfl
    · exact absurd h ((touch_iff hn hb).1 hc)
  simp only [updateStep, end_lessThanEq_rcvNxt hb, ht, Bool.false_eq_true, ↓reduceIte]

/-- A turn that merges keeps the saved blocks and makes the new block the hull
of the two. -/
theorem updateStep_of_not_apart (saved : List SACKBlock) (hn : newSB.Fits rcvNxt)
    (hb : b.Fits rcvNxt) (h : ¬Apart (newSB.ival rcvNxt) (b.ival rcvNxt)) :
    (updateStep rcvNxt (newSB, saved) b).2 = saved ∧
      (updateStep rcvNxt (newSB, saved) b).1.ival rcvNxt =
        hull (newSB.ival rcvNxt) (b.ival rcvNxt) := by
  have hlo := Value.lessThan_iff_size_lt rcvNxt hb.start_lt hn.start_lt
  have hhi := Value.lessThan_iff_size_lt rcvNxt hn.2 hb.2
  simp only [updateStep, end_lessThanEq_rcvNxt hb, (touch_iff hn hb).2 h, Bool.false_eq_true,
    ↓reduceIte, true_and]
  by_cases h1 : b.Start.lessThan newSB.Start = true <;>
    by_cases h2 : newSB.End.lessThan b.End = true <;>
    simp only [h1, h2, Bool.false_eq_true, ↓reduceIte] <;>
    rw [hlo] at h1 <;> rw [hhi] at h2 <;>
    simp only [SACKBlock.ival, hull, Prod.mk.injEq] <;>
    omega

end Update

/-- What the loop of `UpdateSACKBlocks` keeps, with `rest` the blocks still
to come, over distances from `rcvNxt`: the saved and the coming blocks are
blocks of the list in order, the new block holds the segment, starts after
`rcvNxt` and lies apart from every saved block, and the new, saved and coming
blocks cover the segment and the list. -/
structure UpdateInv (rcvNxt : Value) (seg : ℕ × ℕ) (orig : List SACKBlock) (newSB : SACKBlock)
    (saved rest : List SACKBlock) : Prop where
  sublist : (saved ++ rest).Sublist orig
  fits : newSB.Fits rcvNxt
  after : 0 < (newSB.ival rcvNxt).1
  holds_seg : (newSB.ival rcvNxt).1 ≤ seg.1 ∧ seg.2 ≤ (newSB.ival rcvNxt).2
  apart_saved : ∀ c ∈ saved, Apart (newSB.ival rcvNxt) (c.ival rcvNxt)
  covers : ∀ x, (Covers (newSB.ival rcvNxt) x ∨ ∃ c ∈ saved ++ rest, Covers (c.ival rcvNxt) x) ↔
    (Covers seg x ∨ ∃ c ∈ orig, Covers (c.ival rcvNxt) x)

section Loop

variable {rcvNxt : Value} {seg : ℕ × ℕ} {orig : List SACKBlock}
variable (horig : ∀ c ∈ orig, c.Fits rcvNxt ∧ 0 < (c.ival rcvNxt).1)
variable (hpw : orig.Pairwise fun a b => Apart (a.ival rcvNxt) (b.ival rcvNxt))
include horig hpw

/-- A turn of the loop keeps `UpdateInv`: a block apart from the new one is
saved, and one that touches it is merged, the hull staying apart from the
saved blocks since each of them is apart from both. -/
theorem UpdateInv.step {newSB b : SACKBlock} {saved rest : List SACKBlock}
    (h : UpdateInv rcvNxt seg orig newSB saved (b :: rest)) :
    UpdateInv rcvNxt seg orig (updateStep rcvNxt (newSB, saved) b).1
      (updateStep rcvNxt (newSB, saved) b).2 rest := by
  obtain ⟨hb, hb0⟩ := horig b (h.sublist.subset (by simp))
  by_cases hap : Apart (newSB.ival rcvNxt) (b.ival rcvNxt)
  · rw [updateStep_of_apart h.fits hb hap]
    refine ⟨by simpa using h.sublist, h.fits, h.after, h.holds_seg, ?_, ?_⟩
    · intro c hc
      rcases List.mem_append.1 hc with hc | hc
      · exact h.apart_saved c hc
      · rw [List.mem_singleton.1 hc]
        exact hap
    · intro x
      rw [← h.covers x]
      simp only [List.append_assoc, List.singleton_append]
  · obtain ⟨hs, hm⟩ := updateStep_of_not_apart saved h.fits hb hap
    have hpair := List.pairwise_append.1 (hpw.sublist h.sublist)
    have hf := h.fits
    have ha := h.after
    have hsg := h.holds_seg
    simp only [SACKBlock.Fits] at hf hb
    refine ⟨?_, ?_, ?_, ?_, ?_, ?_⟩
    · rw [hs]
      exact ((List.sublist_cons_self b rest).append_left saved).trans h.sublist
    · simp only [SACKBlock.Fits, hm, hull]
      omega
    · simp only [hm, hull]
      omega
    · simp only [hm, hull]
      omega
    · rw [hs, hm]
      intro c hc
      exact (Apart.hull (horig c (h.sublist.subset (List.mem_append_left _ hc))).1.1
        (h.apart_saved c hc).symm (hpair.2.2 c hc b List.mem_cons_self) hap).symm
    · intro x
      rw [hs, hm, covers_hull hap, ← h.covers x]
      simp only [List.mem_append, List.mem_cons]
      grind

/-- The loop keeps `UpdateInv` to its end. -/
theorem UpdateInv.foldl : ∀ {rest : List SACKBlock} {newSB : SACKBlock} {saved : List SACKBlock},
    UpdateInv rcvNxt seg orig newSB saved rest →
      UpdateInv rcvNxt seg orig (rest.foldl (updateStep rcvNxt) (newSB, saved)).1
        (rest.foldl (updateStep rcvNxt) (newSB, saved)).2 []
  | [], _, _, h => h
  | _ :: _, _, _, h => by
    rw [List.foldl_cons]
    exact UpdateInv.foldl (h.step horig hpw)

/-- The end of the loop: the new block starts after `rcvNxt`, and put at the
front of the saved blocks, less the last one when they fill the list, it
makes a well-formed list whose first block holds the segment, and which
covers the segment and the old blocks except for the one dropped. -/
theorem UpdateInv.result {m : SACKBlock} {saved : List SACKBlock}
    (h : UpdateInv rcvNxt seg orig m saved []) (hlen : orig.length ≤ MaxSACKBlocks) :
    WellFormed rcvNxt (m :: if saved.length = MaxSACKBlocks then saved.dropLast else saved) ∧
      (∀ c ∈ (m :: if saved.length = MaxSACKBlocks then saved.dropLast else saved),
        0 < (c.ival rcvNxt).1) ∧
      ∃ dropped : List SACKBlock, dropped.Sublist orig ∧ dropped.length ≤ 1 ∧
        (dropped ≠ [] → orig.length = MaxSACKBlocks) ∧
        ∀ x, (Covers (m.ival rcvNxt) x ∨
            ∃ c ∈ (if saved.length = MaxSACKBlocks then saved.dropLast else saved),
              Covers (c.ival rcvNxt) x) ↔
          (Covers seg x ∨ ∃ c ∈ orig, Covers (c.ival rcvNxt) x) ∧
            ¬∃ d ∈ dropped, Covers (d.ival rcvNxt) x := by
  set saved' := if saved.length = MaxSACKBlocks then saved.dropLast else saved with hsaved'
  have hsl : saved.Sublist orig := by simpa using h.sublist
  have hcov : ∀ x, (Covers (m.ival rcvNxt) x ∨ ∃ c ∈ saved, Covers (c.ival rcvNxt) x) ↔
      (Covers seg x ∨ ∃ c ∈ orig, Covers (c.ival rcvNxt) x) := fun x => by
    simpa using h.covers x
  have hlen' : saved.length ≤ MaxSACKBlocks := hsl.length_le.trans hlen
  -- the kept blocks are the first of the saved ones, the dropped one the rest
  have htake : saved' = saved.take saved'.length := by
    rw [hsaved']
    split_ifs
    · rw [List.dropLast_eq_take, List.length_take, Nat.min_eq_left (Nat.sub_le _ _)]
    · exact (List.take_length).symm
  have hsplit : saved' ++ saved.drop saved'.length = saved := by
    have h := List.take_append_drop saved'.length saved
    rwa [← htake] at h
  have hdlen : (saved.drop saved'.length).length ≤ 1 := by
    rw [List.length_drop, hsaved']
    split_ifs
    · rw [List.length_dropLast]
      omega
    · omega
  have hdsub : (saved.drop saved'.length).Sublist orig := (List.drop_sublist _ _).trans hsl
  have hdfull : saved.drop saved'.length ≠ [] → orig.length = MaxSACKBlocks := by
    intro hne
    have hfull : saved.length = MaxSACKBlocks := by
      by_contra hnot
      rw [hsaved', if_neg hnot, List.drop_length] at hne
      exact hne rfl
    have := hsl.length_le
    omega
  generalize saved.drop saved'.length = dropped at hsplit hdlen hdsub hdfull
  have hkeep : saved'.length ≤ MaxSACKBlocks - 1 := by
    rw [hsaved']
    split_ifs with hfull
    · rw [List.length_dropLast, hfull]
    · unfold MaxSACKBlocks at *
      omega
  have hpair := hpw.sublist hsl
  rw [← hsplit] at hpair
  have hpair' := List.pairwise_append.1 hpair
  have hfits : ∀ c ∈ saved, c.Fits rcvNxt ∧ 0 < (c.ival rcvNxt).1 :=
    fun c hc => horig c (hsl.subset hc)
  have hkept : ∀ c ∈ saved', c ∈ saved := fun c hc => hsplit ▸ List.mem_append_left _ hc
  refine ⟨wellFormed_of_fits ?_ ?_ ?_, ?_, dropped, hdsub, hdlen, hdfull, ?_⟩
  · rw [List.length_cons]
    unfold MaxSACKBlocks at *
    omega
  · intro c hc
    rcases List.mem_cons.1 hc with rfl | hc
    · exact h.fits
    · exact (hfits c (hkept c hc)).1
  · exact List.pairwise_cons.2 ⟨fun c hc => h.apart_saved c (hkept c hc), hpair'.1⟩
  · intro c hc
    rcases List.mem_cons.1 hc with rfl | hc
    · exact h.after
    · exact (hfits c (hkept c hc)).2
  · intro x
    have hcx := hcov x
    rw [← hsplit] at hcx
    simp only [List.mem_append] at hcx
    rw [← hcx]
    -- a dropped block is apart from the new block and from every kept one
    have hd : ∀ d ∈ dropped, Covers (d.ival rcvNxt) x →
        ¬Covers (m.ival rcvNxt) x ∧ ∀ c ∈ saved', ¬Covers (c.ival rcvNxt) x := by
      intro d hd hdx
      have hds : d ∈ saved := hsplit ▸ List.mem_append_right _ hd
      refine ⟨fun hm => (h.apart_saved d hds).not_covers hm hdx, fun c hc hcx => ?_⟩
      exact (hpair'.2.2 c hc d hd).not_covers hcx hdx
    constructor
    · rintro (hm | ⟨c, hc, hcx⟩)
      · exact ⟨.inl hm, fun ⟨d, hd', hdx⟩ => (hd d hd' hdx).1 hm⟩
      · exact ⟨.inr ⟨c, .inl hc, hcx⟩, fun ⟨d, hd', hdx⟩ => (hd d hd' hdx).2 c hc hcx⟩
    · rintro ⟨hm | ⟨c, hc | hc, hcx⟩, hnd⟩
      · exact .inl hm
      · exact .inr ⟨c, hc, hcx⟩
      · exact absurd ⟨c, hc, hcx⟩ hnd

end Loop

section Trim

variable {rcvNxt rcvNxt' : Value} {b : SACKBlock}

/-- `trimBlock` at a `rcvNxt'` less than `2^31` past `rcvNxt`, over distances
from `rcvNxt`: a block ending by `rcvNxt'` goes, and any other is cut at it. -/
theorem trimBlock_cases (hb : b.Fits rcvNxt) (hd : (rcvNxt.size rcvNxt').toNat < 2 ^ 31) :
    (trimBlock rcvNxt' b = none ∧ (b.ival rcvNxt).2 ≤ (rcvNxt.size rcvNxt').toNat) ∨
      ∃ b', trimBlock rcvNxt' b = some b' ∧ (rcvNxt.size rcvNxt').toNat < (b.ival rcvNxt).2 ∧
        b'.ival rcvNxt = (max (b.ival rcvNxt).1 (rcvNxt.size rcvNxt').toNat, (b.ival rcvNxt).2) := by
  have hE := Value.lessThanEq_iff_size_le rcvNxt hb.2 hd
  have hS := Value.lessThan_iff_size_lt rcvNxt hb.start_lt hd
  unfold trimBlock
  by_cases he : b.End.lessThanEq rcvNxt' = true
  · exact .inl ⟨by simp [he], hE.1 he⟩
  · refine .inr ⟨if b.Start.lessThan rcvNxt' then { b with Start := rcvNxt' } else b,
      by simp [he], by rw [hE] at he; simp only [SACKBlock.ival]; omega, ?_⟩
    by_cases hs : b.Start.lessThan rcvNxt' = true
    · rw [hS] at hs
      simp only [(Value.lessThan_iff_size_lt rcvNxt hb.start_lt hd).2 hs, ↓reduceIte,
        SACKBlock.ival, Prod.mk.injEq, and_true]
      omega
    · rw [hS] at hs
      simp only [(iff_false_intro (mt hS.1 hs)), ↓reduceIte, SACKBlock.ival, Prod.mk.injEq,
        and_true]
      omega

/-- What is left of a block after the trim is what of it does not come before
`rcvNxt'`. -/
theorem trimBlock_covers (hb : b.Fits rcvNxt) (hd : (rcvNxt.size rcvNxt').toNat < 2 ^ 31)
    (v : Value) :
    (∃ b' ∈ trimBlock rcvNxt' b, v.inRange b'.Start b'.End = true) ↔
      v.inRange b.Start b.End = true ∧ v.lessThan rcvNxt' = false := by
  rw [hb.inRange_iff]
  rcases trimBlock_cases hb hd with ⟨hn, hle⟩ | ⟨b', hb', hlt, hiv⟩
  · simp only [hn, Option.mem_def, reduceCtorEq, false_and, exists_false, false_iff, not_and]
    intro hv
    have hv' : (rcvNxt.size v).toNat < (rcvNxt.size rcvNxt').toNat := by
      have := hv.2
      simp only [SACKBlock.ival] at this hle
      omega
    rw [(Value.lessThan_iff_size_lt rcvNxt (hv'.trans hd) hd).2 hv']
    decide
  · have hb'f : b'.Fits rcvNxt := by
      simp only [SACKBlock.Fits, hiv]
      have := hb.1
      have := hb.2
      omega
    simp only [hb', Option.mem_def, Option.some.injEq, exists_eq_left']
    rw [hb'f.inRange_iff, hiv, covers_cut]
    -- within the block, `v` is less than `2^31` past `rcvNxt`
    constructor
    · rintro ⟨hv, hdv⟩
      refine ⟨hv, ?_⟩
      have hv2 : (rcvNxt.size v).toNat < 2 ^ 31 := hv.2.trans hb.2
      cases h : v.lessThan rcvNxt'
      · rfl
      · exact absurd ((Value.lessThan_iff_size_lt rcvNxt hv2 hd).1 h) (Nat.not_lt.2 hdv)
    · rintro ⟨hv, hl⟩
      refine ⟨hv, Nat.not_lt.1 fun h => ?_⟩
      have hv2 : (rcvNxt.size v).toNat < 2 ^ 31 := hv.2.trans hb.2
      rw [(Value.lessThan_iff_size_lt rcvNxt hv2 hd).2 h] at hl
      exact Bool.noConfusion hl

/-- Trimming blocks within `2^31` past `rcvNxt` at a `rcvNxt'` less than `2^31`
on leaves what they covered that does not come before `rcvNxt'`. -/
theorem covered_filterMap_trimBlock {blocks : List SACKBlock} (hl : ∀ b ∈ blocks, b.Fits rcvNxt)
    (hd : (rcvNxt.size rcvNxt').toNat < 2 ^ 31) (v : Value) :
    Covered (blocks.filterMap (trimBlock rcvNxt')) v ↔
      Covered blocks v ∧ v.lessThan rcvNxt' = false := by
  simp only [Covered, List.mem_filterMap]
  constructor
  · rintro ⟨b', ⟨b, hb, hbb'⟩, hv⟩
    have hcut := (trimBlock_covers (hl b hb) hd v).1 ⟨b', hbb', hv⟩
    exact ⟨⟨b, hb, hcut.1⟩, hcut.2⟩
  · rintro ⟨⟨b, hb, hv⟩, hlt⟩
    obtain ⟨b', hbb', hv'⟩ := (trimBlock_covers (hl b hb) hd v).2 ⟨hv, hlt⟩
    exact ⟨b', ⟨b, hb, hbb'⟩, hv'⟩

end Trim

section Spec

variable {sack : SACKInfo} {segStart segEnd rcvNxt : Value}

/-- `UpdateSACKBlocks` on well-formed blocks that all start after `rcvNxt`,
for a segment that starts after `rcvNxt`, both within `2^31` past it: the
blocks are again well formed and start after `rcvNxt`, the first holds the
segment, and they cover the old blocks and the segment, less at most one
block, dropped from a full list. -/
theorem updateSACKBlocks_spec (hwf : WellFormed rcvNxt sack.blocks)
    (hafter : ∀ b ∈ sack.blocks, rcvNxt.lessThan b.Start = true)
    (hs : rcvNxt.lessThan segStart = true) (hse : segStart.lessThan segEnd = true)
    (hw : (rcvNxt.size segStart).toNat < 2 ^ 31 ∧ (rcvNxt.size segEnd).toNat < 2 ^ 31) :
    WellFormed rcvNxt (updateSACKBlocks sack segStart segEnd rcvNxt).blocks ∧
      (∀ b ∈ (updateSACKBlocks sack segStart segEnd rcvNxt).blocks,
        rcvNxt.lessThan b.Start = true) ∧
      (∃ b rest, (updateSACKBlocks sack segStart segEnd rcvNxt).blocks = b :: rest ∧
        b.contains ⟨segStart, segEnd⟩ = true) ∧
      ∃ dropped : List SACKBlock, dropped.Sublist sack.blocks ∧ dropped.length ≤ 1 ∧
        (dropped ≠ [] → sack.blocks.length = MaxSACKBlocks) ∧
        ∀ v, Covered (updateSACKBlocks sack segStart segEnd rcvNxt).blocks v ↔
          (Covered sack.blocks v ∨ v.inRange segStart segEnd = true) ∧ ¬Covered dropped v := by
  have hseg : SACKBlock.Fits rcvNxt ⟨segStart, segEnd⟩ :=
    ⟨(Value.lessThan_iff_size_lt rcvNxt hw.1 hw.2).1 hse, hw.2⟩
  have hseg0 : 0 < ((⟨segStart, segEnd⟩ : SACKBlock).ival rcvNxt).1 := (lessThan_start_iff hseg).1 hs
  have horig : ∀ c ∈ sack.blocks, c.Fits rcvNxt ∧ 0 < (c.ival rcvNxt).1 :=
    fun c hc => ⟨hwf.fits hc, (lessThan_start_iff (hwf.fits hc)).1 (hafter c hc)⟩
  have hpw : sack.blocks.Pairwise fun a b => Apart (a.ival rcvNxt) (b.ival rcvNxt) :=
    hwf.apart.imp_of_mem fun ha hb hab => (apart_iff (hwf.fits ha) (hwf.fits hb)).1 hab
  -- the segment is a valid block that ends after `rcvNxt`
  have hexit : (segEnd.lessThanEq segStart || segEnd.lessThan rcvNxt) = false := by
    have h1 := Value.lessThanEq_iff_size_le rcvNxt hw.2 hw.1
    have h2 := Value.lessThan_iff_size_lt rcvNxt hw.2
      (show (rcvNxt.size rcvNxt).toNat < 2 ^ 31 by rw [toNat_size_self]; decide)
    rw [toNat_size_self] at h2
    have := hseg.1
    simp only [SACKBlock.ival] at this
    cases ha : segEnd.lessThanEq segStart <;> cases hb : segEnd.lessThan rcvNxt
    · rfl
    all_goals first | exact absurd (h1.1 ha) (by omega) | exact absurd (h2.1 hb) (by omega)
  unfold updateSACKBlocks
  simp only [hexit, Bool.false_eq_true, ↓reduceIte]
  by_cases h0 : sack.blocks.length = 0
  · -- an empty list takes the segment as its only block
    rw [if_pos h0]
    have hnil : sack.blocks = [] := List.eq_nil_of_length_eq_zero h0
    refine ⟨wellFormed_of_fits (by simp [MaxSACKBlocks]) (by simpa using hseg) (List.pairwise_singleton _ _),
      by simpa using hs, ⟨_, [], rfl, ?_⟩, [], List.nil_sublist _, by simp, by simp, ?_⟩
    · simp only [SACKBlock.contains, Value.lessThanEq, beq_self_eq_true, Bool.true_or,
        Bool.and_self]
    · intro v
      simp [Covered, hnil]
  rw [if_neg h0]
  have hinv : UpdateInv rcvNxt ((⟨segStart, segEnd⟩ : SACKBlock).ival rcvNxt) sack.blocks
      ⟨segStart, segEnd⟩ [] sack.blocks :=
    ⟨List.Sublist.refl _, hseg, hseg0, ⟨Nat.le_refl _, Nat.le_refl _⟩, by simp, fun _ => by simp⟩
  have hend := UpdateInv.foldl horig hpw hinv
  rcases hq : sack.blocks.foldl (updateStep rcvNxt) (⟨segStart, segEnd⟩, []) with ⟨m, saved⟩
  rw [hq] at hend
  dsimp only at hend ⊢
  simp only [(lessThan_start_iff hend.fits).2 hend.after, ↓reduceIte]
  obtain ⟨hwf', hpos, dropped, hdsub, hdlen, hdfull, hcov⟩ :=
    hend.result horig hpw hwf.length_le
  have hfits' : ∀ c ∈ (m :: if saved.length = MaxSACKBlocks then saved.dropLast else saved),
      c.Fits rcvNxt := fun c hc => hwf'.fits hc
  refine ⟨hwf', fun c hc => (lessThan_start_iff (hfits' c hc)).2 (hpos c hc), ⟨m, _, rfl, ?_⟩,
    dropped, hdsub, hdlen, hdfull, fun v => ?_⟩
  · -- the new block holds the segment
    have hs1 := hend.holds_seg
    simp only [SACKBlock.contains, Bool.and_eq_true,
      Value.lessThanEq_iff_size_le rcvNxt hend.fits.start_lt hw.1,
      Value.lessThanEq_iff_size_le rcvNxt hw.2 hend.fits.2]
    exact hs1
  · rw [covered_iff hfits', covered_iff (fun c hc => horig c hc |>.1),
      covered_iff (fun c hc => (horig c (hdsub.subset hc)).1), hseg.inRange_iff]
    simpa only [List.mem_cons, exists_eq_or_imp, or_comm] using hcov (rcvNxt.size v).toNat

/-- `TrimSACKBlockList` at a `rcvNxt'` less than `2^31` past `rcvNxt`, on
well-formed blocks: what is left is well formed from `rcvNxt'` on, and covers
what the blocks covered except the sequence numbers before `rcvNxt'`. -/
theorem trimSACKBlockList_spec {rcvNxt' : Value} (hwf : WellFormed rcvNxt sack.blocks)
    (hd : (rcvNxt.size rcvNxt').toNat < 2 ^ 31) :
    WellFormed rcvNxt' (trimSACKBlockList sack rcvNxt').blocks ∧
      ∀ v, Covered (trimSACKBlockList sack rcvNxt').blocks v ↔
        Covered sack.blocks v ∧ v.lessThan rcvNxt' = false := by
  -- each block left is a block of the list cut at `rcvNxt'`
  have hcut : ∀ b ∈ sack.blocks, ∀ b' ∈ trimBlock rcvNxt' b, b'.Fits rcvNxt ∧
      (rcvNxt.size rcvNxt').toNat ≤ (b'.ival rcvNxt).1 ∧
      b'.ival rcvNxt = (max (b.ival rcvNxt).1 (rcvNxt.size rcvNxt').toNat, (b.ival rcvNxt).2) := by
    intro b hb b' hb'
    have hf := hwf.fits hb
    rcases trimBlock_cases hf hd with ⟨hn, -⟩ | ⟨c, hc, hlt, hiv⟩
    · simp [hn] at hb'
    · obtain rfl : c = b' := Option.some.inj (hc.symm.trans hb')
      have := hf.1
      have := hf.2
      simp only [SACKBlock.Fits, hiv, and_true]
      omega
  have hleft : ∀ b' ∈ (trimSACKBlockList sack rcvNxt').blocks, b'.Fits rcvNxt ∧
      (rcvNxt.size rcvNxt').toNat ≤ (b'.ival rcvNxt).1 := by
    intro b' hb'
    obtain ⟨b, hb, hbb'⟩ := List.mem_filterMap.1 hb'
    exact ⟨(hcut b hb b' hbb').1, (hcut b hb b' hbb').2.1⟩
  refine ⟨⟨?_, ?_, ?_, ?_⟩, fun v => ?_⟩
  · exact (List.length_filterMap_le _ _).trans hwf.length_le
  · intro b' hb'
    have hf := (hleft b' hb').1
    exact (Value.lessThan_iff_size_lt rcvNxt hf.start_lt hf.2).2 hf.1
  · -- distances from `rcvNxt'` are those from `rcvNxt`, less the distance between the two
    intro b' hb'
    obtain ⟨hf, hle⟩ := hleft b' hb'
    have h1 := hf.1
    have h2 := hf.2
    simp only [SACKBlock.ival] at hle h1 h2
    have hle' : (rcvNxt.size rcvNxt').toNat ≤ (rcvNxt.size b'.End).toNat := by omega
    rw [Value.size_eq_sub_size rcvNxt hle, Value.size_eq_sub_size rcvNxt hle']
    omega
  · -- a cut block lies within its block, so cut blocks stay apart
    have hpw : sack.blocks.Pairwise fun a a' => ∀ c ∈ trimBlock rcvNxt' a, ∀ c' ∈ trimBlock rcvNxt' a',
        c.End.lessThan c'.Start = true ∨ c'.End.lessThan c.Start = true := by
      refine hwf.apart.imp_of_mem fun ha ha' haa' c hc c' hc' => ?_
      obtain ⟨hcf, -, hciv⟩ := hcut _ ha c hc
      obtain ⟨hcf', -, hciv'⟩ := hcut _ ha' c' hc'
      have hap := (apart_iff (hwf.fits ha) (hwf.fits ha')).1 haa'
      refine (apart_iff hcf hcf').2 (hap.shrink ?_ ?_ ?_ ?_) <;> simp only [hciv, hciv'] <;>
        omega
    exact hpw.filterMap _ fun a a' h c hc c' hc' => h c hc c' hc'
  · exact covered_filterMap_trimBlock (fun b hb => hwf.fits hb) hd v

end Spec

/-- The receiver's two operations on well-formed blocks that start after
`rcvNxt`: an update by a segment after `rcvNxt` leaves well-formed blocks after
`rcvNxt`, the first holding the segment, covering the old blocks and the
segment less at most one block a full list drops; a trim at any `rcvNxt'` less
than `2^31` on leaves blocks well formed from `rcvNxt'` on, covering exactly
what the blocks covered from `rcvNxt'` on. -/
theorem sackBlocks_update_trim (sack : SACKInfo) (segStart segEnd rcvNxt : Value)
    (hwf : WellFormed rcvNxt sack.blocks)
    (hafter : ∀ b ∈ sack.blocks, rcvNxt.lessThan b.Start = true)
    (hs : rcvNxt.lessThan segStart = true) (hse : segStart.lessThan segEnd = true)
    (hw : (rcvNxt.size segStart).toNat < 2 ^ 31 ∧ (rcvNxt.size segEnd).toNat < 2 ^ 31) :
    (WellFormed rcvNxt (updateSACKBlocks sack segStart segEnd rcvNxt).blocks ∧
      (∀ b ∈ (updateSACKBlocks sack segStart segEnd rcvNxt).blocks,
        rcvNxt.lessThan b.Start = true) ∧
      (∃ b rest, (updateSACKBlocks sack segStart segEnd rcvNxt).blocks = b :: rest ∧
        b.contains ⟨segStart, segEnd⟩ = true) ∧
      ∃ dropped : List SACKBlock, dropped.Sublist sack.blocks ∧ dropped.length ≤ 1 ∧
        (dropped ≠ [] → sack.blocks.length = MaxSACKBlocks) ∧
        ∀ v, Covered (updateSACKBlocks sack segStart segEnd rcvNxt).blocks v ↔
          (Covered sack.blocks v ∨ v.inRange segStart segEnd = true) ∧ ¬Covered dropped v) ∧
      ∀ rcvNxt' : Value, (rcvNxt.size rcvNxt').toNat < 2 ^ 31 →
        WellFormed rcvNxt' (trimSACKBlockList sack rcvNxt').blocks ∧
          ∀ v, Covered (trimSACKBlockList sack rcvNxt').blocks v ↔
            Covered sack.blocks v ∧ v.lessThan rcvNxt' = false :=
  ⟨updateSACKBlocks_spec hwf hafter hs hse hw, fun _ hd => trimSACKBlockList_spec hwf hd⟩

theorem sackBlocks_update_trim_sample :
    updateSACKBlocks ⟨[⟨5, 8⟩]⟩ 10 12 0 = ⟨[⟨10, 12⟩, ⟨5, 8⟩]⟩ ∧
      WellFormed 0 (updateSACKBlocks ⟨[⟨5, 8⟩]⟩ 10 12 0).blocks ∧
      WellFormed 6 (trimSACKBlockList ⟨[⟨5, 8⟩]⟩ 6).blocks :=
  have h := sackBlocks_update_trim ⟨[⟨5, 8⟩]⟩ 10 12 0 ⟨by decide, by decide, by decide, by decide⟩
    (by decide) (by decide) (by decide) (by decide)
  ⟨by decide, h.1.1, (h.2 6 (by decide)).1⟩

end Tcp
