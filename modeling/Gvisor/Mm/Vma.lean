import Gvisor.Lib.Outcome
import Gvisor.Syserror
import Gvisor.Usermem.Addr
import Gvisor.Segment.WellFormed

/-! `findAvailableLocked` (pkg/sentry/mm/vma.go): where a new mapping goes. The
vma set is a segment set over the keys `0` to `^Addr(0)`, and of a vma only
`growsDown` is read here: below a vma that grows down, `availableRange` leaves
`guardBytes` free. A hint is taken if it lies in the allowed range and in the
available range of its gap. Otherwise, unless the request is fixed, the gaps
are walked up from the bottom-up base (or from the start of the `MAP_32BIT`
window) or down from the top-down base for the first one long enough, and the
mapping is moved to a huge page boundary where that gap has room.

The walks compute in `uint64`. Up from the bottom, the test for room above the
aligned start adds `length+alignment-offset`, which wraps when the range
searched ends within `HugePageSize` of `2^64`; the layouts `NewMmapLayout`
makes end below `2^47`. -/

namespace Arch

inductive MmapDirection
  | bottomUp
  | topDown
  deriving DecidableEq, Repr

/-- `arch.MmapLayout`, without the stack randomisation. -/
structure MmapLayout where
  minAddr : Usermem.Addr
  maxAddr : Usermem.Addr
  bottomUpBase : Usermem.Addr
  topDownBase : Usermem.Addr
  defaultDirection : MmapDirection
  deriving DecidableEq, Repr

/-- `MmapLayout.Valid`. -/
def MmapLayout.valid (m : MmapLayout) : Bool :=
  if m.minAddr > m.maxAddr then false
  else if m.bottomUpBase < m.minAddr then false
  else if m.bottomUpBase > m.maxAddr then false
  else if m.topDownBase < m.minAddr then false
  else if m.topDownBase > m.maxAddr then false
  else true

theorem MmapLayout.valid_iff (m : MmapLayout) :
    m.valid = true ↔ m.minAddr.toNat ≤ m.maxAddr.toNat ∧ m.minAddr.toNat ≤ m.bottomUpBase.toNat ∧
      m.bottomUpBase.toNat ≤ m.maxAddr.toNat ∧ m.minAddr.toNat ≤ m.topDownBase.toNat ∧
      m.topDownBase.toNat ≤ m.maxAddr.toNat := by
  simp only [valid, gt_iff_lt, UInt64.lt_iff_toNat_lt]
  split_ifs <;> simp <;> omega

end Arch

namespace Mm

open Syserror Usermem Segment Arch

/-- The part of a `vma` that `findAvailableLocked` reads. -/
structure Vma where
  growsDown : Bool
  deriving DecidableEq, Repr, Inhabited

/-- `vmaSetFunctions`. Of `Merge` only its test of `growsDown` is kept, and
`Split` copies the vma. -/
def vmaSetFunctions : Functions Vma where
  minKey := 0
  maxKey := 2 ^ 64 - 1
  merge _ v1 _ v2 := if v1.growsDown = v2.growsDown then some v1 else none
  split _ v _ := (v, v)

/-- `guardBytes`, Linux's `stack_guard_gap`. -/
def guardBytes : UInt64 := 256 * pageSize

/-- `map32Start` and `map32End`, Linux's `MAP32_BASE` and `MAP32_MAX`. -/
def map32Start : Addr := 0x40000000

def map32End : Addr := 0x80000000

/-- `findAvailableOpts`. -/
structure FindAvailableOpts where
  addr : Addr
  fixed : Bool
  unmap : Bool
  map32Bit : Bool
  deriving DecidableEq, Repr

section Gaps

variable (vmas : List (Range × Vma))

/-- `vgap.Range()` of the gap at index `gap`. -/
def gapAddrRange (gap : ℕ) : AddrRange :=
  ⟨(gapStart vmas vmaSetFunctions gap).toUInt64, (gapEnd vmas vmaSetFunctions gap).toUInt64⟩

/-- `vmaGapIterator.availableRange`: the gap, without the guard pages below a
vma that grows down. `vgap.NextSegment()` is the vma at the gap's index. -/
def availableRange (gap : ℕ) : AddrRange :=
  let ar := gapAddrRange vmas gap
  if !decide (gap < vmas.length) || !(value vmas gap).growsDown then ar
  else if ar.length < guardBytes then ⟨ar.Start, ar.Start⟩
  else { ar with End := ar.End - guardBytes }

/-- `FindGap`: the gap that holds `key`, terminal if a vma does. -/
def findGap (key : Addr) : ℕ := (find vmas key.toNat).2

/-- `LowerBoundGap`: the gap that holds `min`, else the one after the vma that does. -/
def lowerBoundGap (min : Addr) : ℕ :=
  let (seg, gap) := find vmas min.toNat
  if gap ≤ vmas.length then gap else seg + 1

/-- `UpperBoundGap`: the gap that holds `max`, else the one before the vma that does. -/
def upperBoundGap (max : Addr) : ℕ :=
  let (seg, gap) := find vmas max.toNat
  if gap ≤ vmas.length then gap else seg

end Gaps

section GapLemmas

variable {vmas : List (Range × Vma)} {gap g : ℕ}

theorem vmaSetFunctions_key_le : vmaSetFunctions.minKey ≤ vmaSetFunctions.maxKey := by
  simp [vmaSetFunctions]

theorem toNat_toUInt64_key {n : ℕ} (h : n ≤ vmaSetFunctions.maxKey) : n.toUInt64.toNat = n := by
  simp only [vmaSetFunctions] at h
  simp only [Nat.toUInt64_eq, UInt64.toNat_ofNat']
  omega

theorem toNat_gapAddrRange_start (hw : WellFormed vmaSetFunctions vmas) (hg : gap ≤ vmas.length) :
    (gapAddrRange vmas gap).Start.toNat = gapStart vmas vmaSetFunctions gap :=
  toNat_toUInt64_key
    (Nat.le_trans (hw.gapStart_le_gapEnd vmaSetFunctions_key_le hg) hw.gapEnd_le_maxKey)

theorem toNat_gapAddrRange_end (hw : WellFormed vmaSetFunctions vmas) :
    (gapAddrRange vmas gap).End.toNat = gapEnd vmas vmaSetFunctions gap :=
  toNat_toUInt64_key hw.gapEnd_le_maxKey

@[simp] theorem availableRange_start :
    (availableRange vmas gap).Start = (gapAddrRange vmas gap).Start := by
  unfold availableRange
  dsimp only
  split_ifs <;> rfl

/-- The available range of a gap is a range inside the gap. -/
theorem availableRange_end (hw : WellFormed vmaSetFunctions vmas) (hg : gap ≤ vmas.length) :
    gapStart vmas vmaSetFunctions gap ≤ (availableRange vmas gap).End.toNat ∧
      (availableRange vmas gap).End.toNat ≤ gapEnd vmas vmaSetFunctions gap := by
  have hse := hw.gapStart_le_gapEnd vmaSetFunctions_key_le hg
  rw [← toNat_gapAddrRange_start hw hg, ← toNat_gapAddrRange_end hw] at hse ⊢
  unfold availableRange
  dsimp only
  split_ifs with h1 h2
  · exact ⟨hse, Nat.le_refl _⟩
  · exact ⟨Nat.le_refl _, hse⟩
  · -- the guard pages come off the end, which is at least `guardBytes` past the start
    rw [UInt64.lt_iff_toNat_lt, AddrRange.toNat_length hse] at h2
    have hgb : guardBytes.toNat = 1048576 := rfl
    dsimp only
    rw [UInt64.toNat_sub_of_le _ _ (UInt64.le_iff_toNat_le.2 (by omega))]
    exact ⟨by omega, by omega⟩

/-- The available range of a gap lies apart from every vma. -/
theorem availableRange_apart (hw : WellFormed vmaSetFunctions vmas) (hg : gap ≤ vmas.length)
    {a n : ℕ} (h : (availableRange vmas gap).Holds a n) {i : ℕ} (hi : i < vmas.length) :
    segEnd vmas i ≤ a ∨ a + n ≤ segStart vmas i := by
  obtain ⟨h1, h2⟩ := h
  rw [availableRange_start, toNat_gapAddrRange_start hw hg] at h1
  have := (availableRange_end hw hg).2
  rcases hw.apart_gap hg hi with h' | h'
  · exact .inl (by omega)
  · exact .inr (by omega)

/-- Gaps before `LowerBoundGap min` end by `min`. -/
theorem lowerBoundGap_spec (hw : WellFormed vmaSetFunctions vmas) (min : Addr) :
    lowerBoundGap vmas min ≤ vmas.length ∧
      ∀ g < lowerBoundGap vmas min, gapEnd vmas vmaSetFunctions g ≤ min.toNat := by
  rcases find_cases_of_le (F := vmaSetFunctions) (s := vmas) (Nat.zero_le min.toNat) with
    ⟨seg, hf, hs, h1, -⟩ | ⟨gap, hf, hg, h1, -⟩
  · -- `min` is in a vma: the walk starts at the gap after it
    have hlb : lowerBoundGap vmas min = seg + 1 := by simp [lowerBoundGap, hf]
    rw [hlb]
    refine ⟨hs, fun g hlt => ?_⟩
    rw [gapEnd_of_lt (by omega)]
    exact Nat.le_trans (hw.segStart_le_segStart (by omega) hs) h1
  · have hlb : lowerBoundGap vmas min = gap := by simp [lowerBoundGap, hf, hg]
    rw [hlb]
    exact ⟨hg, fun g hlt => Nat.le_trans (hw.gapEnd_le_gapStart hlt hg) h1⟩

/-- Gaps after `UpperBoundGap max` start past `max`. -/
theorem upperBoundGap_spec (hw : WellFormed vmaSetFunctions vmas) (max : Addr) :
    upperBoundGap vmas max ≤ vmas.length ∧
      ∀ g, upperBoundGap vmas max < g → g ≤ vmas.length →
        max.toNat < gapStart vmas vmaSetFunctions g := by
  rcases find_cases_of_le (F := vmaSetFunctions) (s := vmas) (Nat.zero_le max.toNat) with
    ⟨seg, hf, hs, -, h2⟩ | ⟨gap, hf, hg, -, h2⟩
  · -- `max` is in a vma: the walk starts at the gap before it
    have hub : upperBoundGap vmas max = seg := by simp [upperBoundGap, hf]
    rw [hub]
    refine ⟨Nat.le_of_lt hs, fun g hlt hgl => ?_⟩
    rw [gapStart_of_pos (by omega)]
    exact Nat.lt_of_lt_of_le h2 (hw.segEnd_le_segEnd (by omega) (by omega))
  · have hub : upperBoundGap vmas max = gap := by simp [upperBoundGap, hf, hg]
    rw [hub]
    refine ⟨hg, fun g hlt hgl => ?_⟩
    rcases h2 with h2 | rfl
    · exact Nat.lt_of_lt_of_le h2 (hw.gapEnd_le_gapStart hlt hgl)
    · omega

/-- The candidate of `findLowestAvailableLocked` moved up to the alignment fits
where the test for room holds, when `length+alignment-offset` cannot wrap. -/
theorem holds_alignUp {gr : AddrRange} {length alignment : UInt64}
    (hse : gr.Start.toNat ≤ gr.End.toNat) (hal : 0 < alignment.toNat)
    (hwrap : gr.length.toNat + alignment.toNat < 2 ^ 64) (hlen : gr.length ≥ length)
    (hroom : gr.length ≥ length + alignment - gr.Start % alignment) :
    gr.Holds (gr.Start + (alignment - gr.Start % alignment)).toNat length.toNat := by
  have hoff : (gr.Start % alignment).toNat < alignment.toNat := by
    rw [UInt64.toNat_mod]
    exact Nat.mod_lt _ hal
  rw [ge_iff_le, UInt64.le_iff_toNat_le] at hlen hroom
  rw [AddrRange.toNat_length hse] at hlen hroom hwrap
  have hsum : (length + alignment).toNat = length.toNat + alignment.toNat := by
    rw [UInt64.toNat_add]
    exact Nat.mod_eq_of_lt (by omega)
  -- no wrap in the room needed, so the test reads as in naturals
  rw [UInt64.toNat_sub_of_le _ _ (UInt64.le_iff_toNat_le.2 (by omega)), hsum] at hroom
  have hshift : (alignment - gr.Start % alignment).toNat =
      alignment.toNat - (gr.Start % alignment).toNat :=
    UInt64.toNat_sub_of_le _ _ (UInt64.le_iff_toNat_le.2 (by omega))
  have hend := gr.End.toNat_lt
  rw [UInt64.toNat_add, hshift, Nat.mod_eq_of_lt (by omega)]
  exact ⟨by omega, by omega⟩

/-- The candidate of `findHighestAvailableLocked` moved down to the alignment
fits where it does not go below the range. -/
theorem holds_alignDown {gr : AddrRange} {length alignment : UInt64}
    (hse : gr.Start.toNat ≤ gr.End.toNat) (hlen : gr.length ≥ length)
    (hroom : gr.Start ≤ gr.End - length - (gr.End - length) % alignment) :
    gr.Holds (gr.End - length - (gr.End - length) % alignment).toNat length.toNat := by
  rw [ge_iff_le, UInt64.le_iff_toNat_le, AddrRange.toNat_length hse] at hlen
  have hstart : (gr.End - length).toNat = gr.End.toNat - length.toNat :=
    UInt64.toNat_sub_of_le _ _ (UInt64.le_iff_toNat_le.2 (by omega))
  have hoff : ((gr.End - length) % alignment).toNat ≤ (gr.End - length).toNat := by
    rw [UInt64.toNat_mod]
    exact Nat.mod_le _ _
  have hsub : (gr.End - length - (gr.End - length) % alignment).toNat =
      (gr.End - length).toNat - ((gr.End - length) % alignment).toNat :=
    UInt64.toNat_sub_of_le _ _ (UInt64.le_iff_toNat_le.2 hoff)
  rw [UInt64.le_iff_toNat_le, hsub] at hroom
  rw [hsub]
  exact ⟨hroom, by omega⟩

end GapLemmas

/-- The mappings of a `MemoryManager` as `findAvailableLocked` reads them. -/
structure Mappings where
  vmas : List (Range × Vma)
  layout : MmapLayout

namespace Mappings

variable (mm : Mappings)

/-- The walk of `findLowestAvailableLocked` up from the gap at `gap`.
`gap.NextGap()` is the next index, terminal after the last gap. -/
def findLowestFrom (length alignment : UInt64) (bounds : AddrRange) (gap : ℕ) :
    Outcome Errno Addr :=
  if gap ≤ mm.vmas.length ∧ (gapAddrRange mm.vmas gap).Start < bounds.End then
    let gr := (availableRange mm.vmas gap).intersect bounds
    if gr.length ≥ length then
      -- can we shift up to match the alignment?
      let offset := gr.Start % alignment
      if offset ≠ 0 then
        if gr.length ≥ length + alignment - offset then .ok (gr.Start + (alignment - offset))
        else .ok gr.Start
      else .ok gr.Start
    else findLowestFrom length alignment bounds (gap + 1)
  else .error .ENOMEM
termination_by mm.vmas.length + 1 - gap

/-- `findLowestAvailableLocked`. -/
def findLowestAvailableLocked (length alignment : UInt64) (bounds : AddrRange) :
    Outcome Errno Addr :=
  mm.findLowestFrom length alignment bounds (lowerBoundGap mm.vmas bounds.Start)

/-- The walk of `findHighestAvailableLocked` down from the gap at `gap`. -/
def findHighestFrom (length alignment : UInt64) (bounds : AddrRange) (gap : ℕ) :
    Outcome Errno Addr :=
  if gap ≤ mm.vmas.length ∧ (gapAddrRange mm.vmas gap).End > bounds.Start then
    let gr := (availableRange mm.vmas gap).intersect bounds
    if gr.length ≥ length then
      -- can we shift down to match the alignment?
      let start := gr.End - length
      let offset := start % alignment
      if offset ≠ 0 then
        if gr.Start ≤ start - offset then .ok (start - offset) else .ok start
      else .ok start
    else
      -- `gap.PrevGap()` of the first gap is terminal
      match gap with
      | 0 => .error .ENOMEM
      | g + 1 => findHighestFrom length alignment bounds g
  else .error .ENOMEM

/-- `findHighestAvailableLocked`. -/
def findHighestAvailableLocked (length alignment : UInt64) (bounds : AddrRange) :
    Outcome Errno Addr :=
  mm.findHighestFrom length alignment bounds (upperBoundGap mm.vmas bounds.End)

/-- `applicationAddrRange`. -/
def applicationAddrRange : AddrRange := ⟨mm.layout.minAddr, mm.layout.maxAddr⟩

/-- `allowedAR` of `findAvailableLocked`. -/
def allowedAR (map32Bit : Bool) : AddrRange :=
  if map32Bit then mm.applicationAddrRange.intersect ⟨map32Start, map32End⟩
  else mm.applicationAddrRange

/-- `findAvailableLocked`. -/
def findAvailableLocked (length : UInt64) (opts : FindAvailableOpts) : Outcome Errno Addr :=
  let opts := if opts.fixed then { opts with map32Bit := false } else opts
  let allowedAR := mm.allowedAR opts.map32Bit
  -- does the provided suggestion work? Past `Unmap`, not over a vma or a guard page
  let (ar, ok) := Addr.toRange opts.addr length
  if ok ∧ allowedAR.isSupersetOf ar ∧ (opts.unmap ∨ (findGap mm.vmas ar.Start ≤ mm.vmas.length ∧
      (availableRange mm.vmas (findGap mm.vmas ar.Start)).isSupersetOf ar)) then .ok ar.Start
  -- fixed mappings accept only the requested address
  else if opts.fixed then .error .ENOMEM
  else
    -- prefer hugepage alignment if a hugepage or more is requested
    let alignment := if length ≥ hugePageSize then hugePageSize else pageSize
    if opts.map32Bit then mm.findLowestAvailableLocked length alignment allowedAR
    else
      match mm.layout.defaultDirection with
      | .bottomUp =>
        mm.findLowestAvailableLocked length alignment ⟨mm.layout.bottomUpBase, mm.layout.maxAddr⟩
      | .topDown =>
        mm.findHighestAvailableLocked length alignment ⟨mm.layout.minAddr, mm.layout.topDownBase⟩

section Walks

variable {length alignment : UInt64} {bounds : AddrRange} {a : Addr} {e : Errno}

theorem intersect_start_le_end (g : ℕ) :
    ((availableRange mm.vmas g).intersect bounds).Start.toNat ≤
      ((availableRange mm.vmas g).intersect bounds).End.toNat :=
  AddrRange.intersect_start_le_end _ _

/-- Where the upward walk finds a place, it lies in a gap it reached, within the
bounds, as long as `length+alignment-offset` cannot wrap. -/
theorem findLowestFrom_ok (hal : 0 < alignment.toNat)
    (hb : bounds.End.toNat + alignment.toNat < 2 ^ 64) {gap : ℕ}
    (h : mm.findLowestFrom length alignment bounds gap = .ok a) :
    ∃ g, gap ≤ g ∧ g ≤ mm.vmas.length ∧
      ((availableRange mm.vmas g).intersect bounds).Holds a.toNat length.toNat := by
  rw [findLowestFrom] at h
  dsimp only at h
  have hwrap := AddrRange.toNat_length_intersect_le (availableRange mm.vmas gap) bounds
  split_ifs at h with hloop hlong hoff hroom
  · -- moved up to the alignment
    cases h
    exact ⟨gap, Nat.le_refl _, hloop.1,
      holds_alignUp (mm.intersect_start_le_end gap) hal (by omega) hlong hroom⟩
  · cases h
    exact ⟨gap, Nat.le_refl _, hloop.1, AddrRange.holds_start (mm.intersect_start_le_end gap) hlong⟩
  · cases h
    exact ⟨gap, Nat.le_refl _, hloop.1, AddrRange.holds_start (mm.intersect_start_le_end gap) hlong⟩
  · -- this gap is too short: the walk goes on with the next one
    obtain ⟨g, hg, hgl, hh⟩ := findLowestFrom_ok hal hb h
    exact ⟨g, by omega, hgl, hh⟩
termination_by mm.vmas.length + 1 - gap
decreasing_by omega

/-- Gaps that start past the end of the bounds are too short within them. -/
theorem short_of_le_gapStart (hw : WellFormed vmaSetFunctions mm.vmas) (hlen : 0 < length.toNat)
    {gap : ℕ} (hstart : bounds.End.toNat ≤ gapStart mm.vmas vmaSetFunctions gap) :
    ∀ g, gap ≤ g → g ≤ mm.vmas.length →
      ((availableRange mm.vmas g).intersect bounds).length < length := by
  intro g hg hgl
  have hmono := hw.gapStart_le_gapStart vmaSetFunctions_key_le hg hgl
  rw [UInt64.lt_iff_toNat_lt, AddrRange.length_intersect_eq_zero_of_le_start
    (by rw [availableRange_start, toNat_gapAddrRange_start hw hgl]; omega)]
  exact hlen

/-- Gaps that end by the start of the bounds are too short within them. -/
theorem short_of_gapEnd_le (hw : WellFormed vmaSetFunctions mm.vmas) (hlen : 0 < length.toNat)
    {gap : ℕ} (hgap : gap ≤ mm.vmas.length)
    (hend : gapEnd mm.vmas vmaSetFunctions gap ≤ bounds.Start.toNat) :
    ∀ g ≤ gap, ((availableRange mm.vmas g).intersect bounds).length < length := by
  intro g hg
  have hmono := hw.gapEnd_le_gapEnd vmaSetFunctions_key_le hg hgap
  have := (availableRange_end hw (Nat.le_trans hg hgap)).2
  rw [UInt64.lt_iff_toNat_lt, AddrRange.length_intersect_eq_zero_of_end_le (by omega)]
  exact hlen

/-- Where the upward walk fails, every gap from where it started on is too short
within the bounds. -/
theorem findLowestFrom_error (hw : WellFormed vmaSetFunctions mm.vmas) (hlen : 0 < length.toNat)
    {gap : ℕ} (h : mm.findLowestFrom length alignment bounds gap = .error e) :
    e = .ENOMEM ∧ ∀ g, gap ≤ g → g ≤ mm.vmas.length →
      ((availableRange mm.vmas g).intersect bounds).length < length := by
  rw [findLowestFrom] at h
  dsimp only at h
  split_ifs at h with hloop hlong
  · obtain ⟨he, hall⟩ := findLowestFrom_error hw hlen h
    refine ⟨he, fun g hg hgl => ?_⟩
    rcases Nat.eq_or_lt_of_le hg with rfl | hlt
    · exact UInt64.not_le.1 hlong
    · exact hall g (by omega) hgl
  · -- the walk ends: no gap is left, or the next one starts past the bounds
    cases h
    refine ⟨rfl, fun g hg hgl => ?_⟩
    have hgap : gap ≤ mm.vmas.length := by omega
    have hstart : bounds.End.toNat ≤ gapStart mm.vmas vmaSetFunctions gap := by
      rw [← toNat_gapAddrRange_start hw hgap, ← UInt64.le_iff_toNat_le]
      exact UInt64.not_lt.1 fun hlt => hloop ⟨hgap, hlt⟩
    exact mm.short_of_le_gapStart hw hlen hstart g hg hgl
termination_by mm.vmas.length + 1 - gap
decreasing_by omega

/-- Where the downward walk finds a place, it lies in a gap it reached, within
the bounds. -/
theorem findHighestFrom_ok {gap : ℕ} (h : mm.findHighestFrom length alignment bounds gap = .ok a) :
    ∃ g ≤ gap, g ≤ mm.vmas.length ∧
      ((availableRange mm.vmas g).intersect bounds).Holds a.toNat length.toNat := by
  induction gap with
  | zero =>
    rw [findHighestFrom] at h
    dsimp only at h
    split_ifs at h with hloop hlong hoff hroom
    · cases h
      exact ⟨0, Nat.le_refl _, hloop.1, holds_alignDown (mm.intersect_start_le_end 0) hlong hroom⟩
    · cases h
      exact ⟨0, Nat.le_refl _, hloop.1, AddrRange.holds_end (mm.intersect_start_le_end 0) hlong⟩
    · cases h
      exact ⟨0, Nat.le_refl _, hloop.1, AddrRange.holds_end (mm.intersect_start_le_end 0) hlong⟩
  | succ gap ih =>
    rw [findHighestFrom] at h
    dsimp only at h
    split_ifs at h with hloop hlong hoff hroom
    · cases h
      exact ⟨gap + 1, Nat.le_refl _, hloop.1,
        holds_alignDown (mm.intersect_start_le_end (gap + 1)) hlong hroom⟩
    · cases h
      exact ⟨gap + 1, Nat.le_refl _, hloop.1,
        AddrRange.holds_end (mm.intersect_start_le_end (gap + 1)) hlong⟩
    · cases h
      exact ⟨gap + 1, Nat.le_refl _, hloop.1,
        AddrRange.holds_end (mm.intersect_start_le_end (gap + 1)) hlong⟩
    · -- this gap is too short: the walk goes on with the one below
      obtain ⟨g, hg, hgl, hh⟩ := ih h
      exact ⟨g, by omega, hgl, hh⟩

/-- Where the downward walk fails, every gap up to where it started is too short
within the bounds. -/
theorem findHighestFrom_error (hw : WellFormed vmaSetFunctions mm.vmas) (hlen : 0 < length.toNat)
    {gap : ℕ} (hgap : gap ≤ mm.vmas.length)
    (h : mm.findHighestFrom length alignment bounds gap = .error e) :
    e = .ENOMEM ∧ ∀ g ≤ gap, ((availableRange mm.vmas g).intersect bounds).length < length := by
  -- the walk ends at a gap that ends by the start of the bounds, as do those below it
  induction gap with
  | zero =>
    rw [findHighestFrom] at h
    dsimp only at h
    split_ifs at h with hloop hlong
    · cases h
      refine ⟨rfl, fun g hg => ?_⟩
      rw [Nat.le_zero.1 hg]
      exact UInt64.not_le.1 hlong
    · cases h
      refine ⟨rfl, mm.short_of_gapEnd_le hw hlen hgap ?_⟩
      rw [← toNat_gapAddrRange_end hw, ← UInt64.le_iff_toNat_le]
      exact UInt64.not_lt.1 fun hlt => hloop ⟨hgap, hlt⟩
  | succ gap ih =>
    rw [findHighestFrom] at h
    dsimp only at h
    split_ifs at h with hloop hlong
    · -- this gap is too short: the walk goes on with the one below
      obtain ⟨he, hall⟩ := ih (by omega) h
      refine ⟨he, fun g hg => ?_⟩
      rcases Nat.eq_or_lt_of_le hg with rfl | hlt
      · exact UInt64.not_le.1 hlong
      · exact hall g (by omega)
    · cases h
      refine ⟨rfl, mm.short_of_gapEnd_le hw hlen hgap ?_⟩
      rw [← toNat_gapAddrRange_end hw, ← UInt64.le_iff_toNat_le]
      exact UInt64.not_lt.1 fun hlt => hloop ⟨hgap, hlt⟩

/-- `findLowestAvailableLocked` places the mapping in one gap, within the bounds. -/
theorem findLowestAvailableLocked_ok (hal : 0 < alignment.toNat)
    (hb : bounds.End.toNat + alignment.toNat < 2 ^ 64)
    (h : mm.findLowestAvailableLocked length alignment bounds = .ok a) :
    ∃ g ≤ mm.vmas.length, ((availableRange mm.vmas g).intersect bounds).Holds a.toNat length.toNat := by
  obtain ⟨g, -, hgl, hh⟩ := mm.findLowestFrom_ok hal hb h
  exact ⟨g, hgl, hh⟩

/-- `findLowestAvailableLocked` fails only with `ENOMEM`, and only when no gap has
`length` bytes within the bounds: those before where the walk starts end by the
start of the bounds. -/
theorem findLowestAvailableLocked_error (hw : WellFormed vmaSetFunctions mm.vmas)
    (hlen : 0 < length.toNat) (h : mm.findLowestAvailableLocked length alignment bounds = .error e) :
    e = .ENOMEM ∧ ∀ g ≤ mm.vmas.length,
      ((availableRange mm.vmas g).intersect bounds).length < length := by
  obtain ⟨he, hall⟩ := mm.findLowestFrom_error hw hlen h
  obtain ⟨-, hbelow⟩ := lowerBoundGap_spec hw bounds.Start
  refine ⟨he, fun g hgl => ?_⟩
  rcases Nat.lt_or_ge g (lowerBoundGap mm.vmas bounds.Start) with hlt | hge
  · exact mm.short_of_gapEnd_le hw hlen hgl (hbelow g hlt) g (Nat.le_refl g)
  · exact hall g hge hgl

/-- `findHighestAvailableLocked` places the mapping in one gap, within the bounds. -/
theorem findHighestAvailableLocked_ok
    (h : mm.findHighestAvailableLocked length alignment bounds = .ok a) :
    ∃ g ≤ mm.vmas.length, ((availableRange mm.vmas g).intersect bounds).Holds a.toNat length.toNat := by
  obtain ⟨g, -, hgl, hh⟩ := mm.findHighestFrom_ok h
  exact ⟨g, hgl, hh⟩

/-- `findHighestAvailableLocked` fails only with `ENOMEM`, and only when no gap
has `length` bytes within the bounds: those after where the walk starts begin
past the end of the bounds. -/
theorem findHighestAvailableLocked_error (hw : WellFormed vmaSetFunctions mm.vmas)
    (hlen : 0 < length.toNat) (h : mm.findHighestAvailableLocked length alignment bounds = .error e) :
    e = .ENOMEM ∧ ∀ g ≤ mm.vmas.length,
      ((availableRange mm.vmas g).intersect bounds).length < length := by
  obtain ⟨hub, habove⟩ := upperBoundGap_spec hw bounds.End
  obtain ⟨he, hall⟩ := mm.findHighestFrom_error hw hlen hub h
  refine ⟨he, fun g hgl => ?_⟩
  rcases Nat.lt_or_ge (upperBoundGap mm.vmas bounds.End) g with hlt | hge
  · exact mm.short_of_le_gapStart hw hlen (habove g hlt hgl).le g (Nat.le_refl g) hgl
  · exact hall g hge

end Walks

section Request

variable {length : UInt64} {opts : FindAvailableOpts} {a : Addr} {e : Errno}

theorem toNat_alignment_pos (length : UInt64) :
    0 < (if length ≥ hugePageSize then hugePageSize else pageSize).toNat := by
  split_ifs <;> decide

theorem toNat_alignment_le (length : UInt64) :
    (if length ≥ hugePageSize then hugePageSize else pageSize).toNat ≤ hugePageSize.toNat := by
  split_ifs <;> decide

/-- A hint that `ToRange` accepts and a range holds is held in naturals. -/
theorem holds_of_isSupersetOf {ar : AddrRange} {v : Addr} (hok : decide (v + length ≥ v) = true)
    (hs : ar.isSupersetOf ⟨v, v + length⟩ = true) :
    v.toNat + length.toNat < 2 ^ 64 ∧ ar.Holds v.toNat length.toNat := by
  have hwrap : v.toNat + length.toNat < 2 ^ 64 := (Addr.addLength_ok_iff v length).1 hok
  have hend : (v + length).toNat = v.toNat + length.toNat := Addr.toNat_addLength hok
  rw [AddrRange.isSupersetOf_iff, hend] at hs
  exact ⟨hwrap, hs⟩

/-- What the allowed range holds lies in the application range, and in the
`MAP_32BIT` window when that is asked for. -/
theorem allowedAR_holds {b : Bool} {x n : ℕ} (hn : 0 < n) (h : (mm.allowedAR b).Holds x n) :
    mm.applicationAddrRange.Holds x n ∧ (b = true → AddrRange.Holds ⟨map32Start, map32End⟩ x n) := by
  cases b with
  | false => exact ⟨h, fun hb => absurd hb Bool.false_ne_true⟩
  | true =>
    obtain ⟨happ, hwin⟩ := AddrRange.Holds.of_intersect hn h
    exact ⟨happ, fun _ => hwin⟩

theorem toNat_allowedAR_end_le (hv : mm.layout.valid = true) (b : Bool) :
    (mm.allowedAR b).End.toNat ≤ max mm.layout.maxAddr.toNat map32End.toNat := by
  have hmin := ((MmapLayout.valid_iff _).1 hv).1
  have hw : map32Start.toNat ≤ map32End.toNat := by decide
  cases b with
  | false => exact Nat.le_max_left _ _
  | true =>
    simp only [allowedAR, if_true, AddrRange.toNat_intersect_end]
    simp only [applicationAddrRange]
    omega

/-- A place that one of the walks finds, in bounds inside the application
range: it does not wrap, and it lies in the bounds and in one gap. -/
theorem placed_of_holds_intersect {bounds : AddrRange} (hlen : 0 < length.toNat)
    (h : ∃ g ≤ mm.vmas.length,
      ((availableRange mm.vmas g).intersect bounds).Holds a.toNat length.toNat) :
    a.toNat + length.toNat < 2 ^ 64 ∧ bounds.Holds a.toNat length.toNat ∧
      ∃ g ≤ mm.vmas.length, (availableRange mm.vmas g).Holds a.toNat length.toNat := by
  obtain ⟨g, hgl, hh⟩ := h
  obtain ⟨hgap, hb⟩ := AddrRange.Holds.of_intersect hlen hh
  exact ⟨Nat.lt_of_le_of_lt hb.2 bounds.End.toNat_lt, hb, g, hgl, hgap⟩

/-- An accepted hint does not wrap, lies in the allowed range and, unless
mappings are to be unmapped, in the available range of its gap. -/
theorem hint_placed {v : Addr} {unmap b : Bool} (hlen : 0 < length.toNat)
    (hhint : decide (v + length ≥ v) = true ∧ (mm.allowedAR b).isSupersetOf ⟨v, v + length⟩ = true ∧
      (unmap = true ∨ findGap mm.vmas v ≤ mm.vmas.length ∧
        (availableRange mm.vmas (findGap mm.vmas v)).isSupersetOf ⟨v, v + length⟩ = true)) :
    v.toNat + length.toNat < 2 ^ 64 ∧ mm.applicationAddrRange.Holds v.toNat length.toNat ∧
      (b = true → AddrRange.Holds ⟨map32Start, map32End⟩ v.toNat length.toNat) ∧
      (unmap = false → ∃ g ≤ mm.vmas.length, (availableRange mm.vmas g).Holds v.toNat length.toNat) := by
  obtain ⟨hok, hs, hgap⟩ := hhint
  obtain ⟨hwrap, hallowed⟩ := holds_of_isSupersetOf hok hs
  obtain ⟨happ, hwin⟩ := mm.allowedAR_holds hlen hallowed
  refine ⟨hwrap, happ, hwin, fun hu => ?_⟩
  rcases hgap with hu' | ⟨hgl, hgs⟩
  · rw [hu] at hu'
    exact absurd hu' Bool.false_ne_true
  · exact ⟨_, hgl, (holds_of_isSupersetOf hok hgs).2⟩

end Request

/-- Where `findAvailableLocked` places a mapping: without a wrap, in the
application range, in the `MAP_32BIT` window where that is asked for and the
request is not fixed, and, unless mappings are to be unmapped, inside the
available range of one gap. -/
theorem findAvailableLocked_ok {length : UInt64} {opts : FindAvailableOpts} {a : Addr}
    (hv : mm.layout.valid = true) (hmax : mm.layout.maxAddr.toNat + hugePageSize.toNat < 2 ^ 64)
    (hlen : 0 < length.toNat) (h : mm.findAvailableLocked length opts = .ok a) :
    a.toNat + length.toNat < 2 ^ 64 ∧ mm.applicationAddrRange.Holds a.toNat length.toNat ∧
      (opts.fixed = false → opts.map32Bit = true →
        AddrRange.Holds ⟨map32Start, map32End⟩ a.toNat length.toNat) ∧
      (opts.unmap = false →
        ∃ g ≤ mm.vmas.length, (availableRange mm.vmas g).Holds a.toNat length.toNat) := by
  obtain ⟨hmin, hbu1, hbu2, htd1, htd2⟩ := (MmapLayout.valid_iff _).1 hv
  have hal := toNat_alignment_pos length
  have hale := toNat_alignment_le length
  simp only [findAvailableLocked, Addr.toRange, Addr.addLength] at h
  generalize (if length ≥ hugePageSize then hugePageSize else pageSize) = alignment at h hal hale
  cases hf : opts.fixed with
  | true =>
    -- a fixed request takes only its hint
    simp only [hf, if_true] at h
    split_ifs at h with hhint
    cases h
    obtain ⟨hwrap, happ, -, hgap⟩ := mm.hint_placed hlen hhint
    exact ⟨hwrap, happ, fun hf' => absurd hf' (by decide), hgap⟩
  | false =>
    simp only [hf, Bool.false_eq_true, if_false] at h
    split_ifs at h with hhint hmap
    · cases h
      obtain ⟨hwrap, happ, hwin, hgap⟩ := mm.hint_placed hlen hhint
      exact ⟨hwrap, happ, fun _ => hwin, hgap⟩
    · -- up through the `MAP_32BIT` window
      have hb : (mm.allowedAR opts.map32Bit).End.toNat + alignment.toNat < 2 ^ 64 := by
        have := mm.toNat_allowedAR_end_le hv opts.map32Bit
        have : map32End.toNat = 2 ^ 31 := rfl
        have : hugePageSize.toNat = 2 ^ 21 := rfl
        omega
      obtain ⟨hwrap, hb', hgap⟩ :=
        mm.placed_of_holds_intersect hlen (mm.findLowestAvailableLocked_ok hal hb h)
      obtain ⟨happ, hwin⟩ := mm.allowedAR_holds hlen hb'
      exact ⟨hwrap, happ, fun _ => hwin, fun _ => hgap⟩
    · cases hd : mm.layout.defaultDirection with
      | bottomUp =>
        -- up from the bottom-up base
        simp only [hd] at h
        obtain ⟨hwrap, hb', hgap⟩ := mm.placed_of_holds_intersect hlen
          (mm.findLowestAvailableLocked_ok hal (by simp only; omega) h)
        have hlow : mm.layout.bottomUpBase.toNat ≤ a.toNat := hb'.1
        exact ⟨hwrap, ⟨Nat.le_trans hbu1 hlow, hb'.2⟩, fun _ hm => absurd hm hmap, fun _ => hgap⟩
      | topDown =>
        -- down from the top-down base
        simp only [hd] at h
        obtain ⟨hwrap, hb', hgap⟩ :=
          mm.placed_of_holds_intersect hlen (mm.findHighestAvailableLocked_ok h)
        have hhigh : a.toNat + length.toNat ≤ mm.layout.topDownBase.toNat := hb'.2
        exact ⟨hwrap, ⟨hb'.1, Nat.le_trans hhigh htd2⟩, fun _ hm => absurd hm hmap, fun _ => hgap⟩

/-- A fixed request returns its hint or `ENOMEM`. -/
theorem findAvailableLocked_fixed {length : UInt64} {opts : FindAvailableOpts}
    (hf : opts.fixed = true) :
    mm.findAvailableLocked length opts = .ok opts.addr ∨
      mm.findAvailableLocked length opts = .error .ENOMEM := by
  simp only [findAvailableLocked, Addr.toRange, Addr.addLength, hf, if_true]
  split_ifs
  · exact .inl rfl
  · exact .inr rfl

/-- A request that is not fixed fails only with `ENOMEM`, and only when no gap
has `length` bytes within the range its walk searches. -/
theorem findAvailableLocked_error {length : UInt64} {opts : FindAvailableOpts} {e : Errno}
    (hw : WellFormed vmaSetFunctions mm.vmas) (hlen : 0 < length.toNat) (hf : opts.fixed = false)
    (h : mm.findAvailableLocked length opts = .error e) :
    e = .ENOMEM ∧ ∀ g ≤ mm.vmas.length,
      ((availableRange mm.vmas g).intersect
        (if opts.map32Bit then mm.allowedAR true
          else if mm.layout.defaultDirection = .bottomUp then
            ⟨mm.layout.bottomUpBase, mm.layout.maxAddr⟩
          else ⟨mm.layout.minAddr, mm.layout.topDownBase⟩)).length < length := by
  simp only [findAvailableLocked, Addr.toRange, Addr.addLength, hf, Bool.false_eq_true,
    if_false] at h
  generalize (if length ≥ hugePageSize then hugePageSize else pageSize) = alignment at h
  split_ifs at h with hhint hmap
  · rw [if_pos hmap]
    rw [hmap] at h
    exact mm.findLowestAvailableLocked_error hw hlen h
  · rw [if_neg hmap]
    cases hd : mm.layout.defaultDirection with
    | bottomUp =>
      simp only [hd] at h
      exact mm.findLowestAvailableLocked_error hw hlen h
    | topDown =>
      simp only [hd] at h
      exact mm.findHighestAvailableLocked_error hw hlen h

end Mappings

/-- A layout whose top lies within `HugePageSize` of `2^64`, which `NewMmapLayout` never
makes: the test for room above the aligned start wraps, and the mapping placed at `2^21`
runs past `2^64`. This is why `findAvailableLocked_spec` bounds `MaxAddr`. -/
theorem findAvailableLocked_wraps :
    (Mappings.mk [] ⟨4096, 0xfffffffffffff000, 4096, 4096, .bottomUp⟩).layout.valid = true ∧
      (Mappings.mk [] ⟨4096, 0xfffffffffffff000, 4096, 4096, .bottomUp⟩).findAvailableLocked
        0xffffffffffffe000 ⟨0, false, false, false⟩ = .ok 2097152 ∧
      2 ^ 64 ≤ (2097152 : Addr).toNat + (0xffffffffffffe000 : UInt64).toNat := by
  refine ⟨by decide, ?_, by decide⟩
  unfold Mappings.findAvailableLocked Mappings.findLowestAvailableLocked Mappings.findLowestFrom
  decide +kernel

/-- `findAvailableLocked` on a well-formed vma set and a valid layout that ends
more than `HugePageSize` below `2^64`. -/
theorem findAvailableLocked_spec (mm : Mappings) (length : UInt64) (opts : FindAvailableOpts)
    (hw : WellFormed vmaSetFunctions mm.vmas) (hv : mm.layout.valid = true)
    (hmax : mm.layout.maxAddr.toNat + hugePageSize.toNat < 2 ^ 64) (hlen : 0 < length.toNat) :
    (∀ a, mm.findAvailableLocked length opts = .ok a →
      a.toNat + length.toNat < 2 ^ 64 ∧ mm.applicationAddrRange.Holds a.toNat length.toNat ∧
      (opts.fixed = false → opts.map32Bit = true →
        AddrRange.Holds ⟨map32Start, map32End⟩ a.toNat length.toNat) ∧
      (opts.unmap = false → ∃ g ≤ mm.vmas.length,
        (availableRange mm.vmas g).Holds a.toNat length.toNat ∧
        ∀ i < mm.vmas.length, segEnd mm.vmas i ≤ a.toNat ∨ a.toNat + length.toNat ≤ segStart mm.vmas i)) ∧
    (opts.fixed = true → mm.findAvailableLocked length opts = .ok opts.addr ∨
      mm.findAvailableLocked length opts = .error .ENOMEM) ∧
    (opts.fixed = false → ∀ e, mm.findAvailableLocked length opts = .error e →
      e = .ENOMEM ∧ ∀ g ≤ mm.vmas.length,
        ((availableRange mm.vmas g).intersect
          (if opts.map32Bit then mm.allowedAR true
            else if mm.layout.defaultDirection = .bottomUp then
              ⟨mm.layout.bottomUpBase, mm.layout.maxAddr⟩
            else ⟨mm.layout.minAddr, mm.layout.topDownBase⟩)).length < length) := by
  refine ⟨fun a h => ?_, mm.findAvailableLocked_fixed,
    fun hf e h => mm.findAvailableLocked_error hw hlen hf h⟩
  obtain ⟨hwrap, happ, hwin, hgap⟩ := mm.findAvailableLocked_ok hv hmax hlen h
  refine ⟨hwrap, happ, hwin, fun hu => ?_⟩
  -- the gap's available range lies apart from every vma
  obtain ⟨g, hgl, hh⟩ := hgap hu
  exact ⟨g, hgl, hh, fun i hi => availableRange_apart hw hgl hh hi⟩

/-- A top-down search for 8192 bytes under a vma at `0x7fefffff0000`, with a growing-down
vma further below: the mapping goes right under the upper vma, in the gap between them. -/
theorem findAvailableLocked_spec_below_vma :
    WellFormed vmaSetFunctions
        [(⟨0x7fefff000000, 0x7fefff100000⟩, ⟨true⟩), (⟨0x7fefffff0000, 0x7ff000000000⟩, ⟨false⟩)] ∧
      (MmapLayout.mk 4096 0x7ffffffff000 4096 0x7ff000000000 .topDown).valid = true ∧
      (0x7ffffffff000 : Addr).toNat + hugePageSize.toNat < 2 ^ 64 ∧ 0 < (8192 : UInt64).toNat ∧
      (Mappings.mk [(⟨0x7fefff000000, 0x7fefff100000⟩, ⟨true⟩), (⟨0x7fefffff0000, 0x7ff000000000⟩,
        ⟨false⟩)] ⟨4096, 0x7ffffffff000, 4096, 0x7ff000000000, .topDown⟩).findAvailableLocked
        8192 ⟨0, false, false, false⟩ = .ok 0x7feffffee000 ∧
      ∃ g ≤ 2, (availableRange [(⟨0x7fefff000000, 0x7fefff100000⟩, ⟨true⟩),
          (⟨0x7fefffff0000, 0x7ff000000000⟩, ⟨false⟩)] g).Holds 0x7feffffee000 8192 ∧
        ∀ i < 2, segEnd [(⟨0x7fefff000000, 0x7fefff100000⟩, (⟨true⟩ : Vma)),
            (⟨0x7fefffff0000, 0x7ff000000000⟩, ⟨false⟩)] i ≤ 0x7feffffee000 ∨
          0x7feffffee000 + 8192 ≤ segStart [(⟨0x7fefff000000, 0x7fefff100000⟩, (⟨true⟩ : Vma)),
            (⟨0x7fefffff0000, 0x7ff000000000⟩, ⟨false⟩)] i := by
  have hw : WellFormed vmaSetFunctions
      [(⟨0x7fefff000000, 0x7fefff100000⟩, (⟨true⟩ : Vma)), (⟨0x7fefffff0000, 0x7ff000000000⟩, ⟨false⟩)] :=
    ⟨by decide, fun i hi => by
      obtain rfl : i = 0 := by simp at hi; omega
      decide⟩
  have hfind : (Mappings.mk [(⟨0x7fefff000000, 0x7fefff100000⟩, ⟨true⟩),
      (⟨0x7fefffff0000, 0x7ff000000000⟩, ⟨false⟩)] ⟨4096, 0x7ffffffff000, 4096, 0x7ff000000000,
        .topDown⟩).findAvailableLocked 8192 ⟨0, false, false, false⟩ = .ok 0x7feffffee000 := by
    decide
  refine ⟨hw, by decide, by decide, by decide, hfind, ?_⟩
  exact ((findAvailableLocked_spec _ 8192 ⟨0, false, false, false⟩ hw (by decide) (by decide)
    (by decide)).1 _ hfind).2.2.2 rfl

end Mm
