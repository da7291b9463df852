import Mathlib.Data.Finset.Card
import Mathlib.Data.Multiset.Filter
import Mathlib.Data.UInt
import Mathlib.Tactic.Abel
import Gvisor.Lib.Outcome
import Gvisor.Segment.Invariant
import Gvisor.Usermem.Addr

/-! The mappings of a `Mappable`, pkg/sentry/memmap/mapping_set.go: a `MappingSet` maps each
offset of the `Mappable` to the mappings of it, each a range of addresses of a `MappingSpace`. A
segment holds a mapping by the addresses of its whole range, so `Split` cuts the address range of
every mapping of a segment where it cuts the segment, and `Merge` joins two segments only where
each mapping of the first is continued by one of the second. `AddMapping` and `RemoveMapping`
isolate the segments of a range and add or delete the mapping's part of each, `AddMapping` fills
the gaps first with empty segments, and `Invalidate` reports the addresses of every mapping of a
range.

A `MappingSpace` is an interface in the source, compared by identity as a map key: here it is any
type with decidable equality. `InvalidateOpts` only passes through to `MappingSpace.Invalidate`,
so an `Invalidate` call is its `MappingSpace` and address range. The loops of `AddMapping` and
`RemoveMapping` run on fuel: one turn more than twice the keys below the range's end, as every
two turns of `AddMapping` move past a non-empty range of keys, and one more than the set has
segments for `RemoveMapping` and `Invalidate`. -/

namespace Memmap

open Segment

/-- `MappingOfRange`: a mapping of a `MappableRange` by the addresses `AddrRange` of a
`MappingSpace`. -/
structure MappingOfRange (M : Type) where
  MappingSpace : M
  AddrRange : Usermem.AddrRange
  Writable : Bool
  deriving DecidableEq, Repr

/-- `MappingsOfRange`: the mappings of the offsets of one segment. -/
abbrev MappingsOfRange (M : Type) := Finset (MappingOfRange M)

/-- A `MappingSet` by its in-order segments. -/
abbrev MappingSet (M : Type) := List (Range × MappingsOfRange M)

variable {M : Type} [DecidableEq M]

namespace MappingOfRange

/-- The mapping of the next `length` offsets that continues `k` in a merge. -/
def continuation (k : MappingOfRange M) (length : ℕ) : MappingOfRange M :=
  ⟨k.MappingSpace, ⟨k.AddrRange.End, k.AddrRange.End + UInt64.ofNat length⟩, k.Writable⟩

/-- `k` extended by its continuation over the next `length` offsets. -/
def extend (k : MappingOfRange M) (length : ℕ) : MappingOfRange M :=
  ⟨k.MappingSpace, ⟨k.AddrRange.Start, k.AddrRange.End + UInt64.ofNat length⟩, k.Writable⟩

/-- The first `offset` addresses of `k`. -/
def splitFst (k : MappingOfRange M) (offset : ℕ) : MappingOfRange M :=
  ⟨k.MappingSpace, ⟨k.AddrRange.Start, k.AddrRange.Start + UInt64.ofNat offset⟩, k.Writable⟩

/-- The addresses of `k` after its first `offset`. -/
def splitSnd (k : MappingOfRange M) (offset : ℕ) : MappingOfRange M :=
  ⟨k.MappingSpace, ⟨k.AddrRange.Start + UInt64.ofNat offset, k.AddrRange.End⟩, k.Writable⟩

end MappingOfRange

def mappingSetFunctions : Functions (MappingsOfRange M) where
  minKey := 0
  maxKey := 2 ^ 64 - 1
  merge _ val1 r2 val2 :=
    if val1.card ≠ val2.card then none
    -- each mapping of `val1` must be continued by one of `val2`, forming one contiguous region
    else if ∀ k1 ∈ val1, k1.continuation r2.length ∈ val2 then
      some (val1.image fun k1 => k1.extend r2.length)
    else none
  -- the source panics where `split` is not strictly inside `r`; `Isolate` never splits there
  split r val split :=
    (val.image fun k => k.splitFst (split - r.Start), val.image fun k => k.splitSnd (split - r.Start))

/-- `subsetMapping`: the mapping of `subsetRange` by `ms`, which maps `wholeRange` from `addr`;
`none` where it panics, as `subsetRange` does not lie in `wholeRange`. -/
def subsetMapping (wholeRange subsetRange : Range) (ms : M) (addr : Usermem.Addr) (writable : Bool) :
    Option (MappingOfRange M) :=
  if !wholeRange.isSupersetOf subsetRange then none
  else
    let start := addr + UInt64.ofNat (subsetRange.Start - wholeRange.Start)
    some ⟨ms, ⟨start, start + UInt64.ofNat subsetRange.length⟩, writable⟩

/-- The offsets that the addresses `ar` map from `offset` on: `offset + uint64(ar.Length())`. -/
def mappableRange (ar : Usermem.AddrRange) (offset : ℕ) : Range :=
  ⟨offset, (offset + ar.length.toNat) % 2 ^ 64⟩

/-- The loop of `AddMapping` over `mr`, at the segment `seg` or the gap `gap`, the other one
terminal, with the ranges it found without mappings. -/
def addMappingLoop (ms : M) (ar : Usermem.AddrRange) (writable : Bool) (mr : Range) :
    ℕ → MappingSet M → ℕ → ℕ → List Range → Outcome Unit (MappingSet M × List Range)
  | 0, _, _, _, _ => .hang
  | fuel + 1, s, seg, gap, mapped =>
    if seg < s.length ∧ segStart s seg < mr.End then
      let (s, seg) := isolate mappingSetFunctions s seg mr
      match subsetMapping mr (segRange s seg) ms ar.Start writable with
      | some m =>
        let s := setValue s seg (insert m (value s seg))
        let (seg, gap) := nextNonEmpty mappingSetFunctions s seg
        addMappingLoop ms ar writable mr fuel s seg gap mapped
      | none => .panic
    else if gap ≤ s.length ∧ gapStart s mappingSetFunctions gap < mr.End then
      let gapMR := (gapRange s mappingSetFunctions gap).intersect mr
      -- an empty set of mappings, which the next turn fills as a segment
      match insertChecked mappingSetFunctions s gap gapMR ∅ with
      | some (s, seg) => addMappingLoop ms ar writable mr fuel s seg (s.length + 1) (mapped ++ [gapMR])
      | none => .panic
    else .ok (s, mapped)

/-- `MappingSet.AddMapping`: the set, and the ranges that had no mappings before. -/
def MappingSet.addMapping (s : MappingSet M) (ms : M) (ar : Usermem.AddrRange) (offset : ℕ)
    (writable : Bool) : Outcome Unit (MappingSet M × List Range) :=
  let mr := mappableRange ar offset
  let (seg, gap) := find s mr.Start
  addMappingLoop ms ar writable mr (2 * mr.End + 2) s seg gap []

/-- The loop of `RemoveMapping` over `mr`, from the segment `seg`, with the ranges it left
without mappings. -/
def removeMappingLoop (ms : M) (ar : Usermem.AddrRange) (writable : Bool) (mr : Range) :
    ℕ → MappingSet M → ℕ → List Range → Outcome Unit (MappingSet M × List Range)
  | 0, _, _, _ => .hang
  | fuel + 1, s, seg, unmapped =>
    if seg < s.length ∧ segStart s seg < mr.End then
      let (s, seg) := isolate mappingSetFunctions s seg mr
      match subsetMapping mr (segRange s seg) ms ar.Start writable with
      | some m =>
        let mappings := (value s seg).erase m
        let s := setValue s seg mappings
        if mappings.card = 0 then
          let unmapped := unmapped ++ [segRange s seg]
          -- `Remove(seg).NextSegment()`: the segment after the gap `Remove` leaves
          let (s, gap) := remove s seg
          removeMappingLoop ms ar writable mr fuel s gap unmapped
        else removeMappingLoop ms ar writable mr fuel s (seg + 1) unmapped
      | none => .panic
    else .ok (s, unmapped)

/-- `MappingSet.RemoveMapping`: the set, and the ranges that have no mappings now; it panics
where no segment holds the range's start. -/
def MappingSet.removeMapping (s : MappingSet M) (ms : M) (ar : Usermem.AddrRange) (offset : ℕ)
    (writable : Bool) : Outcome Unit (MappingSet M × List Range) :=
  let mr := mappableRange ar offset
  let seg := findSegment s mr.Start
  if seg < s.length then
    (removeMappingLoop ms ar writable mr (s.length + 1) s seg []).bind fun (s, unmapped) =>
      .ok (mergeAdjacent mappingSetFunctions s mr, unmapped)
  else .panic

/-- The loop of `Invalidate` over `mr`, from the segment `seg`: the `MappingSpace.Invalidate`
calls it makes, each as its `MappingSpace` and addresses. -/
def invalidateLoop (mr : Range) (s : MappingSet M) :
    ℕ → ℕ → Outcome Unit (Multiset (M × Usermem.AddrRange))
  | 0, _ => .hang
  | fuel + 1, seg =>
    if seg < s.length ∧ segStart s seg < mr.End then
      let segMR := segRange s seg
      let regions := (value s seg).val.map fun m =>
        subsetMapping segMR (segMR.intersect mr) m.MappingSpace m.AddrRange.Start m.Writable
      if none ∈ regions then .panic
      else
        (fun calls => (regions.filterMap id).map (fun region => (region.MappingSpace, region.AddrRange)) +
          calls) <$> invalidateLoop mr s fuel (seg + 1)
    else .ok 0

/-- `MappingSet.Invalidate`. -/
def MappingSet.invalidate (s : MappingSet M) (mr : Range) : Outcome Unit (Multiset (M × Usermem.AddrRange)) :=
  invalidateLoop mr s (s.length + 1) (lowerBoundSegment s mr.Start)

/-! What the set says of each offset, and what `Merge` and `Split` keep of it. -/

/-- A mapping's base, from its segment `r`: its `MappingSpace`, the address that maps the offset
0 were the mapping extended down to it, and whether it is writable. The mapping maps each offset
`x` of `r` at the base's address plus `x`. -/
def baseOf (r : Range) (k : MappingOfRange M) : M × Usermem.Addr × Bool :=
  (k.MappingSpace, k.AddrRange.Start - UInt64.ofNat r.Start, k.Writable)

/-- The bases of the mappings of a segment, which do not depend on the offset. -/
def basesOf (r : Range) (v : MappingsOfRange M) (_ : ℕ) : Finset (M × Usermem.Addr × Bool) :=
  v.image (baseOf r)

/-- The bases of the mappings of the offset `x`; `none` where no segment holds it. -/
def basesAt (s : MappingSet M) (x : ℕ) : Option (Finset (M × Usermem.Addr × Bool)) :=
  readAt basesOf s x

/-- The mappings of the offset `x`: the `MappingSpace`, address and writability of each. -/
def mappingsAt (s : MappingSet M) (x : ℕ) : Finset (M × Usermem.Addr × Bool) :=
  (readAt (fun r v x => v.image fun k =>
    (k.MappingSpace, k.AddrRange.Start + UInt64.ofNat (x - r.Start), k.Writable)) s x).getD ∅

/-- The mapping of base `b` maps the offset `x` at this address. -/
def atOffset (x : ℕ) (b : M × Usermem.Addr × Bool) : M × Usermem.Addr × Bool :=
  (b.1, b.2.1 + UInt64.ofNat x, b.2.2)

/-- The base of the mapping that `AddMapping` and `RemoveMapping` of `ar` at `offset` name. -/
def mappingBase (ms : M) (ar : Usermem.AddrRange) (offset : ℕ) (writable : Bool) :
    M × Usermem.Addr × Bool :=
  (ms, ar.Start - UInt64.ofNat offset, writable)

/-- `k` maps as many addresses as `r` has offsets, without wrapping. -/
def Fits (r : Range) (k : MappingOfRange M) : Prop :=
  k.AddrRange.Start.toNat + r.length = k.AddrRange.End.toNat

/-- Every mapping of the segment `r` fits it. -/
def Sized (r : Range) (v : MappingsOfRange M) : Prop := ∀ k ∈ v, Fits r k

/-- The invariant of each segment: it holds mappings, and each fits it. -/
def SegInv (r : Range) (v : MappingsOfRange M) : Prop := v.Nonempty ∧ Sized r v

/-- The preconditions of `Mappable.AddMapping` and `RemoveMapping` on their ranges: the
addresses are a non-empty range that does not wrap, and `offset + ar.Length()` does not
overflow. -/
structure RangesOk (ar : Usermem.AddrRange) (offset : ℕ) : Prop where
  start_lt_end : ar.Start < ar.End
  no_overflow : offset + ar.length.toNat < 2 ^ 64

section Segments

variable {r r1 r2 p : Range} {v v1 v2 m : MappingsOfRange M} {k : MappingOfRange M}
  {ar : Usermem.AddrRange} {offset y : ℕ}

omit [DecidableEq M] in
theorem add_ofNat_sub (a : UInt64) {x y : ℕ} (h : x ≤ y) :
    a + UInt64.ofNat (y - x) - UInt64.ofNat y = a - UInt64.ofNat x := by
  rw [UInt64.ofNat_sub h]
  abel

omit [DecidableEq M] in
theorem toNat_add_ofNat {a : UInt64} {d : ℕ} (h : a.toNat + d < 2 ^ 64) :
    (a + UInt64.ofNat d).toNat = a.toNat + d := by
  rw [UInt64.toNat_add, UInt64.toNat_ofNat']
  omega

/-- `erase` moves through an image that is injective where it matters. -/
theorem image_erase_of_injOn {α β : Type*} [DecidableEq α] [DecidableEq β] {f : α → β}
    {s : Finset α} {a : α} (hf : Set.InjOn f ↑(insert a s)) :
    (s.erase a).image f = (s.image f).erase (f a) := by
  ext b
  simp only [Finset.mem_image, Finset.mem_erase]
  constructor
  · rintro ⟨c, ⟨hca, hc⟩, rfl⟩
    exact ⟨fun h => hca (hf (by simp [hc]) (by simp) h), c, hc, rfl⟩
  · rintro ⟨hb, c, hc, rfl⟩
    exact ⟨c, ⟨fun h => hb (by rw [h]), hc⟩, rfl⟩

theorem mappingsAt_eq (s : MappingSet M) (x : ℕ) :
    mappingsAt s x = ((basesAt s x).getD ∅).image (atOffset x) := by
  unfold mappingsAt basesAt readAt lookup
  cases h : s.find? fun q => q.1.contains x with
  | none => rfl
  | some q =>
    have hx := List.find?_some (p := fun q : Range × MappingsOfRange M => q.1.contains x) h
    rw [Range.contains_iff] at hx
    simp only [Option.map_some, Option.getD_some, basesOf, Finset.image_image]
    refine Finset.image_congr fun k _ => ?_
    simp only [Function.comp, atOffset, baseOf]
    rw [← add_ofNat_sub k.AddrRange.Start hx.1, sub_add_cancel]

omit [DecidableEq M] in
theorem Fits.end_eq (h : Fits r k) : k.AddrRange.End = k.AddrRange.Start + UInt64.ofNat r.length := by
  have hlt := UInt64.toNat_lt k.AddrRange.End
  rw [← UInt64.toNat_inj, UInt64.toNat_add, UInt64.toNat_ofNat']
  unfold Fits at h
  omega

omit [DecidableEq M] in
/-- The bases of the mappings that fit a segment tell the mappings apart. -/
theorem Sized.injOn (h : Sized r v) : Set.InjOn (baseOf r) (v : Set (MappingOfRange M)) := by
  intro k hk k' hk' he
  have he1 := (h k hk).end_eq
  have he2 := (h k' hk').end_eq
  obtain ⟨ms, ⟨st, en⟩, w⟩ := k
  obtain ⟨ms', ⟨st', en'⟩, w'⟩ := k'
  simp only [baseOf, Prod.mk.injEq, sub_left_inj] at he
  obtain ⟨rfl, rfl, rfl⟩ := he
  dsimp only at he1 he2
  rw [he1, he2]

theorem Sized.insert (h : Sized r v) (hk : Fits r k) : Sized r (insert k v) := by
  intro k' hk'
  rcases Finset.mem_insert.1 hk' with rfl | hk'
  · exact hk
  · exact h k' hk'

theorem Sized.erase (h : Sized r v) (k : MappingOfRange M) : Sized r (v.erase k) :=
  fun k' hk' => h k' (Finset.mem_of_mem_erase hk')

/-- `Merge` of a first segment whose mappings fit it: the second segment's mappings are the
continuations of the first's, and the merged ones their extensions. -/
theorem merge_eq_some (hs : Sized r1 v1) (hm : mappingSetFunctions.merge r1 v1 r2 v2 = some m) :
    v2 = v1.image (·.continuation r2.length) ∧ m = v1.image (·.extend r2.length) ∧
      ∀ k1 ∈ v1, k1.continuation r2.length ∈ v2 := by
  simp only [mappingSetFunctions] at hm
  split_ifs at hm with hc hall
  cases hm
  -- a continuation starts where its mapping ends, which fixes the mapping
  have hinj : Set.InjOn (fun k : MappingOfRange M => k.continuation r2.length)
      (v1 : Set (MappingOfRange M)) := by
    intro k hk k' hk' he
    have he1 := (hs k hk).end_eq
    have he2 := (hs k' hk').end_eq
    obtain ⟨ms, ⟨st, en⟩, w⟩ := k
    obtain ⟨ms', ⟨st', en'⟩, w'⟩ := k'
    simp only [MappingOfRange.continuation, MappingOfRange.mk.injEq, Usermem.AddrRange.mk.injEq] at he
    obtain ⟨rfl, ⟨rfl, -⟩, rfl⟩ := he
    dsimp only at he1 he2
    rw [he1, add_left_inj] at he2
    rw [he2]
  refine ⟨(Finset.eq_of_subset_of_card_le ?_ ?_).symm, rfl, hall⟩
  · intro k hk
    obtain ⟨k1, hk1, rfl⟩ := Finset.mem_image.1 hk
    exact hall k1 hk1
  · rw [Finset.card_image_of_injOn hinj]
    omega

omit [DecidableEq M] in
theorem Fits.splitFst (h : Fits r k) (hy : r.Start ≤ y) (hy' : y ≤ r.End) :
    Fits ⟨r.Start, y⟩ (k.splitFst (y - r.Start)) := by
  have hlt := UInt64.toNat_lt k.AddrRange.End
  unfold Fits Range.length at h ⊢
  rw [MappingOfRange.splitFst, toNat_add_ofNat (by omega)]

omit [DecidableEq M] in
theorem Fits.splitSnd (h : Fits r k) (hy : r.Start ≤ y) (hy' : y ≤ r.End) :
    Fits ⟨y, r.End⟩ (k.splitSnd (y - r.Start)) := by
  have hlt := UInt64.toNat_lt k.AddrRange.End
  unfold Fits Range.length at h ⊢
  rw [MappingOfRange.splitSnd, toNat_add_ofNat (by omega)]
  dsimp only
  omega

omit [DecidableEq M] in
/-- A mapping that fits the first of two adjacent segments, extended by a continuation that fits
the second, fits both. -/
theorem Fits.extend (h1 : Fits r1 k) (h2 : Fits r2 (k.continuation r2.length)) (he : r1.End = r2.Start)
    (hr1 : r1.Start ≤ r1.End) (hr2 : r2.Start ≤ r2.End) : Fits ⟨r1.Start, r2.End⟩ (k.extend r2.length) := by
  unfold Fits Range.length at h1
  unfold Fits Range.length MappingOfRange.continuation at h2
  unfold Fits Range.length MappingOfRange.extend
  dsimp only at h2 ⊢
  omega

theorem segsPreserve : SegsPreserve mappingSetFunctions (SegInv (M := M)) where
  merge r1 v1 r2 v2 m h1 he h2 hv1 hv2 hm := by
    obtain ⟨-, rfl, hall⟩ := merge_eq_some hv1.2 hm
    refine ⟨hv1.1.image _, fun k hk => ?_⟩
    obtain ⟨k1, hk1, rfl⟩ := Finset.mem_image.1 hk
    exact (hv1.2 k1 hk1).extend (hv2.2 _ (hall k1 hk1)) he h1.le h2.le
  split r v y hy hv := by
    rw [Range.canSplitAt_iff] at hy
    refine ⟨⟨hv.1.image _, fun k hk => ?_⟩, ⟨hv.1.image _, fun k hk => ?_⟩⟩
    · obtain ⟨k0, hk0, rfl⟩ := Finset.mem_image.1 hk
      exact (hv.2 k0 hk0).splitFst hy.1.le hy.2.le
    · obtain ⟨k0, hk0, rfl⟩ := Finset.mem_image.1 hk
      exact (hv.2 k0 hk0).splitSnd hy.1.le hy.2.le

theorem splitKeeps_bases : SplitKeeps mappingSetFunctions (basesOf (M := M)) := by
  intro r v y hy
  rw [Range.canSplitAt_iff] at hy
  refine ⟨fun _ _ _ => ?_, fun _ _ _ => ?_⟩
  · simp only [basesOf, mappingSetFunctions, Finset.image_image]
    exact Finset.image_congr fun _ _ => rfl
  · simp only [basesOf, mappingSetFunctions, Finset.image_image]
    refine Finset.image_congr fun k _ => ?_
    simp only [Function.comp, baseOf, MappingOfRange.splitSnd, add_ofNat_sub _ hy.1.le]

theorem mergeKeeps_bases : MergeKeeps mappingSetFunctions (basesOf (M := M)) SegInv := by
  intro r1 v1 r2 v2 m h1 he h2 hv1 hv2 hm
  obtain ⟨rfl, rfl, -⟩ := merge_eq_some hv1.2 hm
  refine ⟨fun _ _ => ?_, fun _ _ => ?_⟩
  · simp only [basesOf, Finset.image_image]
    exact Finset.image_congr fun _ _ => rfl
  · simp only [basesOf, Finset.image_image]
    refine Finset.image_congr fun k hk => ?_
    -- the continuation's base is the mapping's, as the mapping fits the first segment
    simp only [Function.comp, baseOf, MappingOfRange.extend, MappingOfRange.continuation,
      (hv1.2 k hk).end_eq, ← he, Range.length, add_ofNat_sub _ h1.le]

theorem basesOf_insert (x : ℕ) : basesOf p (insert k v) x = insert (baseOf p k) (basesOf p v x) :=
  Finset.image_insert _ _ _

/-- Deleting a mapping that fits the segment deletes its base. -/
theorem basesOf_erase (h : Sized p v) (hk : Fits p k) (x : ℕ) :
    basesOf p (v.erase k) x = (basesOf p v x).erase (baseOf p k) :=
  image_erase_of_injOn (h.insert hk).injOn

namespace RangesOk

variable (ha : RangesOk ar offset)
include ha

omit [DecidableEq M] in
theorem length_toNat : ar.Start.toNat + ar.length.toNat = ar.End.toNat := by
  have h := UInt64.lt_iff_toNat_lt.1 ha.start_lt_end
  rw [Usermem.AddrRange.length, UInt64.toNat_sub_of_le _ _ (UInt64.le_iff_toNat_le.2 h.le)]
  omega

omit [DecidableEq M] in
theorem mappableRange_eq : mappableRange ar offset = ⟨offset, offset + ar.length.toNat⟩ := by
  rw [mappableRange, Nat.mod_eq_of_lt ha.no_overflow]

omit [DecidableEq M] in
theorem contains_iff {x : ℕ} :
    (mappableRange ar offset).contains x ↔ offset ≤ x ∧ x < offset + ar.length.toNat := by
  rw [ha.mappableRange_eq, Range.contains_iff]

omit [DecidableEq M] in
theorem start_lt : (mappableRange ar offset).Start < (mappableRange ar offset).End := by
  have h := UInt64.lt_iff_toNat_lt.1 ha.start_lt_end
  have hl := ha.length_toNat
  rw [ha.mappableRange_eq]
  dsimp only
  omega

theorem end_le_maxKey :
    (mappableRange ar offset).End ≤ (mappingSetFunctions : Functions (MappingsOfRange M)).maxKey := by
  have h := ha.no_overflow
  rw [ha.mappableRange_eq]
  show offset + ar.length.toNat ≤ 2 ^ 64 - 1
  omega

omit [DecidableEq M] in
/-- The mapping that `AddMapping` and `RemoveMapping` name for a part `p` of their range: it fits
`p`, and has their base. -/
theorem subsetMapping_eq (ms : M) (writable : Bool) (hp1 : offset ≤ p.Start)
    (hp2 : p.End ≤ (mappableRange ar offset).End) (hp : p.Start ≤ p.End) :
    ∃ m, subsetMapping (mappableRange ar offset) p ms ar.Start writable = some m ∧ Fits p m ∧
      baseOf p m = mappingBase ms ar offset writable := by
  have hlen := ha.length_toNat
  have hlt := UInt64.toNat_lt ar.End
  rw [ha.mappableRange_eq] at hp2 ⊢
  dsimp only at hp2
  unfold subsetMapping
  rw [if_neg (by simp only [Range.isSupersetOf]; simp; omega)]
  refine ⟨_, rfl, ?_, ?_⟩
  · unfold Fits Range.length
    dsimp only
    rw [toNat_add_ofNat (by omega), toNat_add_ofNat (by rw [toNat_add_ofNat (by omega)]; omega),
      toNat_add_ofNat (by omega)]
  · simp only [baseOf, mappingBase, add_ofNat_sub _ hp1]

end RangesOk

omit [DecidableEq M] in
/-- The region `Invalidate` computes for a mapping `k` of the segment `r` that meets `mr` exists,
and its addresses are those at which `k` maps the offsets of `r` in `mr`. -/
theorem Fits.invalidateRegion {mr : Range} (hk : Fits r k) (hr : r.Start < r.End) (h1 : mr.Start < r.End)
    (h2 : r.Start < mr.End) :
    ∃ region, subsetMapping r (r.intersect mr) k.MappingSpace k.AddrRange.Start k.Writable = some region ∧
      region.MappingSpace = k.MappingSpace ∧ ∀ a : Usermem.Addr,
        (region.AddrRange.Start ≤ a ∧ a < region.AddrRange.End) ↔
          ∃ x, r.contains x ∧ mr.contains x ∧ a = k.AddrRange.Start + UInt64.ofNat (x - r.Start) := by
  have hsup : r.isSupersetOf (r.intersect mr) = true := by
    simp only [Range.isSupersetOf, Range.intersect_start, Range.intersect_end, Bool.and_eq_true,
      decide_eq_true_eq]
    omega
  refine ⟨_, by rw [subsetMapping, hsup]; rfl, ?_⟩
  refine ⟨rfl, fun a => ?_⟩
  -- no address wraps, as the mapping of `r` fits below `2^64`
  have hfit : k.AddrRange.Start.toNat + r.length < 2 ^ 64 := hk ▸ UInt64.toNat_lt _
  have hd : (r.intersect mr).Start - r.Start + (r.intersect mr).length ≤ r.length := by
    simp only [Range.length, Range.intersect_start, Range.intersect_end]
    omega
  have hs : (k.AddrRange.Start + UInt64.ofNat ((r.intersect mr).Start - r.Start)).toNat =
      k.AddrRange.Start.toNat + ((r.intersect mr).Start - r.Start) := toNat_add_ofNat (by omega)
  have he : (k.AddrRange.Start + UInt64.ofNat ((r.intersect mr).Start - r.Start) +
      UInt64.ofNat (r.intersect mr).length).toNat =
      k.AddrRange.Start.toNat + ((r.intersect mr).Start - r.Start) + (r.intersect mr).length := by
    rw [toNat_add_ofNat (by omega), hs]
  dsimp only
  rw [UInt64.le_iff_toNat_le, UInt64.lt_iff_toNat_lt, hs, he]
  simp only [Range.length, Range.intersect_start, Range.intersect_end] at hd ⊢
  constructor
  · rintro ⟨ha1, ha2⟩
    refine ⟨r.Start + (a.toNat - k.AddrRange.Start.toNat), Range.contains_iff.2 (by omega),
      Range.contains_iff.2 (by omega), UInt64.toNat_inj.1 ?_⟩
    rw [toNat_add_ofNat (by simp only [Range.length] at hfit; omega)]
    omega
  · rintro ⟨x, hx, hmx, rfl⟩
    rw [Range.contains_iff] at hx hmx
    rw [toNat_add_ofNat (by simp only [Range.length] at hfit; omega)]
    omega

variable {s : MappingSet M} {seg gap x : ℕ}

/-- Over a segment, the mappings of an offset are those of the segment, moved to it. -/
theorem mappingsAt_of_contains (hw : WellFormed mappingSetFunctions s) (hseg : seg < s.length)
    (hx : (segRange s seg).contains x) :
    mappingsAt s x = (value s seg).image fun k =>
      (k.MappingSpace, k.AddrRange.Start + UInt64.ofNat (x - (segRange s seg).Start), k.Writable) := by
  rw [mappingsAt, readAt_of_contains hw hseg hx]
  rfl

theorem mappingsAt_of_gap (hw : WellFormed mappingSetFunctions s) (hg : gap ≤ s.length)
    (hx : gapStart s mappingSetFunctions gap ≤ x ∧ x < gapEnd s mappingSetFunctions gap) :
    mappingsAt s x = ∅ := by
  rw [mappingsAt, readAt_of_gap hw hg hx]
  rfl

theorem mappingsAt_of_maxKey_le (hw : WellFormed mappingSetFunctions s)
    (hx : (mappingSetFunctions : Functions (MappingsOfRange M)).maxKey ≤ x) : mappingsAt s x = ∅ := by
  rw [mappingsAt, readAt_of_maxKey_le hw hx]
  rfl

/-- Where no segment holds an empty map, an offset has no mapping exactly where no segment holds
it. -/
theorem mappingsAt_eq_empty (hs : Segs SegInv s) : mappingsAt s x = ∅ ↔ basesAt s x = none := by
  rw [mappingsAt_eq]
  cases h : basesAt s x with
  | none => simp
  | some B =>
    obtain ⟨p, hp, -, rfl⟩ := exists_of_readAt_eq_some h
    simp only [Option.getD_some, Finset.image_eq_empty, reduceCtorEq, iff_false]
    exact ((hs p hp).1.image _).ne_empty

end Segments

end Memmap
