import Mathlib.Data.List.TakeWhile
import Mathlib.Data.UInt
import Gvisor.Tcp.Sack
import Gvisor.Lib.IntervalCover
import Gvisor.Lib.List
import Gvisor.Lib.Reachable

/-! The SACK scoreboard as a set of sequence numbers
(pkg/tcpip/transport/tcp/sack_scoreboard.go). Within `2^31` past a base the
ranges of the tree form a `Chain`: each is nonempty, and each ends before the
next one starts. The in-order list is then sorted by `Start`, its ranges are
disjoint and no two are adjacent, and `SACKBlock.Less` orders the distances of
the starts from the base.

On a chain, `Insert` merges the new range with every range it overlaps or
touches. The ascending walk and the descending walk each grow it (`Grown`), and
what is left to delete is placed by `Placed`. `Delete` cuts the ranges at `seq`
as the receiver's `trimBlock` does. `IsSACKED` looks at the range just below.
`sacked` stays the sum of the lengths of the ranges throughout. -/

namespace Tcp

open SeqNum HalfOpen OrderedSet

variable {T : Type} [OrderedSet T SACKBlock]

namespace SACKBlock

variable {base : Value} {a b : SACKBlock}

theorem ival_inj (h : a.ival base = b.ival base) : a = b := by
  have hs : ∀ v w : Value, (base.size v).toNat = (base.size w).toNat → v = w := by
    intro v w hvw
    simp only [Value.size, UInt32.toNat_sub] at hvw
    apply UInt32.toNat_inj.1
    have := v.toNat_lt
    have := w.toNat_lt
    have := base.toNat_lt
    omega
  obtain ⟨s1, e1⟩ := a
  obtain ⟨s2, e2⟩ := b
  simp only [ival, Prod.mk.injEq] at h
  rw [hs s1 s2 h.1, hs e1 e2 h.2]

/-- `Less` is the order of the starts' distances from the base. -/
theorem less_iff (ha : (a.ival base).1 < 2 ^ 31) (hb : (b.ival base).1 < 2 ^ 31) :
    a.less b = true ↔ (a.ival base).1 < (b.ival base).1 :=
  Value.lessThan_iff_size_lt base ha hb

theorem less_eq_false (ha : (a.ival base).1 < 2 ^ 31) (hb : (b.ival base).1 < 2 ^ 31) :
    a.less b = false ↔ (b.ival base).1 ≤ (a.ival base).1 := by
  rw [← Bool.not_eq_true, less_iff ha hb, Nat.not_lt]

theorem contains_iff (ha : a.Fits base) (hb : b.Fits base) :
    a.contains b = true ↔ (a.ival base).1 ≤ (b.ival base).1 ∧ (b.ival base).2 ≤ (a.ival base).2 := by
  rw [contains, Bool.and_eq_true, Value.lessThanEq_iff_size_le base ha.start_lt hb.start_lt,
    Value.lessThanEq_iff_size_le base hb.2 ha.2]
  rfl

theorem toNat_size (hb : b.Fits base) :
    (b.Start.size b.End).toNat = (b.ival base).2 - (b.ival base).1 :=
  Value.size_eq_sub_size base hb.1.le

end SACKBlock

/-- The ranges of a scoreboard as the tree keeps them, `2^31` past `base`:
each fits, and each ends before any later one starts. -/
structure Chain (base : Value) (ranges : List SACKBlock) : Prop where
  fits : ∀ b ∈ ranges, b.Fits base
  sorted : ranges.Pairwise fun a b => (a.ival base).2 < (b.ival base).1

namespace Chain

variable {base : Value} {l l' : List SACKBlock} {a b c d r : SACKBlock}

theorem nil : Chain base [] := ⟨fun _ hb => absurd hb List.not_mem_nil, List.Pairwise.nil⟩

theorem sublist (h : Chain base l) (hs : l'.Sublist l) : Chain base l' :=
  ⟨fun b hb => h.fits b (hs.subset hb), h.sorted.sublist hs⟩

theorem tail (h : Chain base (c :: l)) : Chain base l := h.sublist (List.sublist_cons_self c l)

/-- The order of a chain with the fit of both ranges at hand. -/
theorem ordered (h : Chain base l) :
    l.Pairwise fun a b => a.Fits base ∧ b.Fits base ∧ (a.ival base).2 < (b.ival base).1 :=
  h.sorted.imp_of_mem fun ha hb hab => ⟨h.fits _ ha, h.fits _ hb, hab⟩

theorem nodup (h : Chain base l) : l.Nodup :=
  h.ordered.imp fun ⟨ha, _, hab⟩ heq => by
    subst heq
    exact absurd ha.1 (Nat.lt_asymm hab)

/-- Two ranges of a chain with one start are one range. -/
theorem eq_of_start (h : Chain base l) (ha : a ∈ l) (hb : b ∈ l)
    (hs : (a.ival base).1 = (b.ival base).1) : a = b := by
  induction l with
  | nil => exact absurd ha List.not_mem_nil
  | cons c rest ih =>
    have hc := (List.pairwise_cons.1 h.sorted).1
    have hc1 := (h.fits c List.mem_cons_self).1
    rcases List.mem_cons.1 ha with hac | ha' <;> rcases List.mem_cons.1 hb with hbc | hb'
    · rw [hac, hbc]
    · have := hc b hb'
      rw [hac] at hs
      omega
    · have := hc a ha'
      rw [hbc] at hs
      omega
    · exact ih h.tail ha' hb'

/-- A range of a chain that starts before another ends before it. -/
theorem end_lt_of_start_lt (h : Chain base l) (ha : a ∈ l) (hb : b ∈ l)
    (hs : (a.ival base).1 < (b.ival base).1) : (a.ival base).2 < (b.ival base).1 := by
  induction l with
  | nil => exact absurd ha List.not_mem_nil
  | cons c rest ih =>
    have hc := (List.pairwise_cons.1 h.sorted).1
    rcases List.mem_cons.1 ha with rfl | ha' <;> rcases List.mem_cons.1 hb with rfl | hb'
    · exact absurd hs (Nat.lt_irrefl _)
    · exact hc b hb'
    · have := hc a ha'
      have := (h.fits b List.mem_cons_self).1
      omega
    · exact ih h.tail ha' hb'

/-- A range that fails the test of a `takeWhile` is in what it leaves. -/
theorem mem_dropWhile_of_false {p : SACKBlock → Bool} (hb : b ∈ l) (hp : p b = false) :
    b ∈ l.dropWhile p := by
  rw [← List.takeWhile_append_dropWhile (p := p) (l := l)] at hb
  rcases List.mem_append.1 hb with hb | hb
  · exact absurd (List.mem_takeWhile_imp hb) (by simp [hp])
  · exact hb

/-- What `AscendGreaterOrEqual` walks starts at or after the pivot. -/
theorem le_of_mem_dropWhile_less (h : Chain base l) (hr : (r.ival base).1 < 2 ^ 31)
    (hi : b ∈ l.dropWhile (·.less r)) : (r.ival base).1 ≤ (b.ival base).1 := by
  have hp : ∀ x y : SACKBlock, (x.Fits base ∧ y.Fits base ∧ (x.ival base).2 < (y.ival base).1) →
      x.less r = false → y.less r = false := by
    rintro x y ⟨hx, hy, hxy⟩ hxr
    rw [SACKBlock.less_eq_false hx.start_lt hr] at hxr
    rw [SACKBlock.less_eq_false hy.start_lt hr]
    have := hx.1
    omega
  have hb := h.fits b ((List.dropWhile_sublist _).subset hi)
  exact (SACKBlock.less_eq_false hb.start_lt hr).1 (List.forall_mem_dropWhile hp h.ordered b hi)

/-- What `DescendLessOrEqual` leaves out starts after the pivot. -/
theorem lt_of_mem_dropWhile_not_less (h : Chain base l) (hr : (r.ival base).1 < 2 ^ 31)
    (hi : b ∈ l.dropWhile fun i => !r.less i) : (r.ival base).1 < (b.ival base).1 := by
  have hp : ∀ x y : SACKBlock, (x.Fits base ∧ y.Fits base ∧ (x.ival base).2 < (y.ival base).1) →
      (!r.less x) = false → (!r.less y) = false := by
    rintro x y ⟨hx, hy, hxy⟩ hxr
    rw [Bool.not_eq_false', SACKBlock.less_iff hr hx.start_lt] at hxr
    rw [Bool.not_eq_false', SACKBlock.less_iff hr hy.start_lt]
    have := hx.1
    omega
  have hb := h.fits b ((List.dropWhile_sublist _).subset hi)
  have := List.forall_mem_dropWhile hp h.ordered b hi
  rwa [Bool.not_eq_false', SACKBlock.less_iff hr hb.start_lt] at this

theorem le_of_mem_takeWhile_not_less (hr : (r.ival base).1 < 2 ^ 31) (hb : b.Fits base)
    (hi : b ∈ l.takeWhile fun i => !r.less i) : (b.ival base).1 ≤ (r.ival base).1 := by
  have := List.mem_takeWhile_imp hi
  rwa [Bool.not_eq_true', SACKBlock.less_eq_false hr hb.start_lt] at this

/-- `DescendLessOrEqual` walks every range that starts at or before the pivot. -/
theorem mem_takeWhile_not_less (h : Chain base l) (hr : (r.ival base).1 < 2 ^ 31) (hb : b ∈ l)
    (hle : (b.ival base).1 ≤ (r.ival base).1) : b ∈ l.takeWhile fun i => !r.less i := by
  rw [← List.takeWhile_append_dropWhile (p := fun i => !r.less i) (l := l)] at hb
  rcases List.mem_append.1 hb with hb | hb
  · exact hb
  · exact absurd hle (Nat.not_le.2 (h.lt_of_mem_dropWhile_not_less hr hb))

/-- `DescendLessOrEqual` on a chain is empty when every range starts after the
pivot. Otherwise it begins with the last range `j` that starts at or before the
pivot, and goes on with ranges that end before `j`; every other range ends
before `j`, or starts after the pivot and after `j`. -/
theorem descend_cases (h : Chain base l) (hr : (r.ival base).1 < 2 ^ 31) :
    ((l.takeWhile fun i => !r.less i).reverse = [] ∧ ∀ b ∈ l, (r.ival base).1 < (b.ival base).1) ∨
      ∃ j W, (l.takeWhile fun i => !r.less i).reverse = j :: W ∧ j ∈ l ∧ (j.ival base).1 ≤ (r.ival base).1 ∧
        (∀ k ∈ W, k ∈ l ∧ (k.ival base).2 < (j.ival base).1) ∧
        ∀ b ∈ l, b = j ∨ (b.ival base).2 < (j.ival base).1 ∨
          ((r.ival base).1 < (b.ival base).1 ∧ (j.ival base).2 < (b.ival base).1) := by
  have hsplit := List.takeWhile_append_dropWhile (p := fun i => !r.less i) (l := l)
  have hTle : ∀ k ∈ l.takeWhile fun i => !r.less i, (k.ival base).1 ≤ (r.ival base).1 :=
    fun k hk => le_of_mem_takeWhile_not_less hr (h.fits k ((List.takeWhile_sublist _).subset hk)) hk
  have hUgt : ∀ k ∈ l.dropWhile fun i => !r.less i, (r.ival base).1 < (k.ival base).1 :=
    fun k hk => h.lt_of_mem_dropWhile_not_less hr hk
  generalize l.takeWhile (fun i => !r.less i) = T at hsplit hTle ⊢
  generalize l.dropWhile (fun i => !r.less i) = U at hsplit hUgt
  subst hsplit
  rcases List.eq_nil_or_concat T with rfl | ⟨T0, j, rfl⟩
  · exact .inl ⟨rfl, hUgt⟩
  · rw [List.concat_eq_append] at h hTle ⊢
    have hpw := List.pairwise_append.1 h.sorted
    have hT0j : ∀ k ∈ T0, (k.ival base).2 < (j.ival base).1 := fun k hk =>
      (List.pairwise_append.1 hpw.1).2.2 k hk j (List.mem_singleton_self j)
    refine .inr ⟨j, T0.reverse, by simp, by simp, hTle j (by simp), fun k hk => ?_, fun b hb => ?_⟩
    · have hk := List.mem_reverse.1 hk
      exact ⟨by simp [hk], hT0j k hk⟩
    · rcases List.mem_append.1 hb with hb | hb
      · rcases List.mem_append.1 hb with hb | hb
        · exact .inr (.inl (hT0j b hb))
        · exact .inl (List.mem_singleton.1 hb)
      · exact .inr (.inr ⟨hUgt b hb, hpw.2.2 j (by simp) b hb⟩)

/-- Within `2^31` past the base, `Less` is the order of the starts'
distances, so the library's promises hold at a pivot that fits. -/
theorem orderedBy (h : Chain base l) (hr : (r.ival base).1 < 2 ^ 31) :
    OrderedBy (fun b => (b.ival base).1) (r :: l) := by
  have hlt : ∀ b ∈ r :: l, (b.ival base).1 < 2 ^ 31 := by
    intro b hb
    rcases List.mem_cons.1 hb with rfl | hb
    · exact hr
    · exact (h.fits b hb).start_lt
  intro a ha b hb
  exact SACKBlock.less_iff (hlt a ha) (hlt b hb)

/-- A chain is in the order of `Less`. -/
theorem inOrder (h : Chain base l) : InOrder l :=
  h.ordered.imp fun ⟨ha, hb, hab⟩ =>
    (SACKBlock.less_iff ha.start_lt hb.start_lt).2 (by have := ha.1; omega)

end Chain

/-- The sum of the lengths of the ranges, as `Sacked` counts it. -/
def sumLengths (ranges : List SACKBlock) : Size := (ranges.map fun b => b.Start.size b.End).sum

@[simp] theorem sumLengths_nil : sumLengths [] = 0 := rfl

@[simp] theorem sumLengths_cons (b : SACKBlock) (l : List SACKBlock) :
    sumLengths (b :: l) = b.Start.size b.End + sumLengths l := by
  simp [sumLengths]

@[simp] theorem sumLengths_append (l l' : List SACKBlock) :
    sumLengths (l ++ l') = sumLengths l + sumLengths l' := by
  simp [sumLengths]

@[simp] theorem sumLengths_reverse (l : List SACKBlock) : sumLengths l.reverse = sumLengths l := by
  simp [sumLengths, List.sum_reverse]

section Tree

variable {base : Value} {l : List SACKBlock} {d r : SACKBlock}

/-- `BTree.Delete` on a chain, by a range that is the only one of its start:
it removes that range if it is there. -/
theorem sortedDelete_spec (hl : Chain base l) (hd : d.Fits base)
    (hkey : ∀ b ∈ l, (b.ival base).1 = (d.ival base).1 → b = d) :
    sortedDelete l d = if d ∈ l then (l.erase d, some d) else (l, none) := by
  induction l with
  | nil => simp [sortedDelete]
  | cons c rest ih =>
    have hc := hl.fits c List.mem_cons_self
    have ih' := ih hl.tail fun b hb => hkey b (List.mem_cons_of_mem c hb)
    by_cases hcd : c.less d = true
    · -- `c` comes first and is not `d`
      have hne : c ≠ d := by
        rintro rfl
        exact absurd ((SACKBlock.less_iff hc.start_lt hc.start_lt).1 hcd) (Nat.lt_irrefl _)
      simp only [sortedDelete, item_less, hcd, ↓reduceIte, ih', List.mem_cons, hne.symm, false_or]
      split
      · simp [hne]
      · rfl
    · by_cases hdc : d.less c = true
      · -- `d` would come before `c`, and every later range starts after `c`
        have hlt := (SACKBlock.less_iff hd.start_lt hc.start_lt).1 hdc
        have hn : d ∉ c :: rest := by
          intro hm
          rcases List.mem_cons.1 hm with rfl | hm
          · exact Nat.lt_irrefl _ hlt
          · have := (List.pairwise_cons.1 hl.sorted).1 d hm
            have := hc.1
            omega
        simp only [sortedDelete, item_less, hcd, hdc, Bool.false_eq_true, ↓reduceIte, hn]
      · -- the same start: `c` is `d`
        have hs : (c.ival base).1 = (d.ival base).1 := by
          rw [Bool.not_eq_true, SACKBlock.less_eq_false hc.start_lt hd.start_lt] at hcd
          rw [Bool.not_eq_true, SACKBlock.less_eq_false hd.start_lt hc.start_lt] at hdc
          omega
        obtain rfl := hkey c List.mem_cons_self hs
        simp [sortedDelete, hcd]

/-- `BTree.ReplaceOrInsert` on a chain, by a range that every range of the
chain is or lies apart from: it replaces that range by itself, or puts the new
one in its place in the order. -/
theorem sortedReplaceOrInsert_spec (hl : Chain base l) (hr : r.Fits base)
    (happ : ∀ b ∈ l, b = r ∨ Apart (b.ival base) (r.ival base)) :
    (r ∈ l ∧ sortedReplaceOrInsert l r = (l, some r)) ∨
      (r ∉ l ∧ (sortedReplaceOrInsert l r).2 = none ∧ Chain base (sortedReplaceOrInsert l r).1 ∧
        (sortedReplaceOrInsert l r).1.Perm (r :: l)) := by
  induction l with
  | nil =>
    refine .inr ⟨List.not_mem_nil, rfl, ⟨by simpa [sortedReplaceOrInsert] using hr, by simp [sortedReplaceOrInsert]⟩,
      List.Perm.refl _⟩
  | cons c rest ih =>
    have hc := hl.fits c List.mem_cons_self
    have hrest := (List.pairwise_cons.1 hl.sorted).1
    have hcr := happ c List.mem_cons_self
    by_cases hlt : c.less r = true
    · -- `c` comes first and ends before `r` starts
      rw [SACKBlock.less_iff hc.start_lt hr.start_lt] at hlt
      have hne : c ≠ r := by
        rintro rfl
        exact Nat.lt_irrefl _ hlt
      have hbefore : (c.ival base).2 < (r.ival base).1 := by
        have := hr.1
        simp only [hne, false_or, Apart] at hcr
        omega
      have hlt' : c.less r = true := (SACKBlock.less_iff hc.start_lt hr.start_lt).2 hlt
      rcases ih hl.tail fun b hb => happ b (List.mem_cons_of_mem c hb) with
        ⟨hm, heq⟩ | ⟨hm, hnone, hch, hperm⟩
      · left
        simp [sortedReplaceOrInsert, hlt', heq, hm]
      · right
        refine ⟨by simp [hm, Ne.symm hne], by simp [sortedReplaceOrInsert, hlt', hnone], ?_, ?_⟩
        · simp only [sortedReplaceOrInsert, item_less, hlt', ↓reduceIte]
          refine ⟨?_, List.Pairwise.cons (fun b hb => ?_) hch.sorted⟩
          · intro b hb
            rcases List.mem_cons.1 hb with rfl | hb
            · exact hc
            · exact hch.fits b hb
          · rcases List.mem_cons.1 (hperm.subset hb) with rfl | hb
            · exact hbefore
            · exact hrest b hb
        · simp only [sortedReplaceOrInsert, item_less, hlt', ↓reduceIte]
          exact (hperm.cons c).trans (List.Perm.swap r c rest)
    · by_cases hgt : r.less c = true
      · -- `r` comes before `c`, and so before every range of the chain
        rw [SACKBlock.less_iff hr.start_lt hc.start_lt] at hgt
        have hafter : (r.ival base).2 < (c.ival base).1 := by
          have := hc.1
          rcases hcr with rfl | hcr
          · exact absurd hgt (Nat.lt_irrefl _)
          · simp only [Apart] at hcr
            omega
        have hn : r ∉ c :: rest := by
          intro hm
          rcases List.mem_cons.1 hm with rfl | hm
          · exact Nat.lt_irrefl _ hgt
          · have := hrest r hm
            have := hc.1
            omega
        have hgt' : r.less c = true := (SACKBlock.less_iff hr.start_lt hc.start_lt).2 hgt
        right
        refine ⟨hn, by simp [sortedReplaceOrInsert, hlt, hgt'], ?_, by simp [sortedReplaceOrInsert, hlt, hgt']⟩
        simp only [sortedReplaceOrInsert, item_less, hlt, hgt', Bool.false_eq_true, ↓reduceIte]
        refine ⟨?_, List.Pairwise.cons (fun b hb => ?_) hl.sorted⟩
        · intro b hb
          rcases List.mem_cons.1 hb with rfl | hb
          · exact hr
          · exact hl.fits b hb
        · rcases List.mem_cons.1 hb with rfl | hb
          · exact hafter
          · have := hrest b hb
            have := hc.1
            omega
      · -- the same start: `c` is `r`
        have hs : (c.ival base).1 = (r.ival base).1 := by
          rw [Bool.not_eq_true, SACKBlock.less_eq_false hc.start_lt hr.start_lt] at hlt
          rw [Bool.not_eq_true, SACKBlock.less_eq_false hr.start_lt hc.start_lt] at hgt
          omega
        have hcr' : c = r := by
          rcases hcr with hcr | hcr
          · exact hcr
          · have := hc.1
            have := hr.1
            simp only [Apart] at hcr
            omega
        subst hcr'
        left
        simp [sortedReplaceOrInsert, hlt]

/-- Deleting `d` where it may be, and then the ranges `D`, deletes `d :: D`. -/
theorem filter_not_mem_erase (hl : l.Nodup) (D : List SACKBlock) (d : SACKBlock) :
    ((if d ∈ l then l.erase d else l).filter fun b => b ∉ D) = l.filter fun b => b ∉ d :: D := by
  split
  · rw [hl.erase_eq_filter, List.filter_filter]
    refine List.filter_congr fun b _ => ?_
    by_cases hbd : b = d <;> simp [hbd]
  · refine List.filter_congr fun b hb => ?_
    have hbd : b ≠ d := fun h => by subst h; contradiction
    simp [hbd]

/-- What a deletion where `d` may be leaves is a sublist. -/
theorem erase_if_mem_sublist (l : List SACKBlock) (d : SACKBlock) :
    (if d ∈ l then l.erase d else l).Sublist l := by
  split
  · exact List.erase_sublist
  · exact List.Sublist.refl l

/-! ### The tree's operations on a chain

On a tree whose items form a chain, and at a range that fits, each operation
of the library does what its linear scan does on the items. -/

variable [Lawful T SACKBlock] {t : T} {σ : Type}

/-- `Empty` is `Len() == 0`: the tree holds no items. -/
theorem SACKScoreboard.empty_iff (s : SACKScoreboard T) : s.empty = true ↔ items s.ranges = [] := by
  rw [SACKScoreboard.empty, decide_eq_true_iff, Lawful.len_eq, List.length_eq_zero_iff]

theorem ascend_of_chain (hl : Chain base (items t)) (hr : (r.ival base).1 < 2 ^ 31)
    (f : σ → SACKBlock → Bool × σ) (st : σ) :
    ascendGreaterOrEqual t r f st = walk f ((items t).dropWhile (·.less r)) st :=
  ascendGreaterOrEqual_eq_dropWhile (hl.orderedBy hr) hl.inOrder f st

theorem descend_of_chain (hl : Chain base (items t)) (hr : (r.ival base).1 < 2 ^ 31)
    (f : σ → SACKBlock → Bool × σ) (st : σ) :
    descendLessOrEqual t r f st = walk f ((items t).takeWhile fun i => !r.less i).reverse st :=
  descendLessOrEqual_eq_takeWhile (hl.orderedBy hr) hl.inOrder f st

theorem delete_of_chain (hl : Chain base (items t)) (hd : (d.ival base).1 < 2 ^ 31) :
    (items (delete t d).1, (delete t d).2) = sortedDelete (items t) d := by
  rw [Lawful.items_delete t d _ (hl.orderedBy hd) hl.inOrder,
    Lawful.delete_old t d _ (hl.orderedBy hd) hl.inOrder]

theorem replaceOrInsert_of_chain (hl : Chain base (items t)) (hr : (r.ival base).1 < 2 ^ 31) :
    (items (replaceOrInsert t r).1, (replaceOrInsert t r).2) = sortedReplaceOrInsert (items t) r := by
  rw [Lawful.items_replaceOrInsert t r _ (hl.orderedBy hr) hl.inOrder,
    Lawful.replaceOrInsert_old t r _ (hl.orderedBy hr) hl.inOrder]

/-- `Delete` on a chain, by a range that is the only one of its start. -/
theorem delete_spec (hl : Chain base (items t)) (hd : d.Fits base)
    (hkey : ∀ b ∈ items t, (b.ival base).1 = (d.ival base).1 → b = d) :
    (items (delete t d).1, (delete t d).2) =
      if d ∈ items t then ((items t).erase d, some d) else (items t, none) :=
  (delete_of_chain hl hd.start_lt).trans (sortedDelete_spec hl hd hkey)

theorem items_delete_spec (hl : Chain base (items t)) (hd : d.Fits base)
    (hkey : ∀ b ∈ items t, (b.ival base).1 = (d.ival base).1 → b = d) :
    items (delete t d).1 = if d ∈ items t then (items t).erase d else items t := by
  refine (congrArg Prod.fst (delete_spec hl hd hkey)).trans ?_
  split <;> rfl

/-- The deletions of `Delete`: each range of `D`, the only one of its start,
goes. -/
theorem items_foldl_delete (D : List SACKBlock) (ht : items t = l) (hl : Chain base l)
    (hkey : ∀ d ∈ D, d.Fits base ∧ ∀ b ∈ l, (b.ival base).1 = (d.ival base).1 → b = d) :
    items (D.foldl (fun ranges sb => (delete ranges sb).1) t) = l.filter fun b => b ∉ D := by
  subst ht
  induction D generalizing t with
  | nil => simp
  | cons d D ih =>
    obtain ⟨hd, hdk⟩ := hkey d List.mem_cons_self
    have hdel := items_delete_spec hl hd hdk
    have hsub : (items (delete t d).1).Sublist (items t) := hdel ▸ erase_if_mem_sublist _ d
    rw [List.foldl_cons, ih (hl.sublist hsub), hdel, filter_not_mem_erase hl.nodup]
    exact fun d' hd' => ⟨(hkey d' (List.mem_cons_of_mem d hd')).1,
      fun b hb => (hkey d' (List.mem_cons_of_mem d hd')).2 b (hsub.subset hb)⟩

/-- The deletions of `Insert`: the ranges of `D` go, and `sacked` loses the
length of each one that was there. -/
theorem deleteAll_spec (D : List SACKBlock) (s : SACKScoreboard T) (hl : Chain base (items s.ranges))
    (hkey : ∀ d ∈ D, d.Fits base ∧
      ∀ b ∈ items s.ranges, (b.ival base).1 = (d.ival base).1 → b = d) :
    items (s.deleteAll D).ranges = (items s.ranges).filter (fun b => b ∉ D) ∧
      (s.deleteAll D).sacked - sumLengths (items (s.deleteAll D).ranges) =
        s.sacked - sumLengths (items s.ranges) := by
  induction D generalizing s with
  | nil => simp [SACKScoreboard.deleteAll]
  | cons d D ih =>
    obtain ⟨hd, hdk⟩ := hkey d List.mem_cons_self
    have hdel := delete_spec hl hd hdk
    -- one deletion keeps `sacked` off the sum of the lengths by as much as before
    have hstep : ∃ s' : SACKScoreboard T, s.deleteAll (d :: D) = s'.deleteAll D ∧
        items s'.ranges = (if d ∈ items s.ranges then (items s.ranges).erase d else items s.ranges) ∧
        s'.sacked - sumLengths (items s'.ranges) = s.sacked - sumLengths (items s.ranges) := by
      rw [SACKScoreboard.deleteAll_cons]
      by_cases hm : d ∈ items s.ranges
      · rw [if_pos hm, Prod.mk.injEq] at hdel
        refine ⟨_, by rw [hdel.2, Option.isSome_some, if_pos rfl], by rw [if_pos hm]; exact hdel.1, ?_⟩
        have hsum := List.sum_map_erase (fun b : SACKBlock => b.Start.size b.End) hm
        dsimp only
        rw [hdel.1, sumLengths, sumLengths, ← hsum]
        grind
      · rw [if_neg hm, Prod.mk.injEq] at hdel
        refine ⟨_, by rw [hdel.2, Option.isSome_none, if_neg Bool.false_ne_true], by
          rw [if_neg hm]; exact hdel.1, ?_⟩
        dsimp only
        rw [hdel.1]
    obtain ⟨s', heq, hranges, hsacked⟩ := hstep
    have hsub : (items s'.ranges).Sublist (items s.ranges) := hranges ▸ erase_if_mem_sublist _ d
    obtain ⟨ih1, ih2⟩ := ih s' (hl.sublist hsub) fun d' hd' =>
      ⟨(hkey d' (List.mem_cons_of_mem d hd')).1,
        fun b hb => (hkey d' (List.mem_cons_of_mem d hd')).2 b (hsub.subset hb)⟩
    rw [heq]
    refine ⟨?_, ?_⟩
    · rw [ih1, hranges, filter_not_mem_erase hl.nodup]
    · rw [ih2, hsacked]

end Tree

/-- `r'` is `r` grown by the ranges `M`: it fits, holds `r` and each of them,
and covers what they cover together. -/
structure Grown (base : Value) (r r' : SACKBlock) (M : List SACKBlock) : Prop where
  fits : r'.Fits base
  start_le : (r'.ival base).1 ≤ (r.ival base).1
  end_ge : (r.ival base).2 ≤ (r'.ival base).2
  holds : ∀ m ∈ M, (r'.ival base).1 ≤ (m.ival base).1 ∧ (m.ival base).2 ≤ (r'.ival base).2
  covers : ∀ x, Covers (r'.ival base) x ↔ Covers (r.ival base) x ∨ ∃ m ∈ M, Covers (m.ival base) x

namespace Grown

variable {base : Value} {r r' r'' i : SACKBlock} {M M' : List SACKBlock}

theorem refl (hr : r.Fits base) : Grown base r r [] :=
  ⟨hr, Nat.le_refl _, Nat.le_refl _, fun _ hm => absurd hm List.not_mem_nil, fun _ => by simp⟩

theorem trans (h : Grown base r r' M) (h' : Grown base r' r'' M') : Grown base r r'' (M ++ M') where
  fits := h'.fits
  start_le := Nat.le_trans h'.start_le h.start_le
  end_ge := Nat.le_trans h.end_ge h'.end_ge
  holds m hm := by
    rcases List.mem_append.1 hm with hm | hm
    · exact ⟨Nat.le_trans h'.start_le (h.holds m hm).1, Nat.le_trans (h.holds m hm).2 h'.end_ge⟩
    · exact h'.holds m hm
  covers x := by
    rw [h'.covers, h.covers]
    simp only [List.mem_append, or_and_right, exists_or, or_assoc]

/-- Merging a range that touches `r` grows `r` to the hull of the two. -/
theorem hull (hr : r.Fits base) (hi : i.Fits base) (h : ¬Apart (r.ival base) (i.ival base))
    (hr' : r'.ival base = HalfOpen.hull (r.ival base) (i.ival base)) : Grown base r r' [i] where
  fits := by
    have := hr.1
    have := hr.2
    have := hi.2
    simp only [SACKBlock.Fits, hr', HalfOpen.hull]
    omega
  start_le := by
    rw [hr']
    exact Nat.min_le_left _ _
  end_ge := by
    rw [hr']
    exact Nat.le_max_left _ _
  holds m hm := by
    rw [List.mem_singleton.1 hm, hr']
    exact ⟨Nat.min_le_right _ _, Nat.le_max_right _ _⟩
  covers x := by
    rw [hr', covers_hull h]
    simp

end Grown

section Merge

variable {base : Value} {r i : SACKBlock} {D : List SACKBlock}

/-- A turn of `Insert`'s ascending walk at a range that touches `r` and starts
at or after it. -/
theorem insertAscend_merge (hr : r.Fits base) (hi : i.Fits base)
    (hle : (r.ival base).1 ≤ (i.ival base).1) (hne : i ≠ r)
    (h : ¬(r.ival base).2 < (i.ival base).1) :
    ¬Apart (r.ival base) (i.ival base) ∧ ∃ r', SACKScoreboard.insertAscend (r, D) i = (true, r', D ++ [i]) ∧
      r'.ival base = HalfOpen.hull (r.ival base) (i.ival base) := by
  have hgap : r.End.lessThan i.Start = false := by
    rw [← Bool.not_eq_true, Value.lessThan_iff_size_lt base hr.2 hi.start_lt]
    exact h
  have hend := Value.lessThan_iff_size_lt base hi.2 hr.2
  refine ⟨fun hap => ?_, ?_⟩
  · have := hi.1
    simp only [Apart] at hap
    omega
  · simp only [SACKScoreboard.insertAscend, hne, hgap, Bool.false_eq_true, ↓reduceIte]
    by_cases he : i.End.lessThan r.End = true
    · refine ⟨r, by simp [he], ?_⟩
      rw [hend] at he
      simp only [SACKBlock.ival, HalfOpen.hull, Prod.mk.injEq] at hle he ⊢
      omega
    · refine ⟨{ r with End := i.End }, by simp [he], ?_⟩
      rw [hend] at he
      simp only [SACKBlock.ival, HalfOpen.hull, Prod.mk.injEq] at hle he ⊢
      omega

/-- A turn of `Insert`'s descending walk at a range that touches `r` and
starts at or before it. -/
theorem insertDescend_merge (hr : r.Fits base) (hi : i.Fits base)
    (hle : (i.ival base).1 ≤ (r.ival base).1) (hne : i ≠ r)
    (h : ¬(i.ival base).2 < (r.ival base).1) :
    ¬Apart (r.ival base) (i.ival base) ∧ ∃ r', SACKScoreboard.insertDescend (r, D) i = (true, r', D ++ [i]) ∧
      r'.ival base = HalfOpen.hull (r.ival base) (i.ival base) := by
  have hgap : i.End.lessThan r.Start = false := by
    rw [← Bool.not_eq_true, Value.lessThan_iff_size_lt base hi.2 hr.start_lt]
    exact h
  have hend := Value.lessThan_iff_size_lt base hr.2 hi.2
  refine ⟨fun hap => ?_, ?_⟩
  · have := hr.1
    simp only [Apart] at hap
    omega
  · simp only [SACKScoreboard.insertDescend, hne, hgap, Bool.false_eq_true, ↓reduceIte]
    by_cases he : r.End.lessThan i.End = true
    · refine ⟨{ r with Start := i.Start, End := i.End }, by simp [he], ?_⟩
      rw [hend] at he
      simp only [SACKBlock.ival, HalfOpen.hull, Prod.mk.injEq] at hle he ⊢
      omega
    · refine ⟨{ r with Start := i.Start }, by simp [he], ?_⟩
      rw [hend] at he
      simp only [SACKBlock.ival, HalfOpen.hull, Prod.mk.injEq] at hle he ⊢
      omega

end Merge

section Walks

variable {base : Value}

/-- `Insert`'s ascending walk over ranges of a chain that start at or after
`r`: it grows `r`, keeping its start, by the ranges it merges, and leaves every
other range equal to the grown range or past its end. -/
theorem walk_insertAscend :
    ∀ {Q : List SACKBlock} {r : SACKBlock} (D : List SACKBlock), r.Fits base → Chain base Q →
      (∀ i ∈ Q, (r.ival base).1 ≤ (i.ival base).1) →
      ∃ r' M, walk SACKScoreboard.insertAscend Q (r, D) = (r', D ++ M) ∧ Grown base r r' M ∧
        (∀ m ∈ M, m ∈ Q) ∧ (r'.ival base).1 = (r.ival base).1 ∧
        ∀ i ∈ Q, i ∈ M ∨ i = r' ∨ (r'.ival base).2 < (i.ival base).1
  | [], r, D, hr, _, _ =>
    ⟨r, [], by simp [walk], Grown.refl hr, fun _ hm => absurd hm List.not_mem_nil, rfl,
      fun _ hi => absurd hi List.not_mem_nil⟩
  | i :: rest, r, D, hr, hQ, hle => by
    have hi := hQ.fits i List.mem_cons_self
    have hafter := (List.pairwise_cons.1 hQ.sorted).1
    have hi1 := hi.1
    have hri := hle i List.mem_cons_self
    by_cases heq : i = r
    · -- `r` is already a range: the next one lies past it, and the walk stops there
      subst heq
      have hwalk : walk SACKScoreboard.insertAscend rest (i, D) = (i, D) := by
        cases rest with
        | nil => rfl
        | cons k rest' =>
          have hk := hQ.fits k (by simp)
          have hik := hafter k List.mem_cons_self
          have hne : k ≠ i := by
            rintro rfl
            omega
          have hgap : i.End.lessThan k.Start = true :=
            (Value.lessThan_iff_size_lt base hi.2 hk.start_lt).2 hik
          exact walk_cons_of_stop (by simp [SACKScoreboard.insertAscend, hne, hgap])
      refine ⟨i, [], ?_, Grown.refl hi, fun _ hm => absurd hm List.not_mem_nil, rfl, fun k hk => ?_⟩
      · have hself : SACKScoreboard.insertAscend (i, D) i = (true, i, D) := by
          simp [SACKScoreboard.insertAscend]
        rw [walk_cons_of_more hself, hwalk, List.append_nil]
      · rcases List.mem_cons.1 hk with rfl | hk
        · exact .inr (.inl rfl)
        · exact .inr (.inr (hafter k hk))
    · by_cases hgap : (r.ival base).2 < (i.ival base).1
      · -- a gap before `i`: the walk stops
        have hlt : r.End.lessThan i.Start = true :=
          (Value.lessThan_iff_size_lt base hr.2 hi.start_lt).2 hgap
        refine ⟨r, [], walk_cons_of_stop (by simp [SACKScoreboard.insertAscend, heq, hlt]),
          Grown.refl hr, fun _ hm => absurd hm List.not_mem_nil, rfl, fun k hk => .inr (.inr ?_)⟩
        rcases List.mem_cons.1 hk with rfl | hk
        · exact hgap
        · have := hafter k hk
          omega
      · -- `i` is merged, and the walk goes on with the hull
        obtain ⟨hap, r1, hstep, hr1⟩ := insertAscend_merge (D := D) hr hi hri heq hgap
        have hg1 := Grown.hull hr hi hap hr1
        have hstart1 : (r1.ival base).1 = (r.ival base).1 := by
          rw [hr1]
          exact Nat.min_eq_left hri
        have hle1 : ∀ k ∈ rest, (r1.ival base).1 ≤ (k.ival base).1 := by
          intro k hk
          have := hafter k hk
          omega
        obtain ⟨r', M, hwalk, hg, hmem, hstart, hother⟩ :=
          walk_insertAscend (D ++ [i]) hg1.fits hQ.tail hle1
        refine ⟨r', i :: M, ?_, hg1.trans hg, fun m hm => ?_, hstart.trans hstart1, fun k hk => ?_⟩
        · rw [walk_cons_of_more hstep, hwalk, List.append_assoc, List.singleton_append]
        · rcases List.mem_cons.1 hm with rfl | hm
          · exact List.mem_cons_self
          · exact List.mem_cons_of_mem _ (hmem m hm)
        · rcases List.mem_cons.1 hk with rfl | hk
          · exact .inl List.mem_cons_self
          · rcases hother k hk with h | h | h
            · exact .inl (List.mem_cons_of_mem _ h)
            · exact .inr (.inl h)
            · exact .inr (.inr h)

/-- `Insert`'s descending walk over ranges of a chain, last first, that start
at or before `r`: it grows `r` by the ranges it merges, and leaves every other
range equal to the grown range or before its start. -/
theorem walk_insertDescend :
    ∀ {W : List SACKBlock} {r : SACKBlock} (D : List SACKBlock), r.Fits base →
      (∀ i ∈ W, i.Fits base) → W.Pairwise (fun a b => (b.ival base).2 < (a.ival base).1) →
      (∀ i ∈ W, (i.ival base).1 ≤ (r.ival base).1) →
      ∃ r' M, walk SACKScoreboard.insertDescend W (r, D) = (r', D ++ M) ∧ Grown base r r' M ∧
        (∀ m ∈ M, m ∈ W) ∧ ∀ i ∈ W, i ∈ M ∨ i = r' ∨ (i.ival base).2 < (r'.ival base).1
  | [], r, D, hr, _, _, _ =>
    ⟨r, [], by simp [walk], Grown.refl hr, fun _ hm => absurd hm List.not_mem_nil,
      fun _ hi => absurd hi List.not_mem_nil⟩
  | i :: rest, r, D, hr, hW, hpw, hle => by
    have hi := hW i List.mem_cons_self
    have hbefore := (List.pairwise_cons.1 hpw).1
    have hr1 := hr.1
    have hir := hle i List.mem_cons_self
    by_cases heq : i = r
    · -- `r` is already a range: the next one lies before it, and the walk stops there
      subst heq
      have hwalk : walk SACKScoreboard.insertDescend rest (i, D) = (i, D) := by
        cases rest with
        | nil => rfl
        | cons k rest' =>
          have hk := hW k (by simp)
          have hki := hbefore k List.mem_cons_self
          have hk1 := hk.1
          have hne : k ≠ i := by
            rintro rfl
            omega
          have hgap : k.End.lessThan i.Start = true :=
            (Value.lessThan_iff_size_lt base hk.2 hi.start_lt).2 hki
          exact walk_cons_of_stop (by simp [SACKScoreboard.insertDescend, hne, hgap])
      refine ⟨i, [], ?_, Grown.refl hi, fun _ hm => absurd hm List.not_mem_nil, fun k hk => ?_⟩
      · have hself : SACKScoreboard.insertDescend (i, D) i = (true, i, D) := by
          simp [SACKScoreboard.insertDescend]
        rw [walk_cons_of_more hself, hwalk, List.append_nil]
      · rcases List.mem_cons.1 hk with rfl | hk
        · exact .inr (.inl rfl)
        · exact .inr (.inr (hbefore k hk))
    · by_cases hgap : (i.ival base).2 < (r.ival base).1
      · -- a gap after `i`: the walk stops
        have hlt : i.End.lessThan r.Start = true :=
          (Value.lessThan_iff_size_lt base hi.2 hr.start_lt).2 hgap
        refine ⟨r, [], walk_cons_of_stop (by simp [SACKScoreboard.insertDescend, heq, hlt]),
          Grown.refl hr, fun _ hm => absurd hm List.not_mem_nil, fun k hk => .inr (.inr ?_)⟩
        rcases List.mem_cons.1 hk with rfl | hk
        · exact hgap
        · have := hbefore k hk
          have := hi.1
          omega
      · -- `i` is merged, and the walk goes on with the hull, which starts where `i` does
        obtain ⟨hap, r1, hstep, hr1⟩ := insertDescend_merge (D := D) hr hi hir heq hgap
        have hg1 := Grown.hull hr hi hap hr1
        have hstart1 : (r1.ival base).1 = (i.ival base).1 := by
          rw [hr1]
          exact Nat.min_eq_right hir
        have hle1 : ∀ k ∈ rest, (k.ival base).1 ≤ (r1.ival base).1 := by
          intro k hk
          have := hbefore k hk
          have := (hW k (List.mem_cons_of_mem _ hk)).1
          omega
        obtain ⟨r', M, hwalk, hg, hmem, hother⟩ :=
          walk_insertDescend (D ++ [i]) hg1.fits (fun k hk => hW k (List.mem_cons_of_mem _ hk))
            (List.pairwise_cons.1 hpw).2 hle1
        refine ⟨r', i :: M, ?_, hg1.trans hg, fun m hm => ?_, fun k hk => ?_⟩
        · rw [walk_cons_of_more hstep, hwalk, List.append_assoc, List.singleton_append]
        · rcases List.mem_cons.1 hm with rfl | hm
          · exact List.mem_cons_self
          · exact List.mem_cons_of_mem _ (hmem m hm)
        · rcases List.mem_cons.1 hk with rfl | hk
          · exact .inl List.mem_cons_self
          · rcases hother k hk with h | h | h
            · exact .inl (List.mem_cons_of_mem _ h)
            · exact .inr (.inl h)
            · exact .inr (.inr h)

end Walks

/-- A scoreboard whose ranges form a chain past `base`, with `sacked` the sum
of their lengths. -/
structure Board (base : Value) (s : SACKScoreboard T) : Prop where
  chain : Chain base (items s.ranges)
  sacked : s.sacked = sumLengths (items s.ranges)

/-- What the two walks of `Insert` hand on: the grown range `r'`, and the
ranges `D` to delete, each a range of `l` that `r'` holds; every other range of
`l` is `r'` itself or lies apart from it. -/
structure Placed (base : Value) (l : List SACKBlock) (r' : SACKBlock) (D : List SACKBlock) :
    Prop where
  fits : r'.Fits base
  mem : ∀ d ∈ D, d ∈ l
  holds : ∀ d ∈ D, (r'.ival base).1 ≤ (d.ival base).1 ∧ (d.ival base).2 ≤ (r'.ival base).2
  apart : ∀ b ∈ l, b ∉ D → b = r' ∨ Apart (b.ival base) (r'.ival base)

section Commit

variable [Lawful T SACKBlock] {base : Value} {l : List SACKBlock} {r' : SACKBlock} {D : List SACKBlock}

/-- The ranges `D` lie within `r'`, so deleting them and adding `r'` covers
what the ranges and `r'` covered. -/
theorem Placed.covers (hp : Placed base l r' D) (x : ℕ) :
    (Covers (r'.ival base) x ∨ ∃ b ∈ l.filter (fun b => b ∉ D), Covers (b.ival base) x) ↔
      Covers (r'.ival base) x ∨ ∃ b ∈ l, Covers (b.ival base) x := by
  constructor
  · rintro (h | ⟨b, hb, hx⟩)
    · exact .inl h
    · exact .inr ⟨b, (List.mem_filter.1 hb).1, hx⟩
  · rintro (h | ⟨b, hb, hx⟩)
    · exact .inl h
    · by_cases hbD : b ∈ D
      · -- a deleted range: `r'` holds it
        have := hp.holds b hbD
        exact .inl ⟨Nat.le_trans this.1 hx.1, Nat.lt_of_lt_of_le hx.2 this.2⟩
      · exact .inr ⟨b, List.mem_filter.2 ⟨hb, by simpa using hbD⟩, hx⟩

/-- The end of `Insert`: the deletions and the insertion of the grown range
keep the board, and the ranges cover what the old ones and `r'` covered. -/
theorem Board.commit {s : SACKScoreboard T} (hb : Board base s)
    (hp : Placed base (items s.ranges) r' D) {ranges : T} {replaced : Option SACKBlock}
    (hro : replaceOrInsert (s.deleteAll D).ranges r' = (ranges, replaced)) :
    Board base (if replaced.isNone then
        { { s.deleteAll D with ranges } with
          sacked := ({ s.deleteAll D with ranges } : SACKScoreboard T).sacked + r'.Start.size r'.End }
      else { s.deleteAll D with ranges }) ∧
      ∀ x, (∃ b ∈ items ranges, Covers (b.ival base) x) ↔
        Covers (r'.ival base) x ∨ ∃ b ∈ items s.ranges, Covers (b.ival base) x := by
  obtain ⟨hdr, hds⟩ := deleteAll_spec D s hb.chain fun d hd =>
    ⟨hb.chain.fits d (hp.mem d hd), fun b hb' hs => hb.chain.eq_of_start hb' (hp.mem d hd) hs⟩
  have hsacked : (s.deleteAll D).sacked = sumLengths (items (s.deleteAll D).ranges) := by
    rw [← sub_eq_zero, hds, hb.sacked, sub_self]
  have hch : Chain base (items (s.deleteAll D).ranges) := by
    rw [hdr]
    exact hb.chain.sublist List.filter_sublist
  have happ : ∀ b ∈ items (s.deleteAll D).ranges, b = r' ∨ Apart (b.ival base) (r'.ival base) := by
    intro b hb'
    rw [hdr, List.mem_filter] at hb'
    exact hp.apart b hb'.1 (by simpa using hb'.2)
  -- the tree inserts as the linear scan does on its items
  have hsc := replaceOrInsert_of_chain hch hp.fits.start_lt
  rw [hro] at hsc
  rcases sortedReplaceOrInsert_spec hch hp.fits happ with ⟨hm, heq⟩ | ⟨hm, hnone, hch', hperm⟩
  · -- `r'` was there already and is replaced by itself
    rw [heq, Prod.mk.injEq] at hsc
    obtain ⟨hitems, rfl⟩ := hsc
    refine ⟨⟨hitems ▸ hch, hitems ▸ hsacked⟩, fun x => ?_⟩
    rw [← hp.covers x, ← hdr, hitems]
    constructor
    · exact .inr
    · rintro (hx | hx)
      · exact ⟨r', hm, hx⟩
      · exact hx
  · -- `r'` is new: it comes in at its place, and its length is added
    rw [← hsc] at hnone hch' hperm
    subst hnone
    refine ⟨⟨hch', ?_⟩, fun x => ?_⟩
    · simp only [Option.isNone_none, ↓reduceIte]
      rw [sumLengths, (hperm.map _).sum_eq, List.map_cons, List.sum_cons, hsacked, sumLengths]
      grind
    · rw [← hp.covers x, ← hdr]
      constructor
      · rintro ⟨b, hb', hx⟩
        rcases List.mem_cons.1 (hperm.subset hb') with rfl | hb'
        · exact .inl hx
        · exact .inr ⟨b, hb', hx⟩
      · rintro (hx | ⟨b, hb', hx⟩)
        · exact ⟨r', hperm.symm.subset List.mem_cons_self, hx⟩
        · exact ⟨b, hperm.symm.subset (List.mem_cons_of_mem _ hb'), hx⟩

end Commit

section Insert

variable [Lawful T SACKBlock] {base : Value} {s : SACKScoreboard T} {l : List SACKBlock} {r : SACKBlock}

/-- The two walks of `Insert` on a chain place the grown range: it is `r`
grown by the ranges to delete, and every other range is it or lies apart. -/
theorem insert_walks (hl : Chain base l) (hr : r.Fits base) :
    (walk SACKScoreboard.insertAscend (l.dropWhile (·.less r)) (r, [])).1.Fits base ∧ ∃ r' D, walk SACKScoreboard.insertDescend
        (l.takeWhile fun i => !(walk SACKScoreboard.insertAscend (l.dropWhile (·.less r)) (r, [])).1.less i).reverse
        (walk SACKScoreboard.insertAscend (l.dropWhile (·.less r)) (r, [])) = (r', D) ∧
      Grown base r r' D ∧ Placed base l r' D := by
  -- the ascending walk over the ranges from `r`'s start on
  have hQ : Chain base (l.dropWhile (·.less r)) := hl.sublist (List.dropWhile_sublist _)
  obtain ⟨r1, M1, hwA, hg1, hmem1, hstart1, hother1⟩ :=
    walk_insertAscend [] hr hQ fun i hi => hl.le_of_mem_dropWhile_less hr.start_lt hi
  rw [hwA, List.nil_append]
  -- the descending walk over the ranges up to the grown range's start, last first
  have hT : Chain base (l.takeWhile fun i => !r1.less i) := hl.sublist (List.takeWhile_sublist _)
  obtain ⟨r2, M2, hwB, hg2, hmem2, hother2⟩ := walk_insertDescend M1 hg1.fits
    (fun i hi => hT.fits i (List.mem_reverse.1 hi)) (List.pairwise_reverse.2 hT.sorted)
    fun i hi => Chain.le_of_mem_takeWhile_not_less hg1.fits.start_lt (hT.fits i (List.mem_reverse.1 hi))
      (List.mem_reverse.1 hi)
  refine ⟨hg1.fits, r2, M1 ++ M2, hwB, hg1.trans hg2, ⟨hg2.fits, fun d hd => ?_, (hg1.trans hg2).holds, ?_⟩⟩
  · rcases List.mem_append.1 hd with hd | hd
    · exact (List.dropWhile_sublist _).subset (hmem1 d hd)
    · exact (List.takeWhile_sublist _).subset (List.mem_reverse.1 (hmem2 d hd))
  · intro b hb hbD
    have hbf := hl.fits b hb
    cases hbr : !r1.less b with
    | true =>
      -- `b` starts at or before the grown range: the descending walk saw it
      have hbW : b ∈ (l.takeWhile fun i => !r1.less i).reverse := by
        apply List.mem_reverse.2 (hl.mem_takeWhile_not_less hg1.fits.start_lt hb _)
        rwa [Bool.not_eq_true', SACKBlock.less_eq_false hg1.fits.start_lt hbf.start_lt] at hbr
      rcases hother2 b hbW with h | h | h
      · exact absurd (List.mem_append_right M1 h) hbD
      · exact .inl h
      · exact .inr (.inl h)
    | false =>
      -- `b` starts after it: the ascending walk saw it, and left it past its end
      have hlt := (Chain.lt_of_mem_dropWhile_not_less hl hg1.fits.start_lt
        (Chain.mem_dropWhile_of_false hb hbr))
      have hbQ : b ∈ l.dropWhile (·.less r) := by
        apply Chain.mem_dropWhile_of_false hb
        rw [SACKBlock.less_eq_false hbf.start_lt hr.start_lt]
        omega
      rcases hother1 b hbQ with h | h | h
      · exact absurd (List.mem_append_left M2 h) hbD
      · subst h
        exact absurd hlt (Nat.lt_irrefl _)
      · -- the descending walk only grew the range by ranges before `b`
        right
        right
        have hx := (hg2.covers ((r2.ival base).2 - 1)).1 ⟨by have := hg2.fits.1; omega,
          by have := hg2.fits.1; omega⟩
        rcases hx with hx | ⟨m, hm, hx⟩
        · have := hx.2
          omega
        · have hmT := List.mem_reverse.1 (hmem2 m hm)
          have hm1 := Chain.le_of_mem_takeWhile_not_less hg1.fits.start_lt (hT.fits m hmT) hmT
          have := hl.end_lt_of_start_lt ((List.takeWhile_sublist _).subset hmT) hb (by omega)
          have := hx.2
          omega

/-- `Insert` keeps the board, and with fewer than `maxSACKBlocks` ranges the
ranges then cover what they covered and `r`. -/
theorem Board.insert (hb : Board base s) (hr : r.Fits base) :
    Board base (s.insert r) ∧ ((items s.ranges).length < maxSACKBlocks → ∀ x,
      (∃ b ∈ items (s.insert r).ranges, Covers (b.ival base) x) ↔
        Covers (r.ival base) x ∨ ∃ b ∈ items s.ranges, Covers (b.ival base) x) := by
  unfold SACKScoreboard.insert
  rw [Lawful.len_eq]
  by_cases hfull : (items s.ranges).length ≥ maxSACKBlocks
  · rw [if_pos hfull]
    exact ⟨hb, fun h => absurd h (Nat.not_lt.2 hfull)⟩
  rw [if_neg hfull]
  dsimp only
  -- only `maxSACKED` changes before the walks
  generalize hs1 : (if s.maxSACKED.lessThan (r.End - 1) = true then
    { s with maxSACKED := r.End - 1 } else s) = s1
  have hs1' : s1.ranges = s.ranges ∧ s1.sacked = s.sacked := by
    subst hs1
    split <;> exact ⟨rfl, rfl⟩
  have hb1 : Board base s1 := ⟨hs1'.1 ▸ hb.chain, by rw [hs1'.1, hs1'.2]; exact hb.sacked⟩
  -- the tree's two walks are the walks of the list of its items
  obtain ⟨hfit1, r', D, hw, hg, hp⟩ := insert_walks hb1.chain hr
  rw [ascend_of_chain hb1.chain hr.start_lt]
  rcases hA : walk SACKScoreboard.insertAscend ((items s1.ranges).dropWhile (·.less r)) (r, []) with
    ⟨r1, D1⟩
  rw [hA] at hw hfit1
  dsimp only at hw hfit1 ⊢
  rw [descend_of_chain hb1.chain hfit1.start_lt, hw]
  dsimp only
  rcases hro : replaceOrInsert (s1.deleteAll D).ranges r' with ⟨ranges, replaced⟩
  dsimp only
  obtain ⟨hbfin, hcov⟩ := hb1.commit hp hro
  refine ⟨hbfin, fun _ x => ?_⟩
  have hranges : (if replaced.isNone = true then
      { { s1.deleteAll D with ranges } with
        sacked := ({ s1.deleteAll D with ranges } : SACKScoreboard T).sacked + r'.Start.size r'.End }
      else { s1.deleteAll D with ranges }).ranges = ranges := by
    split <;> rfl
  rw [hranges, hcov, hg.covers, ← hs1'.1]
  -- the deleted ranges are ranges of the board
  constructor
  · rintro ((hx | ⟨m, hm, hx⟩) | hx)
    · exact .inl hx
    · exact .inr ⟨m, hp.mem m hm, hx⟩
    · exact .inr hx
  · rintro (hx | hx)
    · exact .inl (.inl hx)
    · exact .inr hx

/-- `Insert` into a scoreboard with no ranges: the tree then holds `r` alone,
and `sacked` grows by its length. -/
theorem insert_of_items_nil (h : items s.ranges = []) (r : SACKBlock) :
    items (s.insert r).ranges = [r] ∧ (s.insert r).sacked = s.sacked + r.Start.size r.End ∧
      (s.insert r).smss = s.smss := by
  unfold SACKScoreboard.insert
  rw [Lawful.len_eq, h, if_neg (by decide)]
  dsimp only
  generalize hs1 : (if s.maxSACKED.lessThan (r.End - 1) = true then
    { s with maxSACKED := r.End - 1 } else s) = s1
  have hs1' : s1.ranges = s.ranges ∧ s1.sacked = s.sacked ∧ s1.smss = s.smss := by
    subst hs1
    split <;> exact ⟨rfl, rfl, rfl⟩
  -- counted from `r`'s own start, the walks' pivot fits
  have h1 : items s1.ranges = [] := hs1'.1 ▸ h
  have hl1 : Chain r.Start (items s1.ranges) := h1 ▸ Chain.nil
  have hr : (r.ival r.Start).1 < 2 ^ 31 := by simp [SACKBlock.ival, toNat_size_self]
  rw [ascend_of_chain hl1 hr, h1, List.dropWhile_nil, walk]
  dsimp only
  rw [descend_of_chain hl1 hr, h1, List.takeWhile_nil, List.reverse_nil, walk]
  dsimp only
  rcases hro : replaceOrInsert (s1.deleteAll []).ranges r with ⟨ranges, replaced⟩
  have hsc := replaceOrInsert_of_chain hl1 hr
  rw [show s1.deleteAll [] = s1 from rfl] at hro
  rw [hro, h1] at hsc
  obtain ⟨hitems, rfl⟩ := Prod.mk.inj hsc
  exact ⟨hitems, by rw [← hs1'.2.1]; rfl, hs1'.2.2⟩

end Insert

section Delete

variable [Lawful T SACKBlock] {base seq : Value} {s : SACKScoreboard T} {b : SACKBlock}

/-- The cut of a range at `seq` drops one that ends by `seq`. -/
theorem trimBlock_of_end_le (hb : b.Fits base) (hd : (base.size seq).toNat < 2 ^ 31)
    (h : (b.ival base).2 ≤ (base.size seq).toNat) : trimBlock seq b = none := by
  rcases trimBlock_cases hb hd with ⟨hn, -⟩ | ⟨b', -, hlt, -⟩
  · exact hn
  · omega

/-- The cut of a range at `seq` keeps one that starts after `seq`. -/
theorem trimBlock_of_lt_start (hb : b.Fits base) (hd : (base.size seq).toNat < 2 ^ 31)
    (h : (base.size seq).toNat < (b.ival base).1) : trimBlock seq b = some b := by
  have := hb.1
  rcases trimBlock_cases hb hd with ⟨-, hle⟩ | ⟨b', hb', -, hiv⟩
  · omega
  · rw [hb', SACKBlock.ival_inj (hiv.trans (by rw [Nat.max_eq_left h.le]))]

/-- The cut of a range at a `seq` within it starts the range at `seq`. -/
theorem trimBlock_of_mem (hb : b.Fits base) (hd : (base.size seq).toNat < 2 ^ 31)
    (h1 : (b.ival base).1 ≤ (base.size seq).toNat) (h2 : (base.size seq).toNat < (b.ival base).2) :
    trimBlock seq b = some ⟨seq, b.End⟩ := by
  rcases trimBlock_cases hb hd with ⟨-, hle⟩ | ⟨b', hb', -, hiv⟩
  · omega
  · have hcut : b'.ival base = (⟨seq, b.End⟩ : SACKBlock).ival base := by
      rw [hiv, Nat.max_eq_right h1]
      rfl
    rw [hb', SACKBlock.ival_inj hcut]

theorem deleteDescend_more (r : SACKBlock) (st : List SACKBlock × List SACKBlock × Size)
    (i : SACKBlock) : (SACKScoreboard.deleteDescend r seq st i).1 = true := by
  obtain ⟨_, _, _⟩ := st
  simp only [SACKScoreboard.deleteDescend]
  split_ifs <;> rfl

/-- `Delete`'s walk over ranges that end by `seq`: each is deleted, and
`sacked` loses its length. -/
theorem foldl_deleteDescend_below (r : SACKBlock) :
    ∀ {V : List SACKBlock}, (∀ k ∈ V, k ≠ r ∧ k.End.lessThanEq seq = true) →
      ∀ (D I : List SACKBlock) (c : Size),
        V.foldl (fun st i => (SACKScoreboard.deleteDescend r seq st i).2) (D, I, c) =
          (D ++ V, I, c - sumLengths V)
  | [], _, D, I, c => by simp
  | k :: V, hV, D, I, c => by
    obtain ⟨hne, hle⟩ := hV k List.mem_cons_self
    have hstep : SACKScoreboard.deleteDescend r seq (D, I, c) k =
        (true, D ++ [k], I, c - k.Start.size k.End) := by
      simp [SACKScoreboard.deleteDescend, hne, hle]
    rw [List.foldl_cons, hstep,
      foldl_deleteDescend_below r (fun k' hk' => hV k' (List.mem_cons_of_mem k hk'))]
    simp only [List.append_assoc, List.singleton_append, sumLengths_cons, Prod.mk.injEq, true_and]
    grind

theorem sortedReplaceOrInsert_of_lt {U : List SACKBlock} (hU : Chain base U) {r : SACKBlock}
    (hr : (r.ival base).1 < 2 ^ 31) (h : ∀ k ∈ U, (r.ival base).1 < (k.ival base).1) :
    sortedReplaceOrInsert U r = (r :: U, none) := by
  cases U with
  | nil => rfl
  | cons k U =>
    have hk := hU.fits k List.mem_cons_self
    have hkr := h k List.mem_cons_self
    have h1 : k.less r = false := (SACKBlock.less_eq_false hk.start_lt hr).2 hkr.le
    have h2 : r.less k = true := (SACKBlock.less_iff hr hk.start_lt).2 hkr
    simp [sortedReplaceOrInsert, h1, h2]

/-- `ReplaceOrInsert` of a range that starts before every range of the tree
puts it first. -/
theorem items_replaceOrInsert_of_lt {t : T} {U : List SACKBlock} (ht : items t = U)
    (hU : Chain base U) {r : SACKBlock} (hr : (r.ival base).1 < 2 ^ 31)
    (h : ∀ k ∈ U, (r.ival base).1 < (k.ival base).1) : items (replaceOrInsert t r).1 = r :: U := by
  subst ht
  have h1 := congrArg Prod.fst (replaceOrInsert_of_chain hU hr)
  rw [sortedReplaceOrInsert_of_lt hU hr h] at h1
  exact h1

/-- `Delete` keeps the board, and leaves each range cut at `seq` as the
receiver's `trimBlock` cuts it. -/
theorem Board.delete (hb : Board base s) (hd : (base.size seq).toNat < 2 ^ 31) :
    Board base (s.delete seq) ∧
      items (s.delete seq).ranges = (items s.ranges).filterMap (trimBlock seq) := by
  unfold SACKScoreboard.delete
  by_cases he : s.empty = true
  · rw [if_pos he]
    have hnil : items s.ranges = [] := (SACKScoreboard.empty_iff s).1 he
    exact ⟨hb, by rw [hnil]; rfl⟩
  rw [if_neg he]
  dsimp only
  have hl := hb.chain
  -- the pivot `[seq, seq + 1)` splits the ranges at `seq`
  have hpiv : ((⟨seq, seq.add 1⟩ : SACKBlock).ival base).1 < 2 ^ 31 := hd
  have hsplit := List.takeWhile_append_dropWhile
    (p := fun i => !(⟨seq, seq.add 1⟩ : SACKBlock).less i) (l := items s.ranges)
  have hTle : ∀ k ∈ (items s.ranges).takeWhile fun i => !(⟨seq, seq.add 1⟩ : SACKBlock).less i,
      (k.ival base).1 ≤ (base.size seq).toNat := fun k hk =>
    Chain.le_of_mem_takeWhile_not_less hpiv (hl.fits k ((List.takeWhile_sublist _).subset hk)) hk
  have hUgt : ∀ k ∈ (items s.ranges).dropWhile fun i => !(⟨seq, seq.add 1⟩ : SACKBlock).less i,
      (base.size seq).toNat < (k.ival base).1 := fun k hk => hl.lt_of_mem_dropWhile_not_less hpiv hk
  rw [descend_of_chain hl hpiv, walk_eq_foldl (deleteDescend_more _)]
  generalize (items s.ranges).takeWhile (fun i => !(⟨seq, seq.add 1⟩ : SACKBlock).less i) = P
    at hsplit hTle ⊢
  generalize (items s.ranges).dropWhile (fun i => !(⟨seq, seq.add 1⟩ : SACKBlock).less i) = U
    at hsplit hUgt
  have hUch : Chain base U := hl.sublist (hsplit ▸ List.sublist_append_right P U)
  -- the ranges after `seq` are left as they are
  have hUtrim : U.filterMap (trimBlock seq) = U := by
    rw [List.filterMap_eq_map_iff_forall_eq_some.2
      fun k hk => trimBlock_of_lt_start (hUch.fits k hk) hd (hUgt k hk), List.map_id']
  rcases List.eq_nil_or_concat P with rfl | ⟨T0, j, rfl⟩
  · -- no range starts at or before `seq`
    rw [List.nil_append] at hsplit
    refine ⟨hb, ?_⟩
    show items s.ranges = (items s.ranges).filterMap (trimBlock seq)
    rw [← hsplit, hUtrim]
  -- `j` is the last range starting at or before `seq`; those before it end before it
  rw [List.concat_eq_append] at hsplit hTle ⊢
  have hl0 := hl
  rw [← hsplit] at hl
  have hj := hl.fits j (by simp)
  have hj1 := hTle j (by simp)
  have hpw := List.pairwise_append.1 hl.sorted
  have hT0j : ∀ k ∈ T0, (k.ival base).2 < (j.ival base).1 := by
    intro k hk
    have hpw0 := List.pairwise_append.1 hpw.1
    exact hpw0.2.2 k hk j (List.mem_singleton_self j)
  have hjU : ∀ m ∈ U, (j.ival base).2 < (m.ival base).1 :=
    fun m hm => hpw.2.2 j (by simp) m hm
  have hbelow : ∀ k ∈ T0.reverse, k ≠ ⟨seq, seq.add 1⟩ ∧ k.End.lessThanEq seq = true := by
    intro k hk
    have hk := List.mem_reverse.1 hk
    have hkf := hl.fits k (by simp [hk])
    have hkj := hT0j k hk
    have := hkf.1
    refine ⟨fun h => ?_, (Value.lessThanEq_iff_size_le base hkf.2 hd).2
      (show (k.ival base).2 ≤ (base.size seq).toNat by omega)⟩
    have : (k.ival base).1 = (base.size seq).toNat := by rw [h]; rfl
    omega
  have hT0trim : T0.filterMap (trimBlock seq) = [] :=
    List.filterMap_eq_nil_iff.2 fun k hk =>
      trimBlock_of_end_le (hl.fits k (by simp [hk])) hd (by have := hT0j k hk; omega)
  have hkey : ∀ D : List SACKBlock, (∀ d ∈ D, d ∈ T0 ++ [j] ++ U) →
      ∀ d ∈ D, d.Fits base ∧
        ∀ b ∈ T0 ++ [j] ++ U, (b.ival base).1 = (d.ival base).1 → b = d :=
    fun D hD d hd' => ⟨hl.fits d (hD d hd'), fun b hb' hs => hl.eq_of_start hb' (hD d hd') hs⟩
  have hDa : ∀ d ∈ T0.reverse, d ∈ T0 ++ [j] ++ U := fun d hd' => by
    simp [List.mem_reverse.1 hd']
  have hDb : ∀ d ∈ [j] ++ T0.reverse, d ∈ T0 ++ [j] ++ U := fun d hd' => by
    rcases List.mem_append.1 hd' with h | h
    · simp [List.mem_singleton.1 h]
    · exact hDa d h
  have hsacked := hb.sacked
  rw [← hsplit] at hsacked ⊢
  simp only [List.reverse_append, List.reverse_singleton, List.singleton_append, List.foldl_cons,
    List.filterMap_append, hT0trim, List.nil_append]
  by_cases hjr : j = ⟨seq, seq.add 1⟩
  · -- `j` is the pivot itself: it stays, and the ranges before it go
    have hstep : SACKScoreboard.deleteDescend ⟨seq, seq.add 1⟩ seq ([], [], s.sacked) j =
        (true, [], [], s.sacked) := by
      simp [SACKScoreboard.deleteDescend, hjr]
    rw [hstep]
    dsimp only
    rw [foldl_deleteDescend_below _ hbelow, List.nil_append]
    dsimp only
    have hnd : (T0 ++ ([j] ++ U)).Nodup := by
      rw [← List.append_assoc]
      exact hl.nodup
    have hitems : items (T0.reverse.foldl (fun ranges sb => (OrderedSet.delete ranges sb).1) s.ranges) =
        [j] ++ U := by
      rw [items_foldl_delete _ hsplit.symm hl (hkey _ hDa), List.append_assoc,
        List.filter_not_mem_of_prefix hnd (by simp)]
    rw [List.foldl_nil]
    have hjd : (base.size seq).toNat < (j.ival base).2 := by
      have := hj.1
      rw [hjr] at this ⊢
      exact this
    have hjtrim : trimBlock seq j = some j := by
      rw [trimBlock_of_mem hj hd hj1 hjd]
      subst hjr
      rfl
    have hjUsub : ([j] ++ U).Sublist (T0 ++ [j] ++ U) := by
      rw [List.append_assoc]
      exact List.sublist_append_right _ _
    refine ⟨⟨?_, ?_⟩, ?_⟩ <;> simp only [hitems]
    · exact hl.sublist hjUsub
    · simp only [hsacked, sumLengths_append, sumLengths_reverse, sumLengths_cons, sumLengths_nil]
      grind
    · simp [hjtrim, hUtrim]
  by_cases hje : j.End.lessThanEq seq = true
  · -- `j` ends by `seq`: it goes with the ranges before it
    have hstep : SACKScoreboard.deleteDescend ⟨seq, seq.add 1⟩ seq ([], [], s.sacked) j =
        (true, [j], [], s.sacked - j.Start.size j.End) := by
      simp [SACKScoreboard.deleteDescend, hjr, hje]
    rw [hstep]
    dsimp only
    rw [foldl_deleteDescend_below _ hbelow]
    dsimp only
    have hitems : items (([j] ++ T0.reverse).foldl (fun ranges sb => (OrderedSet.delete ranges sb).1)
        s.ranges) = U := by
      rw [items_foldl_delete _ hsplit.symm hl (hkey _ hDb),
        List.filter_not_mem_of_prefix hl.nodup (by simp [or_comm])]
    rw [List.foldl_nil]
    have hjtrim : trimBlock seq j = none :=
      trimBlock_of_end_le hj hd ((Value.lessThanEq_iff_size_le base hj.2 hd).1 hje)
    refine ⟨⟨?_, ?_⟩, ?_⟩ <;> simp only [hitems]
    · exact hUch
    · simp only [hsacked, sumLengths_append, sumLengths_reverse, sumLengths_cons, sumLengths_nil]
      grind
    · simp [hjtrim, hUtrim]
  · -- `j` holds `seq`: it is cut to start there
    have hjd : (base.size seq).toNat < (j.ival base).2 := by
      rw [Value.lessThanEq_iff_size_le base hj.2 hd] at hje
      exact Nat.lt_of_not_le hje
    have hstep : SACKScoreboard.deleteDescend ⟨seq, seq.add 1⟩ seq ([], [], s.sacked) j =
        (true, [j], [⟨seq, j.End⟩], s.sacked - j.Start.size seq) := by
      simp [SACKScoreboard.deleteDescend, hjr, hje]
    rw [hstep]
    dsimp only
    rw [foldl_deleteDescend_below _ hbelow]
    dsimp only
    have hcut : (⟨seq, j.End⟩ : SACKBlock).Fits base := ⟨hjd, hj.2⟩
    have hdel : items (([j] ++ T0.reverse).foldl (fun ranges sb => (OrderedSet.delete ranges sb).1)
        s.ranges) = U := by
      rw [items_foldl_delete _ hsplit.symm hl (hkey _ hDb),
        List.filter_not_mem_of_prefix hl.nodup (by simp [or_comm])]
    have hitems := items_replaceOrInsert_of_lt hdel hUch
      (show ((⟨seq, j.End⟩ : SACKBlock).ival base).1 < 2 ^ 31 from hd)
      fun m hm => show ((⟨seq, j.End⟩ : SACKBlock).ival base).1 < (m.ival base).1 from hUgt m hm
    rw [List.foldl_cons, List.foldl_nil]
    refine ⟨⟨?_, ?_⟩, ?_⟩ <;> simp only [hitems]
    · refine ⟨fun b hb' => ?_, List.Pairwise.cons (fun m hm => hjU m hm) hUch.sorted⟩
      rcases List.mem_cons.1 hb' with rfl | hb'
      · exact hcut
      · exact hUch.fits b hb'
    · simp only [hsacked, sumLengths_append, sumLengths_reverse, sumLengths_cons, sumLengths_nil,
        Value.size]
      grind
    · simp [trimBlock_of_mem hj hd hj1 hjd, hUtrim]

end Delete

section IsSACKED

variable [Lawful T SACKBlock] {base : Value} {s : SACKScoreboard T} {r : SACKBlock}

/-- `IsSACKED` on a chain: `r` is reported exactly when its sequence numbers
are all covered. Only the range just below `r` can hold it, since a range that
covers the start of `r` but ends inside it leaves its own end uncovered. -/
theorem Board.isSACKED (hb : Board base s) (hr : r.Fits base) :
    s.isSACKED r = true ↔ ∀ x, Covers (r.ival base) x → ∃ b ∈ items s.ranges, Covers (b.ival base) x := by
  have hl := hb.chain
  have hr1 := hr.1
  have hstart : Covers (r.ival base) (r.ival base).1 := ⟨Nat.le_refl _, hr1⟩
  unfold SACKScoreboard.isSACKED
  by_cases he : s.empty = true
  · have hnil : items s.ranges = [] := (SACKScoreboard.empty_iff s).1 he
    rw [if_pos he, hnil]
    simpa using ⟨_, hstart⟩
  rw [if_neg he, descend_of_chain hl hr.start_lt]
  have hsplit := List.takeWhile_append_dropWhile (p := fun i => !r.less i) (l := items s.ranges)
  have hTle : ∀ k ∈ (items s.ranges).takeWhile fun i => !r.less i, (k.ival base).1 ≤ (r.ival base).1 :=
    fun k hk => Chain.le_of_mem_takeWhile_not_less hr.start_lt
      (hl.fits k ((List.takeWhile_sublist _).subset hk)) hk
  have hmemT : ∀ k ∈ items s.ranges, (k.ival base).1 ≤ (r.ival base).1 →
      k ∈ (items s.ranges).takeWhile fun i => !r.less i :=
    fun k hk hle => hl.mem_takeWhile_not_less hr.start_lt hk hle
  have hUgt : ∀ k ∈ (items s.ranges).dropWhile fun i => !r.less i, (r.ival base).1 < (k.ival base).1 :=
    fun k hk => hl.lt_of_mem_dropWhile_not_less hr.start_lt hk
  generalize (items s.ranges).takeWhile (fun i => !r.less i) = P at hsplit hTle hmemT ⊢
  generalize (items s.ranges).dropWhile (fun i => !r.less i) = U at hsplit hUgt
  rcases List.eq_nil_or_concat P with rfl | ⟨T0, j, rfl⟩
  · -- no range starts at or before `r`, so none covers its start
    simp only [List.reverse_nil, walk, Bool.false_eq_true, false_iff, not_forall]
    refine ⟨_, hstart, fun hcov => ?_⟩
    obtain ⟨b, hb', hx⟩ := hcov
    exact absurd (hmemT b hb' hx.1) List.not_mem_nil
  rw [List.concat_eq_append] at hsplit hTle hmemT
  rw [List.concat_eq_append, List.reverse_append, List.reverse_singleton, List.singleton_append]
  rw [← hsplit] at hl
  have hj := hl.fits j (by simp)
  have hj1 := hTle j (by simp)
  -- a range covering a point of `r` from `r`'s start on is `j`, or ends before `j`
  have hwhere : ∀ b ∈ items s.ranges, ∀ x, Covers (b.ival base) x → (r.ival base).1 ≤ x →
      (b.ival base).1 ≤ (r.ival base).1 → b = j ∨ (b.ival base).2 < (j.ival base).1 := by
    intro b hb' x hx hrx hbr
    rcases List.mem_append.1 (hmemT b hb' hbr) with hb0 | hbj
    · have hpw0 := List.pairwise_append.1 (List.pairwise_append.1 hl.sorted).1
      exact .inr (hpw0.2.2 b hb0 j (List.mem_singleton_self j))
    · exact .inl (List.mem_singleton.1 hbj)
  by_cases hgap : (j.ival base).2 < (r.ival base).1
  · -- `j` ends before `r`: nothing covers `r`'s start
    have hlt : j.End.lessThan r.Start = true :=
      (Value.lessThan_iff_size_lt base hj.2 hr.start_lt).2 hgap
    have hstop : (fun found i => if i.End.lessThan r.Start = true then (false, found)
        else if i.contains r = true then (false, true) else (true, found)) false j =
        (false, false) := by
      simp [hlt]
    rw [walk_cons_of_stop hstop]
    simp only [Bool.false_eq_true, false_iff, not_forall]
    refine ⟨_, hstart, fun hcov => ?_⟩
    obtain ⟨b, hb', hx⟩ := hcov
    have := hx.2
    rcases hwhere b hb' _ hx (Nat.le_refl _) hx.1 with rfl | hbj
    · omega
    · omega
  have hlt : j.End.lessThan r.Start = false := by
    rw [← Bool.not_eq_true, Value.lessThan_iff_size_lt base hj.2 hr.start_lt]
    exact hgap
  by_cases hc : j.contains r = true
  · -- `j` holds `r`
    have hstop : (fun found i => if i.End.lessThan r.Start = true then (false, found)
        else if i.contains r = true then (false, true) else (true, found)) false j =
        (false, true) := by
      simp [hlt, hc]
    rw [walk_cons_of_stop hstop]
    rw [SACKBlock.contains_iff hj hr] at hc
    simp only [true_iff]
    intro x hx
    exact ⟨j, by rw [← hsplit]; simp, Nat.le_trans hc.1 hx.1, Nat.lt_of_lt_of_le hx.2 hc.2⟩
  · -- `j` covers the start of `r` and ends inside it, leaving its end uncovered
    have hmore : (fun found i => if i.End.lessThan r.Start = true then (false, found)
        else if i.contains r = true then (false, true) else (true, found)) false j =
        (true, false) := by
      simp [hlt, hc]
    rw [walk_cons_of_more hmore]
    have hwalk : walk (fun found i => if i.End.lessThan r.Start = true then (false, found)
        else if i.contains r = true then (false, true) else (true, found)) T0.reverse false =
        false := by
      cases hT0 : T0.reverse with
      | nil => rfl
      | cons k rest =>
        have hk : k ∈ T0 := List.mem_reverse.1 (hT0 ▸ List.mem_cons_self)
        have hkf := hl.fits k (by simp [hk])
        have hkj := (List.pairwise_append.1 (List.pairwise_append.1 hl.sorted).1).2.2 k hk j
          (List.mem_singleton_self j)
        have hklt : k.End.lessThan r.Start = true :=
          (Value.lessThan_iff_size_lt base hkf.2 hr.start_lt).2
            (show (k.ival base).2 < (r.ival base).1 by omega)
        have hstop : (fun found i => if i.End.lessThan r.Start = true then (false, found)
            else if i.contains r = true then (false, true) else (true, found)) false k =
            (false, false) := by
          simp [hklt]
        exact walk_cons_of_stop hstop
    rw [hwalk]
    rw [SACKBlock.contains_iff hj hr] at hc
    have hjr : (j.ival base).2 < (r.ival base).2 := by omega
    simp only [Bool.false_eq_true, false_iff, not_forall]
    refine ⟨(j.ival base).2, ⟨by omega, hjr⟩, fun hcov => ?_⟩
    obtain ⟨b, hb', hx⟩ := hcov
    have hb'' := hb'
    rw [← hsplit] at hb''
    rcases List.mem_append.1 hb'' with hbT | hbU
    · rcases hwhere b hb' _ hx (by omega) (hTle b hbT) with rfl | hbj
      · exact absurd hx.2 (Nat.lt_irrefl _)
      · have := hx.2
        have := hj.1
        omega
    · have := (List.pairwise_append.1 hl.sorted).2.2 j (by simp) b hbU
      have := hx.1
      omega

end IsSACKED

section Lengths

variable {base : Value} {l : List SACKBlock}

theorem toNat_sumLengths (l : List SACKBlock) :
    (sumLengths l).toNat = (l.map fun b => (b.Start.size b.End).toNat).sum % 2 ^ 32 := by
  induction l with
  | nil => rfl
  | cons b l ih =>
    rw [sumLengths_cons, UInt32.toNat_add, ih, List.map_cons, List.sum_cons]
    omega

/-- The ranges of a chain lie apart within `2^31`, so their lengths add up to
at most `2^31`. -/
theorem Chain.sum_lengths_le (h : Chain base l) :
    (l.map fun b => (b.Start.size b.End).toNat).sum ≤ 2 ^ 31 := by
  have hsorted : IntervalCover.Sorted (l.map (SACKBlock.ival base)) :=
    List.pairwise_map.2 (h.sorted.imp Nat.le_of_lt)
  have hle := IntervalCover.sum_overlap_le hsorted 0 (2 ^ 31)
  rw [List.map_map] at hle
  have heq : (l.map fun b => (b.Start.size b.End).toNat) =
      l.map ((IntervalCover.overlap · 0 (2 ^ 31)) ∘ SACKBlock.ival base) := by
    refine List.map_congr_left fun b hb => ?_
    have hf := h.fits b hb
    rw [Function.comp_apply, IntervalCover.overlap, SACKBlock.toNat_size hf, Nat.min_eq_left hf.2.le,
      Nat.max_eq_left (Nat.zero_le _)]
  rw [heq]
  exact hle

/-- On a board `Sacked` counts the lengths of the ranges exactly. -/
theorem Board.toNat_sacked {s : SACKScoreboard T} (hb : Board base s) :
    s.sacked.toNat = ((items s.ranges).map fun b => (b.Start.size b.End).toNat).sum := by
  rw [hb.sacked, toNat_sumLengths, Nat.mod_eq_of_lt]
  exact Nat.lt_of_le_of_lt hb.chain.sum_lengths_le (by decide)

end Lengths

namespace SACKScoreboard

/-- The calls the sender makes on its scoreboard, each range and each `seq`
of `Delete` within `2^31` past `base`. -/
inductive Step (base : Value) : SACKScoreboard T → SACKScoreboard T → Prop
  | insert (s : SACKScoreboard T) (r : SACKBlock) (hr : r.Fits base) : Step base s (s.insert r)
  | delete (s : SACKScoreboard T) (seq : Value) (hseq : (base.size seq).toNat < 2 ^ 31) :
      Step base s (s.delete seq)
  | reset (s : SACKScoreboard T) : Step base s s.reset

/-- The scoreboards reached from `NewSACKScoreboard(smss, iss)`. -/
def Reachable (base : Value) (smss : UInt16) (iss : Value) : SACKScoreboard T → Prop :=
  Transition.Reachable (· = newSACKScoreboard smss iss) (Step base)

theorem Reachable.new (base : Value) (smss : UInt16) (iss : Value) :
    Reachable base smss iss (newSACKScoreboard smss iss : SACKScoreboard T) :=
  Transition.Reachable.of_init rfl

theorem Reachable.step {base iss : Value} {smss : UInt16} {s s' : SACKScoreboard T}
    (h : Reachable base smss iss s) (hs : Step base s s') : Reachable base smss iss s' :=
  Transition.Reachable.tail h hs

theorem Reachable.board [Lawful T SACKBlock] {base iss : Value} {smss : UInt16}
    {s : SACKScoreboard T} (h : Reachable base smss iss s) : Board base s := by
  -- a new tree and a reset one hold no items
  have hnew : Board base (⟨smss, iss, 0, OrderedSet.new⟩ : SACKScoreboard T) :=
    ⟨by rw [Lawful.items_new]; exact Chain.nil, by rw [Lawful.items_new]; rfl⟩
  refine Transition.Reachable.invariant (Board base) ?_ ?_ h
  · rintro s rfl
    exact hnew
  · intro s s' hb hstep
    cases hstep with
    | insert r hr => exact (hb.insert hr).1
    | delete seq hseq => exact (hb.delete hseq).1
    | reset => exact ⟨by rw [SACKScoreboard.reset, Lawful.items_new]; exact Chain.nil,
        by rw [SACKScoreboard.reset, Lawful.items_new]; rfl⟩

end SACKScoreboard

/-- Over any run of `Insert`, `Delete` and `Reset` with ranges and `seq`s within
`2^31` past a base, the scoreboard's ranges are in ascending order, each
nonempty and ending before the next starts (so disjoint and not adjacent),
`Sacked` is the sum of their lengths, an `Insert` below `maxSACKBlocks` ranges
adds `r` to what they cover, a `Delete` removes what comes before `seq`, and
`IsSACKED(r)` says whether all of `r` is covered. -/
theorem reachable_scoreboard_ranges [Lawful T SACKBlock] (base : Value) (smss : UInt16)
    (iss : Value) (s : SACKScoreboard T) (hs : SACKScoreboard.Reachable base smss iss s) :
    (items s.ranges).Pairwise (fun a b => a.End.lessThan b.Start = true) ∧
      (∀ b ∈ items s.ranges, b.Fits base) ∧
      s.sacked.toNat = ((items s.ranges).map fun b => (b.Start.size b.End).toNat).sum ∧
      (∀ r : SACKBlock, r.Fits base → (items s.ranges).length < maxSACKBlocks → ∀ v,
        Covered (items (s.insert r).ranges) v ↔
          Covered (items s.ranges) v ∨ v.inRange r.Start r.End = true) ∧
      (∀ seq : Value, (base.size seq).toNat < 2 ^ 31 → ∀ v,
        Covered (items (s.delete seq).ranges) v ↔
          Covered (items s.ranges) v ∧ v.lessThan seq = false) ∧
      ∀ r : SACKBlock, r.Fits base →
        (s.isSACKED r = true ↔ ∀ v, v.inRange r.Start r.End = true → Covered (items s.ranges) v) := by
  have hb := hs.board
  have hfits := hb.chain.fits
  refine ⟨hb.chain.ordered.imp fun ⟨ha, hb', hab⟩ =>
      (Value.lessThan_iff_size_lt base ha.2 hb'.start_lt).2 hab,
    hfits, hb.toNat_sacked, fun r hr hlen v => ?_, fun seq hseq v => ?_, fun r hr => ?_⟩
  · -- `Insert`, pointwise at the distance of `v`
    have hins := hb.insert hr
    rw [covered_iff hins.1.chain.fits, (hins.2 hlen _), covered_iff hfits, hr.inRange_iff, or_comm]
  · -- `Delete` cuts the ranges as `trimBlock` does
    rw [(hb.delete hseq).2]
    exact covered_filterMap_trimBlock hfits hseq v
  · -- `IsSACKED`: a number of `r` is `v` at its distance from the base
    rw [hb.isSACKED hr]
    constructor
    · intro h v hv
      rw [covered_iff hfits]
      exact h _ (hr.inRange_iff.1 hv)
    · intro h x hx
      have hx' : (base.size (base + x.toUInt32)).toNat = x :=
        Value.toNat_size_add base (Nat.lt_trans (Nat.lt_trans hx.2 hr.2) (by decide))
      have hv := h (base + x.toUInt32) (hr.inRange_iff.2 (by rw [hx']; exact hx))
      rw [covered_iff hfits, hx'] at hv
      exact hv

theorem reachable_scoreboard_ranges_insert :
    (((newSACKScoreboard 1460 0 : SACKScoreboard (List SACKBlock)).insert ⟨10, 20⟩).insert
        ⟨15, 30⟩).sacked.toNat =
      ((((newSACKScoreboard 1460 0 : SACKScoreboard (List SACKBlock)).insert ⟨10, 20⟩).insert
        ⟨15, 30⟩).ranges.map fun b => (b.Start.size b.End).toNat).sum :=
  have h : SACKScoreboard.Reachable 0 1460 0
      (((newSACKScoreboard 1460 0 : SACKScoreboard (List SACKBlock)).insert ⟨10, 20⟩).insert
        ⟨15, 30⟩) :=
    ((SACKScoreboard.Reachable.new 0 1460 0).step (.insert _ ⟨10, 20⟩ ⟨by decide, by decide⟩)).step
      (.insert _ ⟨15, 30⟩ ⟨by decide, by decide⟩)
  (reachable_scoreboard_ranges 0 1460 0 _ h).2.2.1

end Tcp
