import Mathlib
import Gvisor.Segment.BTreeInsert

/-! Removal from the B-tree of a `Set` (`Remove` and `rebalanceAfterRemove`, pkg/segment/set.go).
A segment of an inner node is first replaced by its predecessor, the last segment of the child
before it, and that one is removed from its leaf instead. The leaf may be left one segment short
of `minDegree - 1`; `rebalanceAfterRemove` then walks up: a node short of a segment takes one
through its parent from a sibling that can spare it, or merges with a sibling and the segment
between them, which leaves the parent one segment shorter; a root left with one segment over two
children that merge becomes their merge, which is how the tree shrinks. The walk keeps the tree's
list of segments and the gap's place in it, and ends with every B-tree invariant restored, at the
same height or one less (`rebalanceAfterRemove_spec`); `Remove` is then `remove` of the list. -/

namespace Segment

open MultiwayTree Node

variable {V : Type} [Inhabited V]

namespace BTree

/-- The gap's position in a node moved by a renumbering `f` of that node's children and segments:
the child index that starts the gap's path below the node, or the gap's index where its leaf is
that node. -/
def shiftPos (f : ℕ → ℕ) : List ℕ → ℕ → List ℕ × ℕ
  | [], i => ([], f i)
  | k :: rest, i => (f k :: rest, i)

/-- `n` taking a segment from `s`, its previous sibling, through `e`, the segment of their parent
between them: `s` without its last segment and child, that segment to go up in place of `e`, and
`n` with `e` and that child in front. -/
def rotateRight (s : node V) (e : Range × V) (n : node V) : node V × (Range × V) × node V :=
  (mk (s.entries.take (nrSegments s - 1))
      (if hasChildren n then s.children.take (nrSegments s) else s.children),
    s.entries.getD (nrSegments s - 1) default,
    mk (e :: n.entries)
      (if hasChildren n then s.children.getD (nrSegments s) default :: n.children else n.children))

/-- `n` taking a segment from `s`, its next sibling, through `e`: `n` with `e` and the first
child of `s` at its end, the first segment of `s` to go up in place of `e`, and `s` without
them. -/
def rotateLeft (n : node V) (e : Range × V) (s : node V) : node V × (Range × V) × node V :=
  (mk (n.entries ++ [e])
      (if hasChildren n then n.children ++ [s.children.getD 0 default] else n.children),
    s.entries.getD 0 default,
    mk (s.entries.drop 1) (if hasChildren n then s.children.drop 1 else s.children))

/-- Siblings `l` and `r` merged with `e`, the segment of their parent between them, into `l`. -/
def merge (l : node V) (e : Range × V) (r : node V) : node V :=
  mk (l.entries ++ e :: r.entries) (if hasChildren l then l.children ++ r.children else l.children)

/-- The branch of `n.rebalanceAfterRemove(gap)` that rotates from `n.prevSibling()`, for `n`
child `j` of `p`. -/
def rotateFromPrev (p : node V) (j : ℕ) : node V :=
  let r := rotateRight (p.children.getD (j - 1) default) (p.entries.getD (j - 1) default)
    (p.children.getD j default)
  mk (p.entries.set (j - 1) r.2.1) ((p.children.set (j - 1) r.1).set j r.2.2)

/-- The branch that rotates from `n.nextSibling()`. -/
def rotateFromNext (p : node V) (j : ℕ) : node V :=
  let r := rotateLeft (p.children.getD j default) (p.entries.getD j default)
    (p.children.getD (j + 1) default)
  mk (p.entries.set j r.2.1) ((p.children.set j r.1).set (j + 1) r.2.2)

/-- The branch for `p.nrSegments == 1`: `p` becomes the merge of its two children. -/
def mergeIntoParent (p : node V) : node V :=
  merge (p.children.getD 0 default) (p.entries.getD 0 default) (p.children.getD 1 default)

/-- The last branch: children `a` and `a + 1` of `p`, `left` and `right`, merged into `left`, and
the segment between them taken out of `p`. -/
def mergeSiblings (p : node V) (a : ℕ) : node V :=
  mk (p.entries.take a ++ p.entries.drop (a + 1))
    (p.children.take a ++
      merge (p.children.getD a default) (p.entries.getD a default)
        (p.children.getD (a + 1) default) :: p.children.drop (a + 2))

/-- `n.rebalanceAfterRemove(gap)` for the node `n` whose path from the root, reversed, is `up`:
its `parentIndex`, its parent's, and so on. The gap is moved as the code moves it, and as the
renumbering of the `parentIndex` of moved children moves the nodes below. -/
def rebalanceAfterRemove (t : node V) : List ℕ → Cursor → node V × Cursor
  | [], gap => (t, gap)
  | j :: up, gap =>
    let pp := up.reverse
    let d := up.length + 1
    let p := t.subtree pp
    -- the gap's path below `n`
    let below := gap.node.drop d
    if minDegree - 1 ≤ nrSegments (p.children.getD j default) then (t, gap)
    else if 0 < j ∧ minDegree ≤ nrSegments (p.children.getD (j - 1) default) then
      (t.modify (fun p => rotateFromPrev p j) pp,
        if gap.node = pp ++ [j - 1] ∧
            gap.index = nrSegments (p.children.getD (j - 1) default) - 1 then ⟨pp ++ [j], 0⟩
        else if gap.node.take d = pp ++ [j] then
          ⟨pp ++ j :: (shiftPos (fun k => k + 1) below gap.index).1,
            (shiftPos (fun k => k + 1) below gap.index).2⟩
        else gap)
    else if j ≠ nrSegments p ∧ minDegree ≤ nrSegments (p.children.getD (j + 1) default) then
      (t.modify (fun p => rotateFromNext p j) pp,
        if gap.node = pp ++ [j + 1] then
          if gap.index = 0 then ⟨pp ++ [j], nrSegments (p.children.getD j default) + 1⟩
          else ⟨gap.node, gap.index - 1⟩
        else gap)
    else if nrSegments p = 1 then
      let shift := nrSegments (p.children.getD 0 default) + 1
      (t.modify mergeIntoParent pp,
        if gap.node.take d = pp ++ [0] then ⟨pp ++ below, gap.index⟩
        else if gap.node.take d = pp ++ [1] then
          ⟨pp ++ (shiftPos (fun k => k + shift) below gap.index).1,
            (shiftPos (fun k => k + shift) below gap.index).2⟩
        else gap)
    else
      -- `left` is the previous sibling where there is one, else `n`
      let a := if 0 < j then j - 1 else j
      let shift := nrSegments (p.children.getD a default) + 1
      rebalanceAfterRemove (t.modify (fun p => mergeSiblings p a) pp) up
        (if gap.node.take d = pp ++ [a + 1] then
          ⟨pp ++ a :: (shiftPos (fun k => k + shift) below gap.index).1,
            (shiftPos (fun k => k + shift) below gap.index).2⟩
        else gap)

/-- The leaf branch of `s.Remove(seg)`: the segment taken out of its leaf, then
`seg.node.rebalanceAfterRemove(GapIterator{seg.node, seg.index})`. -/
def removeLeaf (t : node V) (seg : Cursor) : node V × Cursor :=
  rebalanceAfterRemove
    (t.modify (fun n => mk (n.entries.take seg.index ++ n.entries.drop (seg.index + 1)) n.children)
      seg.node)
    seg.node.reverse seg

/-- The segment at `seg` rewritten by `f` in its node's arrays, as an iterator's setters do. -/
def modifySegment (t : node V) (seg : Cursor) (f : Range × V → Range × V) : node V :=
  t.modify (fun n => mk (n.entries.modify seg.index f) n.children) seg.node

namespace Iterator

/-- `seg.SetRangeUnchecked(r)`. -/
def setRangeUnchecked (t : node V) (seg : Cursor) (r : Range) : node V :=
  modifySegment t seg fun p => (r, p.2)

/-- `seg.SetStartUnchecked(start)`. -/
def setStartUnchecked (t : node V) (seg : Cursor) (start : ℕ) : node V :=
  modifySegment t seg fun p => (⟨start, p.1.End⟩, p.2)

/-- `seg.SetEndUnchecked(end)`. -/
def setEndUnchecked (t : node V) (seg : Cursor) (e : ℕ) : node V :=
  modifySegment t seg fun p => (⟨p.1.Start, e⟩, p.2)

/-- `seg.SetValue(val)`. -/
def setValue (t : node V) (seg : Cursor) (val : V) : node V :=
  modifySegment t seg fun p => (p.1, val)

end Iterator

namespace Set

/-- `s.Remove(seg)`: below an inner node the segment's predecessor, `seg.PrevSegment()`, which is
the last segment of the child before it, takes its place and is removed from its leaf instead;
the gap after it is returned. -/
def remove (t : node V) (seg : Cursor) : node V × Option Cursor :=
  if hasChildren (t.subtree seg.node) then
    let victim := BTree.lastSegment t (seg.node ++ [seg.index])
    let t₁ := Iterator.setRangeUnchecked t seg (segment t victim).1
    let r := removeLeaf (Iterator.setValue t₁ seg (segment t₁ victim).2) victim
    (r.1, GapIterator.nextGap r.1 r.2)
  else
    let r := removeLeaf t seg
    (r.1, some r.2)

end Set

/-! ## Merging and rotating between two siblings -/

section Siblings

variable {lo hi h : ℕ} {l r n s : node V} (e : Range × V)

omit [Inhabited V] in
/-- Siblings of one height are both leaves or both inner nodes. -/
theorem children_cases_of_shape (hl : l.Shape lo hi h) (hr : r.Shape lo hi h) :
    l.children.length = l.entries.length + 1 ∧ r.children.length = r.entries.length + 1 ∨
      l.children = [] ∧ r.children = [] := by
  cases h with
  | zero => exact .inr ⟨hl.1, hr.1⟩
  | succ h => exact .inl ⟨hl.1, hr.1⟩

omit [Inhabited V] in
theorem hasChildren_of_shape (hl : l.Shape lo hi (h + 1)) : hasChildren l = true := by
  rw [hasChildren_iff]
  intro h0
  have := hl.1
  rw [h0] at this
  exact absurd this (by simp)

omit [Inhabited V] in
theorem merge_of_shape (hl : l.Shape lo hi h) (hr : r.Shape lo hi h) :
    merge l e r = mk (l.entries ++ e :: r.entries) (l.children ++ r.children) := by
  rw [merge]
  cases h with
  | zero => simp [hl.1, hr.1]
  | succ h => rw [if_pos (hasChildren_of_shape hl)]

omit [Inhabited V] in
theorem nrSegments_merge : nrSegments (merge l e r) = nrSegments l + 1 + nrSegments r := by
  simp only [merge, nrSegments, entries_mk, List.length_append, List.length_cons]
  omega

omit [Inhabited V] in
theorem flatten_merge_of_shape (hl : l.Shape lo hi h) (hr : r.Shape lo hi h) :
    (merge l e r).flatten = l.flatten ++ e :: r.flatten := by
  rw [merge_of_shape e hl hr, flatten_merge ((children_cases_of_shape hl hr).imp_left id), eta,
    eta]

omit [Inhabited V] in
theorem shape_merge (hl : l.Shape lo hi h) (hr : r.Shape lo hi h)
    (hle : nrSegments l + 1 + nrSegments r ≤ hi) : (merge l e r).Shape lo hi h := by
  rw [merge_of_shape e hl hr]
  exact Shape.merge (by rwa [eta]) (by rwa [eta]) hle

omit [Inhabited V] in
/-- A gap under the first sibling keeps its place in the merge. -/
theorem merge_gap_left (hl : l.Shape lo hi h) (hr : r.Shape lo hi h) {rest : List ℕ} {i : ℕ}
    (hv : ValidGap l ⟨rest, i⟩) :
    ValidGap (merge l e r) ⟨rest, i⟩ ∧ (merge l e r).upTo rest i = l.upTo rest i := by
  have hc := children_cases_of_shape hl hr
  rw [merge_of_shape e hl hr]
  obtain ⟨les, lcs⟩ := l
  obtain ⟨res, rcs⟩ := r
  obtain ⟨m, hm, hleaf, hi⟩ := hv
  simp only [children_mk, entries_mk] at hc ⊢
  cases rest with
  | nil =>
    cases hm
    simp only [children_mk] at hleaf
    subst hleaf
    obtain ⟨-, rfl⟩ : [] = [] ∧ rcs = [] := hc.resolve_left (by simp)
    simp only [nrSegments, entries_mk] at hi
    exact ⟨⟨_, rfl, rfl, by simp [nrSegments]; omega⟩, upTo_merge_leaf_left hi⟩
  | cons k rest =>
    obtain ⟨hk, -⟩ := get?_cons_eq_some.1 hm
    have hk' : k ≤ les.length := by
      rcases hc with ⟨hc, -⟩ | ⟨rfl, -⟩
      · simp only [children_mk] at hk
        omega
      · exact absurd hk (Nat.not_lt_zero _)
    have hac := hc.imp_left And.left
    exact ⟨⟨m, by rw [get?_merge_left hac hk']; exact hm, hleaf, hi⟩, upTo_merge_left hac hk' rest i⟩

omit [Inhabited V] in
/-- A gap under the second sibling moves past the first and `e`. -/
theorem merge_gap_right (hl : l.Shape lo hi h) (hr : r.Shape lo hi h) {sh : ℕ}
    (hsh : nrSegments l + 1 = sh) {rest : List ℕ} {i : ℕ} (hv : ValidGap r ⟨rest, i⟩) :
    ValidGap (merge l e r) ⟨(shiftPos (fun k => k + sh) rest i).1,
        (shiftPos (fun k => k + sh) rest i).2⟩ ∧
      (merge l e r).upTo (shiftPos (fun k => k + sh) rest i).1
          (shiftPos (fun k => k + sh) rest i).2 =
        l.flatten ++ e :: r.upTo rest i := by
  subst hsh
  have hc := children_cases_of_shape hl hr
  rw [merge_of_shape e hl hr]
  obtain ⟨les, lcs⟩ := l
  obtain ⟨res, rcs⟩ := r
  obtain ⟨m, hm, hleaf, hi⟩ := hv
  simp only [children_mk, entries_mk, nrSegments] at hc hi ⊢
  cases rest with
  | nil =>
    cases hm
    simp only [children_mk] at hleaf
    subst hleaf
    obtain ⟨rfl, -⟩ : lcs = [] ∧ [] = [] := hc.resolve_left (by simp)
    simp only [entries_mk] at hi
    exact ⟨⟨_, rfl, rfl, by simp [shiftPos, nrSegments]; omega⟩, upTo_merge_leaf i⟩
  | cons k rest =>
    obtain ⟨hk, -⟩ := get?_cons_eq_some.1 hm
    obtain ⟨hac, hbc⟩ : lcs.length = les.length + 1 ∧ rcs.length = res.length + 1 := by
      rcases hc with hc | ⟨-, rfl⟩
      · exact hc
      · exact absurd hk (Nat.not_lt_zero _)
    exact ⟨⟨m, by rw [shiftPos, get?_merge_right (.inl hac)]; exact hm, hleaf, hi⟩,
      upTo_merge_right hac hbc k rest i⟩

/-- `rotateLeft` is the merge of `n`, `e` and the first child of `s`, with `s` split after it. -/
theorem rotateLeft_eq (hn : n.Shape lo hi h) (hs : s.Shape lo hi h) :
    rotateLeft n e s = (merge n e (mk [] (s.children.take 1)), s.entries.getD 0 default,
      mk (s.entries.drop 1) (s.children.drop 1)) := by
  rw [rotateLeft, merge]
  cases h with
  | zero => simp [hn.1, hs.1, hasChildren]
  | succ h =>
    have hsc : s.children.take 1 = [s.children.getD 0 default] := by
      have := hs.1
      rcases hcs : s.children with _ | ⟨c, cs⟩
      · rw [hcs] at this
        simp at this
      · simp
    rw [if_pos (hasChildren_of_shape hn), if_pos (hasChildren_of_shape hn), hsc,
      if_pos (hasChildren_of_shape hn)]
    rfl

/-- `rotateRight` is `s` split before its last segment, with the merge of its last child, `e` and
`n`. -/
theorem rotateRight_eq (hs : s.Shape lo hi h) (hn : n.Shape lo hi h) :
    rotateRight s e n = (mk (s.entries.take (nrSegments s - 1)) (s.children.take (nrSegments s)),
      s.entries.getD (nrSegments s - 1) default,
      merge (mk [] (s.children.drop (nrSegments s))) e n) := by
  rw [rotateRight, merge]
  cases h with
  | zero => simp [hn.1, hs.1, hasChildren]
  | succ h =>
    have hsc : s.children.drop (nrSegments s) = [s.children.getD (nrSegments s) default] := by
      have hlen := hs.1
      rw [List.getD_eq_getElem _ _ (by rw [nrSegments]; omega), List.drop_eq_getElem_cons
        (by rw [nrSegments]; omega), List.drop_of_length_le (by rw [nrSegments]; omega)]
    rw [if_pos (hasChildren_of_shape hn), if_pos (hasChildren_of_shape hn), hsc,
      if_pos (by simp [hasChildren])]
    rfl

/-- The pieces of the previous sibling a rotation takes apart: `s` without its last segment and
child, and that child alone. -/
theorem rotateRight_pieces (hs : s.Shape lo hi h) (hs0 : 0 < nrSegments s) :
    (mk (s.entries.take (nrSegments s - 1)) (s.children.take (nrSegments s))).Shape lo hi h ∧
      (mk [] (s.children.drop (nrSegments s))).Shape lo hi h ∧
      (mk (s.entries.take (nrSegments s - 1)) (s.children.take (nrSegments s))).flatten ++
          s.entries.getD (nrSegments s - 1) default ::
            (mk [] (s.children.drop (nrSegments s))).flatten = s.flatten := by
  obtain ⟨es, cs⟩ := s
  obtain ⟨m, hm⟩ : ∃ m, es.length = m + 1 := ⟨es.length - 1, by simp [nrSegments] at hs0; omega⟩
  have hml : m < es.length := by omega
  have hdrop : es.drop (m + 1) = [] := List.drop_of_length_le (by omega)
  simp only [nrSegments, entries_mk, children_mk, hm, Nat.add_sub_cancel]
  rw [← hdrop, List.getD_eq_getElem _ _ hml]
  exact ⟨hs.take_succ hml, hs.drop_succ hml, (flatten_split hml hs.children_cases).symm⟩

/-- The pieces of the next sibling a rotation takes apart: its first child alone, and `s`
without its first segment and child. -/
theorem rotateLeft_pieces (hs : s.Shape lo hi h) (hs0 : 0 < nrSegments s) :
    (mk [] (s.children.take 1)).Shape lo hi h ∧
      (mk (s.entries.drop 1) (s.children.drop 1)).Shape lo hi h ∧
      (mk [] (s.children.take 1)).flatten ++ s.entries.getD 0 default ::
          (mk (s.entries.drop 1) (s.children.drop 1)).flatten = s.flatten := by
  obtain ⟨es, cs⟩ := s
  have h0 : 0 < es.length := hs0
  simp only [entries_mk, children_mk]
  rw [← @List.take_zero _ es, List.getD_eq_getElem _ _ h0]
  exact ⟨hs.take_succ h0, hs.drop_succ h0, (flatten_split h0 hs.children_cases).symm⟩

end Siblings

/-! ## Steps that keep the list and the gap -/

section Keeps

variable {p p' p'' : node V} {g g' g'' : Cursor}

/-- `p'` holds the list of `p`, and `g'` is a gap of `p'` at the place of the gap `g` of `p`. -/
structure KeepsGap (p p' : node V) (g g' : Cursor) : Prop where
  flatten_eq : p'.flatten = p.flatten
  valid : ValidGap p' g'
  upTo_eq : p'.upTo g'.node g'.index = p.upTo g.node g.index

omit [Inhabited V] in
theorem KeepsGap.refl (hg : ValidGap p g) : KeepsGap p p g g := ⟨rfl, hg, rfl⟩

omit [Inhabited V] in
theorem KeepsGap.trans (h₁ : KeepsGap p p' g g') (h₂ : KeepsGap p' p'' g' g'') :
    KeepsGap p p'' g g'' :=
  ⟨h₂.flatten_eq.trans h₁.flatten_eq, h₂.valid, h₂.upTo_eq.trans h₁.upTo_eq⟩

omit [Inhabited V] in
theorem KeepsGap.rank_eq (hk : KeepsGap p p' g g') : rank p' g' = rank p g := by
  rw [rank_eq_length_upTo, rank_eq_length_upTo, hk.upTo_eq]

omit [Inhabited V] in
/-- A step on the node at `pp` is one on the whole tree. -/
theorem KeepsGap.lift {t : node V} {pp : List ℕ} (hp : t.get? pp = some p)
    (hk : KeepsGap p p' g g') :
    KeepsGap t (t.modify (fun _ => p') pp) ⟨pp ++ g.node, g.index⟩ ⟨pp ++ g'.node, g'.index⟩ := by
  obtain ⟨hflat, ⟨m, hm, hleaf, hi⟩, hup⟩ := hk
  refine ⟨?_, ⟨m, ?_, hleaf, hi⟩, ?_⟩
  · rw [flatten_modify _ hp, flatten_eq_of_get? hp, hflat]
  · show (t.modify _ pp).get? (pp ++ g'.node) = some m
    rw [get?_modify_append _ hp]
    exact hm
  · show (t.modify _ pp).upTo (pp ++ g'.node) g'.index = t.upTo (pp ++ g.node) g.index
    rw [upTo_modify_append _ hp, upTo_append hp]
    exact congrArg (t.before pp ++ ·) hup

end Keeps

/-! ## The steps on the window of two siblings -/

section Window

variable {es₁ es₂ : List (Range × V)} {cs₁ cs₂ : List (node V)} {x : Range × V} {a b : node V}
  {i : ℕ}

theorem rotateFromPrev_window (h₁ : es₁.length = i) (h₂ : cs₁.length = i) :
    rotateFromPrev (mk (es₁ ++ x :: es₂) (cs₁ ++ a :: b :: cs₂)) (i + 1) =
      mk (es₁ ++ (rotateRight a x b).2.1 :: es₂)
        (cs₁ ++ (rotateRight a x b).1 :: (rotateRight a x b).2.2 :: cs₂) := by
  subst h₂
  simp [rotateFromPrev, h₁]

theorem rotateFromNext_window (h₁ : es₁.length = i) (h₂ : cs₁.length = i) :
    rotateFromNext (mk (es₁ ++ x :: es₂) (cs₁ ++ a :: b :: cs₂)) i =
      mk (es₁ ++ (rotateLeft a x b).2.1 :: es₂)
        (cs₁ ++ (rotateLeft a x b).1 :: (rotateLeft a x b).2.2 :: cs₂) := by
  subst h₂
  simp [rotateFromNext, h₁]

theorem mergeSiblings_window (h₁ : es₁.length = i) (h₂ : cs₁.length = i) :
    mergeSiblings (mk (es₁ ++ x :: es₂) (cs₁ ++ a :: b :: cs₂)) i =
      mk (es₁ ++ es₂) (cs₁ ++ merge a x b :: cs₂) := by
  subst h₂
  have hdrop : (es₁ ++ x :: es₂).drop (cs₁.length + 1) = es₂ := by
    rw [← h₁]
    simp
  simp [mergeSiblings, h₁, hdrop]

variable {lo hi h : ℕ} {rest : List ℕ} {k : ℕ}

theorem rotateFromPrev_step (ha : a.Shape lo hi h) (hb : b.Shape lo hi h)
    (ha0 : 0 < nrSegments a) (h₁ : es₁.length = i) (h₂ : cs₁.length = i)
    (hg : ValidGap b ⟨rest, k⟩) :
    KeepsGap (mk (es₁ ++ x :: es₂) (cs₁ ++ a :: b :: cs₂))
      (rotateFromPrev (mk (es₁ ++ x :: es₂) (cs₁ ++ a :: b :: cs₂)) (i + 1)) ⟨(i + 1) :: rest, k⟩
      ⟨(i + 1) :: (shiftPos (fun k => k + 1) rest k).1, (shiftPos (fun k => k + 1) rest k).2⟩ := by
  obtain ⟨-, hsl, hflat⟩ := rotateRight_pieces ha ha0
  have hsh : nrSegments (mk [] (a.children.drop (nrSegments a))) + 1 = 1 := rfl
  obtain ⟨⟨m, hm, hleaf, hk⟩, hup⟩ := merge_gap_right x hsl hb hsh hg
  rw [rotateFromPrev_window h₁ h₂, rotateRight_eq x ha hb]
  refine ⟨flatten_window_pair (h₁.trans h₂.symm) ?_, ⟨m, ?_, hleaf, hk⟩, ?_⟩
  · rw [flatten_merge_of_shape x hsl hb, ← hflat]
    simp
  · dsimp only
    rw [get?_window_succ h₂]
    exact hm
  · dsimp only
    rw [upTo_window_succ h₁ h₂, upTo_window_succ h₁ h₂, hup, ← hflat]
    simp

theorem rotateFromNext_step (ha : a.Shape lo hi h) (hb : b.Shape lo hi h)
    (hb0 : 0 < nrSegments b) (h₁ : es₁.length = i) (h₂ : cs₁.length = i)
    (hg : ValidGap a ⟨rest, k⟩) :
    KeepsGap (mk (es₁ ++ x :: es₂) (cs₁ ++ a :: b :: cs₂))
      (rotateFromNext (mk (es₁ ++ x :: es₂) (cs₁ ++ a :: b :: cs₂)) i) ⟨i :: rest, k⟩
      ⟨i :: rest, k⟩ := by
  obtain ⟨hsl, -, hflat⟩ := rotateLeft_pieces hb hb0
  obtain ⟨⟨m, hm, hleaf, hk⟩, hup⟩ := merge_gap_left x ha hsl hg
  rw [rotateFromNext_window h₁ h₂, rotateLeft_eq x ha hb]
  refine ⟨flatten_window_pair (h₁.trans h₂.symm) ?_, ⟨m, ?_, hleaf, hk⟩, ?_⟩
  · rw [flatten_merge_of_shape x ha hsl, ← hflat]
    simp
  · dsimp only
    rw [get?_window h₂]
    exact hm
  · dsimp only
    rw [upTo_window h₁ h₂, upTo_window h₁ h₂, hup]

theorem mergeSiblings_step_left (ha : a.Shape lo hi h) (hb : b.Shape lo hi h)
    (h₁ : es₁.length = i) (h₂ : cs₁.length = i) (hg : ValidGap a ⟨rest, k⟩) :
    KeepsGap (mk (es₁ ++ x :: es₂) (cs₁ ++ a :: b :: cs₂))
      (mergeSiblings (mk (es₁ ++ x :: es₂) (cs₁ ++ a :: b :: cs₂)) i) ⟨i :: rest, k⟩
      ⟨i :: rest, k⟩ := by
  obtain ⟨⟨m, hm, hleaf, hk⟩, hup⟩ := merge_gap_left x ha hb hg
  rw [mergeSiblings_window h₁ h₂]
  refine ⟨(flatten_window_split (h₁.trans h₂.symm) (flatten_merge_of_shape x ha hb)).symm,
    ⟨m, ?_, hleaf, hk⟩, ?_⟩
  · dsimp only
    rw [get?_window h₂]
    exact hm
  · dsimp only
    rw [upTo_window h₁ h₂, upTo_window h₁ h₂, hup]

theorem mergeSiblings_step_right (ha : a.Shape lo hi h) (hb : b.Shape lo hi h)
    (h₁ : es₁.length = i) (h₂ : cs₁.length = i) {sh : ℕ} (hsh : nrSegments a + 1 = sh)
    (hg : ValidGap b ⟨rest, k⟩) :
    KeepsGap (mk (es₁ ++ x :: es₂) (cs₁ ++ a :: b :: cs₂))
      (mergeSiblings (mk (es₁ ++ x :: es₂) (cs₁ ++ a :: b :: cs₂)) i) ⟨(i + 1) :: rest, k⟩
      ⟨i :: (shiftPos (fun k => k + sh) rest k).1, (shiftPos (fun k => k + sh) rest k).2⟩ := by
  obtain ⟨⟨m, hm, hleaf, hk⟩, hup⟩ := merge_gap_right x ha hb hsh hg
  rw [mergeSiblings_window h₁ h₂]
  refine ⟨(flatten_window_split (h₁.trans h₂.symm) (flatten_merge_of_shape x ha hb)).symm,
    ⟨m, ?_, hleaf, hk⟩, ?_⟩
  · dsimp only
    rw [get?_window h₂]
    exact hm
  · dsimp only
    rw [upTo_window h₁ h₂, upTo_window_succ h₁ h₂, hup]

theorem mergeIntoParent_mk : mergeIntoParent (mk [x] [a, b]) = merge a x b := rfl

theorem mergeIntoParent_step_left (ha : a.Shape lo hi h) (hb : b.Shape lo hi h)
    (hg : ValidGap a ⟨rest, k⟩) :
    KeepsGap (mk [x] [a, b]) (mergeIntoParent (mk [x] [a, b])) ⟨0 :: rest, k⟩ ⟨rest, k⟩ := by
  obtain ⟨hv, hup⟩ := merge_gap_left x ha hb hg
  refine ⟨?_, hv, ?_⟩
  · rw [mergeIntoParent_mk, flatten_merge_of_shape x ha hb]
    simp
  · show (merge a x b).upTo rest k = (mk [x] [a, b]).upTo (0 :: rest) k
    rw [hup, upTo_cons (by simp)]
    simp

theorem mergeIntoParent_step_right (ha : a.Shape lo hi h) (hb : b.Shape lo hi h) {sh : ℕ}
    (hsh : nrSegments a + 1 = sh) (hg : ValidGap b ⟨rest, k⟩) :
    KeepsGap (mk [x] [a, b]) (mergeIntoParent (mk [x] [a, b])) ⟨1 :: rest, k⟩
      ⟨(shiftPos (fun k => k + sh) rest k).1, (shiftPos (fun k => k + sh) rest k).2⟩ := by
  obtain ⟨hv, hup⟩ := merge_gap_right x ha hb hsh hg
  refine ⟨?_, hv, ?_⟩
  · rw [mergeIntoParent_mk, flatten_merge_of_shape x ha hb]
    simp
  · show (merge a x b).upTo _ _ = (mk [x] [a, b]).upTo (1 :: rest) k
    rw [hup, upTo_cons (by simp)]
    simp

/-- A rotation from the previous sibling, which can spare a segment, makes the parent of the
short child a B-tree node with as many segments. -/
theorem rotateFromPrev_shape (h₁ : es₁.length = i) (h₂ : cs₁.length = i)
    (he : ShapeExcept lo hi (h + 1) [i + 1] (mk (es₁ ++ x :: es₂) (cs₁ ++ a :: b :: cs₂)))
    (ha : lo + 1 ≤ nrSegments a) (hb : nrSegments b + 1 ≤ hi) :
    (rotateFromPrev (mk (es₁ ++ x :: es₂) (cs₁ ++ a :: b :: cs₂)) (i + 1)).Shape lo hi (h + 1) ∧
      nrSegments (rotateFromPrev (mk (es₁ ++ x :: es₂) (cs₁ ++ a :: b :: cs₂)) (i + 1)) =
        nrSegments (mk (es₁ ++ x :: es₂) (cs₁ ++ a :: b :: cs₂)) := by
  obtain ⟨hc₂, hle, hcs, ⟨-, has⟩, hblo, hbs⟩ := he.window_succ h₁ h₂
  obtain ⟨has', hsl, -⟩ := rotateRight_pieces has (by omega)
  rw [rotateFromPrev_window h₁ h₂, rotateRight_eq x has hbs]
  refine ⟨Shape.window_pair h₁ h₂ hc₂ hle hcs ⟨?_, has'⟩ ⟨?_, shape_merge x hsl hbs ?_⟩ _, ?_⟩
  · simp only [nrSegments, entries_mk, List.length_take] at ha ⊢
    omega
  · show lo ≤ nrSegments (merge _ x b)
    rw [nrSegments_merge]
    exact le_trans hblo (by simp [nrSegments])
  · simp only [nrSegments, entries_mk, List.length_nil] at hb ⊢
    omega
  · simp [nrSegments]

/-- So does a rotation from the next sibling. -/
theorem rotateFromNext_shape (h₁ : es₁.length = i) (h₂ : cs₁.length = i)
    (he : ShapeExcept lo hi (h + 1) [i] (mk (es₁ ++ x :: es₂) (cs₁ ++ a :: b :: cs₂)))
    (ha : nrSegments a + 1 ≤ hi) (hb : lo + 1 ≤ nrSegments b) :
    (rotateFromNext (mk (es₁ ++ x :: es₂) (cs₁ ++ a :: b :: cs₂)) i).Shape lo hi (h + 1) ∧
      nrSegments (rotateFromNext (mk (es₁ ++ x :: es₂) (cs₁ ++ a :: b :: cs₂)) i) =
        nrSegments (mk (es₁ ++ x :: es₂) (cs₁ ++ a :: b :: cs₂)) := by
  obtain ⟨hc₂, hle, hcs, ⟨-, hbs⟩, halo, has⟩ := he.window h₁ h₂
  obtain ⟨hsl, hsr, -⟩ := rotateLeft_pieces hbs (by omega)
  rw [rotateFromNext_window h₁ h₂, rotateLeft_eq x has hbs]
  refine ⟨Shape.window_pair h₁ h₂ hc₂ hle hcs ⟨?_, shape_merge x has hsl ?_⟩ ⟨?_, hsr⟩ _, ?_⟩
  · show lo ≤ nrSegments (merge a x _)
    rw [nrSegments_merge]
    exact le_trans halo (by simp [nrSegments])
  · simp only [nrSegments, entries_mk, List.length_nil] at ha ⊢
    omega
  · simp only [nrSegments, entries_mk, List.length_drop] at hb ⊢
    omega
  · simp [nrSegments]

/-- Merging two siblings of one height into one with an allowed number of segments makes the
parent a B-tree node with one segment fewer. -/
theorem mergeSiblings_shape (h₁ : es₁.length = i) (h₂ : cs₁.length = i)
    (hc₂ : cs₂.length = es₂.length) (hle : i + 1 + es₂.length ≤ hi)
    (hcs : ∀ d ∈ cs₁ ++ cs₂, lo ≤ d.entries.length ∧ d.Shape lo hi h) (ha : a.Shape lo hi h)
    (hb : b.Shape lo hi h) (hlo : lo ≤ nrSegments a + 1 + nrSegments b)
    (hhi : nrSegments a + 1 + nrSegments b ≤ hi) :
    (mergeSiblings (mk (es₁ ++ x :: es₂) (cs₁ ++ a :: b :: cs₂)) i).Shape lo hi (h + 1) ∧
      nrSegments (mergeSiblings (mk (es₁ ++ x :: es₂) (cs₁ ++ a :: b :: cs₂)) i) + 1 =
        nrSegments (mk (es₁ ++ x :: es₂) (cs₁ ++ a :: b :: cs₂)) := by
  rw [mergeSiblings_window h₁ h₂]
  refine ⟨Shape.window_one h₁ h₂ hc₂ (by omega) hcs ⟨?_, shape_merge x ha hb hhi⟩, ?_⟩
  · show lo ≤ nrSegments (merge a x b)
    rwa [nrSegments_merge]
  · simp [nrSegments]
    omega

end Window

/-! ## The walk up the tree -/

/-- The state `rebalanceAfterRemove` walks up with, at the node `n` at `p`: a B-tree but for `n`,
which may be one segment short, with a top that is not empty above height `0`, and the gap in a
leaf below `n`. -/
structure Walk (t : node V) (h : ℕ) (p : List ℕ) (gap : Cursor) : Prop where
  shape : ShapeExcept (minDegree - 1) (maxDegree - 1) h p t
  root_pos : 0 < h → 0 < nrSegments t
  below : p <+: gap.node
  valid : ValidGap t gap

/-- A step of the walk at child `j` of the node `p` at `pp`, of height `h₁ + 1`, with the gap at
`rest` and `idx` below child `j`. -/
structure StepAt (t : node V) (h : ℕ) (pp : List ℕ) (p : node V) (j h₁ : ℕ) (rest : List ℕ)
    (idx : ℕ) : Prop where
  walk : Walk t h (pp ++ [j]) ⟨pp ++ j :: rest, idx⟩
  get : t.get? pp = some p
  height : h = pp.length + (h₁ + 1)
  parent_lo : pp ≠ [] → minDegree - 1 ≤ nrSegments p
  parent : ShapeExcept (minDegree - 1) (maxDegree - 1) (h₁ + 1) [j] p
  gap : ValidGap p ⟨j :: rest, idx⟩

/-- What the walk leaves: the list and the gap kept, and a B-tree of the same height or, after
the top's two children are merged into it, one less. -/
structure WalkResult (t : node V) (h : ℕ) (gap : Cursor) (r : node V × Cursor) : Prop where
  keeps : KeepsGap t r.1 gap r.2
  balanced : ∃ h', (h' = h ∨ h' + 1 = h) ∧ Balanced r.1 h'

section Walk

variable {t P P' : node V} {h h₁ j idx : ℕ} {pp rest : List ℕ}

omit [Inhabited V] in
theorem nrSegments_modify_of_ne_nil (f : node V → node V) (hpp : pp ≠ []) :
    nrSegments (t.modify f pp) = nrSegments t := by
  obtain ⟨k, q, rfl⟩ := List.exists_cons_of_ne_nil hpp
  rw [nrSegments, nrSegments, entries_modify_cons]

omit [Inhabited V] in
/-- The walk at `n` is a step at its parent. -/
theorem Walk.stepAt {node : List ℕ} (hw : Walk t h (pp ++ [j]) ⟨node, idx⟩) :
    ∃ P h₁ rest, node = pp ++ j :: rest ∧ StepAt t h pp P j h₁ rest idx := by
  obtain ⟨m, hm, -, -, -⟩ := hw.shape.get?
  rw [get?_append] at hm
  obtain ⟨P, hP, -⟩ := Option.bind_eq_some_iff.1 hm
  obtain ⟨he, hlt, hlo⟩ := hw.shape.of_append hP (List.cons_ne_nil _ _)
  obtain ⟨rest, hrest⟩ := hw.below
  have hnode : node = pp ++ j :: rest := by
    rw [← show pp ++ [j] ++ rest = node from hrest]
    simp
  subst hnode
  obtain ⟨l, hl, hleaf, hi⟩ := hw.valid
  have hl' : t.get? (pp ++ j :: rest) = some l := hl
  rw [get?_append, hP, Option.bind_some] at hl'
  refine ⟨P, h - pp.length - 1, rest, rfl, hw, hP, by omega, hlo, ?_, l, hl', hleaf, hi⟩
  rwa [show h - pp.length - 1 + 1 = h - pp.length by omega]

omit [Inhabited V] in
theorem StepAt.eq_of_nil (hs : StepAt t h [] P j h₁ rest idx) : t = P := by
  simpa using hs.get

omit [Inhabited V] in
theorem StepAt.parent_pos (hs : StepAt t h pp P j h₁ rest idx) : 0 < nrSegments P := by
  by_cases hpp : pp = []
  · subst hpp
    rw [← hs.eq_of_nil]
    exact hs.walk.root_pos (by rw [hs.height]; omega)
  · have := hs.parent_lo hpp
    simp only [minDegree] at this
    omega

omit [Inhabited V] in
theorem StepAt.root_pos_modify (hs : StepAt t h pp P j h₁ rest idx)
    (hpos : pp = [] → 0 < h → 0 < nrSegments P') :
    0 < h → 0 < nrSegments (t.modify (fun _ => P') pp) := by
  intro hh
  by_cases hpp : pp = []
  · subst hpp
    exact hpos rfl hh
  · rw [nrSegments_modify_of_ne_nil _ hpp]
    exact hs.walk.root_pos hh

omit [Inhabited V] in
/-- A step that leaves the parent a B-tree node with as many segments ends the walk with a
B-tree of the same height. -/
theorem StepAt.balanced (hs : StepAt t h pp P j h₁ rest idx)
    (hP' : P'.Shape (minDegree - 1) (maxDegree - 1) (h₁ + 1)) (hn : nrSegments P' = nrSegments P) :
    Balanced (t.modify (fun _ => P') pp) h := by
  have hh : h - pp.length = h₁ + 1 := by
    rw [hs.height]
    omega
  have he := hs.walk.shape.modify hs.get (by rwa [hh]) fun hpp => by
    have := hs.parent_lo hpp
    rw [← hn] at this
    show minDegree - 1 ≤ nrSegments P' + 1
    omega
  refine ⟨he.shape fun m hm hpp => ?_, hs.root_pos_modify fun hpp hpos => ?_⟩
  · rw [get?_modify _ hs.get, Option.some_inj] at hm
    subst hm
    show minDegree - 1 ≤ nrSegments P'
    rw [hn]
    exact hs.parent_lo hpp
  · subst hpp
    rw [hn, ← hs.eq_of_nil]
    exact hs.walk.root_pos hpos

omit [Inhabited V] in
/-- A step that leaves the parent a B-tree node at most one segment short moves the walk up to
the parent. -/
theorem StepAt.walk_up (hs : StepAt t h pp P j h₁ rest idx)
    (hP' : P'.Shape (minDegree - 1) (maxDegree - 1) (h₁ + 1)) (hn : nrSegments P' + 1 = nrSegments P)
    (hpos : 0 < nrSegments P') {q : List ℕ} {k : ℕ} (hk : KeepsGap P P' ⟨j :: rest, idx⟩ ⟨q, k⟩) :
    Walk (t.modify (fun _ => P') pp) h pp ⟨pp ++ q, k⟩ ∧
      KeepsGap t (t.modify (fun _ => P') pp) ⟨pp ++ j :: rest, idx⟩ ⟨pp ++ q, k⟩ := by
  have hh : h - pp.length = h₁ + 1 := by
    rw [hs.height]
    omega
  have hk' := hk.lift hs.get
  refine ⟨⟨hs.walk.shape.modify hs.get (by rwa [hh]) fun hpp => ?_,
    hs.root_pos_modify fun _ _ => hpos, List.prefix_append _ _, hk'.valid⟩, hk'⟩
  have := hs.parent_lo hpp
  show minDegree - 1 ≤ nrSegments P' + 1
  omega

omit [Inhabited V] in
/-- The parent has one child more than segments, child `j` among them. -/
theorem StepAt.lengths (hs : StepAt t h pp P j h₁ rest idx) :
    P.children.length = P.entries.length + 1 ∧ j < P.children.length := by
  obtain ⟨hc, -, -, c, hcj, -⟩ := shapeExcept_cons.1 hs.parent
  exact ⟨hc, (List.getElem?_eq_some_iff.1 hcj).1⟩

/-! The branches of one step. -/

omit [Inhabited V] in
/-- `n` has enough segments: the walk ends. -/
theorem StepAt.sufficient (hs : StepAt t h pp P j h₁ rest idx)
    (hsuff : minDegree - 1 ≤ nrSegments (P.children.getD j default)) :
    WalkResult t h ⟨pp ++ j :: rest, idx⟩ (t, ⟨pp ++ j :: rest, idx⟩) := by
  refine ⟨.refl hs.walk.valid, h, .inl rfl, hs.walk.shape.shape fun m hm _ => ?_,
    hs.walk.root_pos⟩
  rw [get?_append, hs.get, Option.bind_some] at hm
  rw [← getD_children_of_get? hm]
  exact hsuff

/-- The previous sibling spares a segment: the walk ends. -/
theorem StepAt.rotatePrev (hs : StepAt t h pp P j h₁ rest idx)
    (hshort : nrSegments (P.children.getD j default) < minDegree - 1)
    (hprev : 0 < j ∧ minDegree ≤ nrSegments (P.children.getD (j - 1) default)) :
    WalkResult t h ⟨pp ++ j :: rest, idx⟩ (t.modify (fun p => rotateFromPrev p j) pp,
      ⟨pp ++ j :: (shiftPos (fun k => k + 1) rest idx).1,
        (shiftPos (fun k => k + 1) rest idx).2⟩) := by
  obtain ⟨i, rfl⟩ : ∃ i, j = i + 1 := ⟨j - 1, by omega⟩
  obtain ⟨hc, hj⟩ := hs.lengths
  rw [modify_eq_const _ hs.get]
  obtain ⟨es, cs⟩ := P
  simp only [children_mk, entries_mk] at hc hj
  obtain ⟨es₁, x, es₂, cs₁, a, b, cs₂, h₁, h₂, rfl, rfl⟩ := exists_window_pair (i := i) hc (by omega)
  simp only [children_mk, Nat.add_sub_cancel, getD_window h₂, getD_window_succ h₂] at hprev hshort
  have hgb : ValidGap b ⟨rest, idx⟩ := by
    obtain ⟨m, hm, hleaf, hk⟩ := hs.gap
    exact ⟨m, by rw [← get?_window_succ h₂ (es₁ ++ x :: es₂)]; exact hm, hleaf, hk⟩
  obtain ⟨-, -, -, ⟨-, has⟩, -, hbs⟩ := hs.parent.window_succ h₁ h₂
  obtain ⟨hsh, hn⟩ := rotateFromPrev_shape h₁ h₂ hs.parent
    (by simp only [minDegree] at hprev ⊢; omega)
    (by simp only [minDegree, maxDegree] at hshort ⊢; omega)
  exact ⟨(rotateFromPrev_step has hbs (by simp only [minDegree] at hprev; omega) h₁ h₂ hgb).lift
    hs.get, h, .inl rfl, hs.balanced hsh hn⟩

/-- The next sibling spares a segment: the walk ends. -/
theorem StepAt.rotateNext (hs : StepAt t h pp P j h₁ rest idx)
    (hshort : nrSegments (P.children.getD j default) < minDegree - 1)
    (hnext : j ≠ nrSegments P ∧ minDegree ≤ nrSegments (P.children.getD (j + 1) default)) :
    WalkResult t h ⟨pp ++ j :: rest, idx⟩
      (t.modify (fun p => rotateFromNext p j) pp, ⟨pp ++ j :: rest, idx⟩) := by
  obtain ⟨hc, hj⟩ := hs.lengths
  rw [modify_eq_const _ hs.get]
  obtain ⟨es, cs⟩ := P
  simp only [children_mk, entries_mk] at hc hj
  obtain ⟨es₁, x, es₂, cs₁, a, b, cs₂, h₁, h₂, rfl, rfl⟩ :=
    exists_window_pair (i := j) hc (by simp only [nrSegments, entries_mk] at hnext; omega)
  simp only [children_mk, getD_window h₂, getD_window_succ h₂] at hnext hshort
  have hga : ValidGap a ⟨rest, idx⟩ := by
    obtain ⟨m, hm, hleaf, hk⟩ := hs.gap
    exact ⟨m, by rw [← get?_window h₂ (es₁ ++ x :: es₂)]; exact hm, hleaf, hk⟩
  obtain ⟨-, -, -, ⟨-, hbs⟩, -, has⟩ := hs.parent.window h₁ h₂
  obtain ⟨hsh, hn⟩ := rotateFromNext_shape h₁ h₂ hs.parent
    (by simp only [minDegree, maxDegree] at hshort ⊢; omega)
    (by simp only [minDegree] at hnext ⊢; omega)
  exact ⟨(rotateFromNext_step has hbs (by simp only [minDegree] at hnext; omega) h₁ h₂ hga).lift
    hs.get, h, .inl rfl, hs.balanced hsh hn⟩

/-- A top with one segment over two children that cannot spare one becomes their merge: the walk
ends one level lower. -/
theorem StepAt.mergeRoot (hs : StepAt t h pp P j h₁ rest idx)
    (hshort : nrSegments (P.children.getD j default) < minDegree - 1)
    (hnprev : ¬(0 < j ∧ minDegree ≤ nrSegments (P.children.getD (j - 1) default)))
    (hnnext : ¬(j ≠ nrSegments P ∧ minDegree ≤ nrSegments (P.children.getD (j + 1) default)))
    (hone : nrSegments P = 1) :
    WalkResult t h ⟨pp ++ j :: rest, idx⟩ (t.modify mergeIntoParent pp,
      if pp ++ [j] = pp ++ [0] then ⟨pp ++ rest, idx⟩
      else if pp ++ [j] = pp ++ [1] then
        ⟨pp ++ (shiftPos (fun k => k + (nrSegments (P.children.getD 0 default) + 1)) rest idx).1,
          (shiftPos (fun k => k + (nrSegments (P.children.getD 0 default) + 1)) rest idx).2⟩
      else ⟨pp ++ j :: rest, idx⟩) := by
  -- below the top a node has at least `minDegree - 1 = 2` segments, so this is the top
  have hpp : pp = [] := by
    by_contra hpp
    have := hs.parent_lo hpp
    simp only [minDegree] at this
    omega
  subst hpp
  obtain rfl := hs.eq_of_nil
  obtain ⟨hc, hj⟩ := hs.lengths
  have hh : h₁ + 1 = h := by
    rw [hs.height]
    simp
  obtain ⟨es, cs⟩ := t
  obtain ⟨x, rfl⟩ := List.length_eq_one_iff.1 hone
  obtain ⟨a, b, rfl⟩ := List.length_eq_two.1 (hc.trans (by rw [entries_mk, List.length_singleton]))
  rw [modify_nil, mergeIntoParent_mk]
  have he : ShapeExcept (minDegree - 1) (maxDegree - 1) (h₁ + 1) [j]
      (Node.mk ([] ++ x :: []) ([] ++ a :: b :: [])) := hs.parent
  simp only [children_mk, List.length_cons, List.length_nil] at hj
  have hga : ∀ k, j = k → ∀ c, (Node.mk [x] [a, b]).get? [k] = some c → ValidGap c ⟨rest, idx⟩ := by
    rintro k rfl c hck
    obtain ⟨m, hm, hleaf, hi⟩ := hs.gap
    refine ⟨m, ?_, hleaf, hi⟩
    rw [show j :: rest = [j] ++ rest from rfl, get?_append, hck, Option.bind_some] at hm
    exact hm
  rcases j with _ | _ | j
  · -- `n` is the first child
    obtain ⟨-, -, -, ⟨-, hbs⟩, halo, has⟩ := he.window rfl rfl
    change nrSegments a < minDegree - 1 at hshort
    change ¬(0 ≠ 1 ∧ minDegree ≤ nrSegments b) at hnnext
    rw [if_pos rfl]
    refine ⟨mergeIntoParent_step_left has hbs (hga 0 rfl a rfl), h₁, .inr hh,
      shape_merge x has hbs ?_, fun _ => by rw [nrSegments_merge]; omega⟩
    simp only [minDegree, maxDegree] at hshort hnnext ⊢
    omega
  · -- `n` is the second
    obtain ⟨-, -, -, ⟨-, has⟩, -, hbs⟩ := he.window_succ rfl rfl
    change nrSegments b < minDegree - 1 at hshort
    change ¬(0 < 1 ∧ minDegree ≤ nrSegments a) at hnprev
    rw [if_neg (by simp), if_pos rfl]
    refine ⟨mergeIntoParent_step_right has hbs rfl (hga 1 rfl b rfl), h₁, .inr hh,
      shape_merge x has hbs ?_, fun _ => by rw [nrSegments_merge]; omega⟩
    simp only [minDegree, maxDegree] at hshort hnprev ⊢
    omega
  · omega

/-- Otherwise `n` merges with a sibling, `left` the first of the two, and the walk goes on at
the parent, one segment shorter. -/
theorem StepAt.mergeUp (hs : StepAt t h pp P j h₁ rest idx)
    (hshort : nrSegments (P.children.getD j default) < minDegree - 1)
    (hnprev : ¬(0 < j ∧ minDegree ≤ nrSegments (P.children.getD (j - 1) default)))
    (hnnext : ¬(j ≠ nrSegments P ∧ minDegree ≤ nrSegments (P.children.getD (j + 1) default)))
    (hone : nrSegments P ≠ 1) {left : ℕ} (hleft : left = if 0 < j then j - 1 else j) :
    Walk (t.modify (fun p => mergeSiblings p left) pp) h pp
        (if pp ++ [j] = pp ++ [left + 1] then
          ⟨pp ++ left :: (shiftPos (fun k => k + (nrSegments (P.children.getD left default) + 1))
            rest idx).1,
            (shiftPos (fun k => k + (nrSegments (P.children.getD left default) + 1)) rest idx).2⟩
        else ⟨pp ++ j :: rest, idx⟩) ∧
      KeepsGap t (t.modify (fun p => mergeSiblings p left) pp) ⟨pp ++ j :: rest, idx⟩
        (if pp ++ [j] = pp ++ [left + 1] then
          ⟨pp ++ left :: (shiftPos (fun k => k + (nrSegments (P.children.getD left default) + 1))
            rest idx).1,
            (shiftPos (fun k => k + (nrSegments (P.children.getD left default) + 1)) rest idx).2⟩
        else ⟨pp ++ j :: rest, idx⟩) := by
  have htwo : 2 ≤ nrSegments P := by
    have := hs.parent_pos
    omega
  obtain ⟨hc, hj⟩ := hs.lengths
  rw [modify_eq_const _ hs.get]
  obtain ⟨es, cs⟩ := P
  simp only [children_mk, entries_mk] at hc hj
  rcases Nat.eq_zero_or_pos j with rfl | hj0
  · -- `n` is the first child: merged with the next
    simp only [lt_irrefl, if_false] at hleft
    subst hleft
    rw [if_neg (by simp)]
    obtain ⟨es₁, x, es₂, cs₁, a, b, cs₂, h₁, h₂, rfl, rfl⟩ :=
      exists_window_pair (i := 0) hc (by simp only [nrSegments, entries_mk] at htwo; omega)
    simp only [children_mk, getD_window h₂, getD_window_succ h₂, Nat.zero_add] at hshort hnnext
    have hga : ValidGap a ⟨rest, idx⟩ := by
      obtain ⟨m, hm, hleaf, hk⟩ := hs.gap
      exact ⟨m, by rw [← get?_window h₂ (es₁ ++ x :: es₂)]; exact hm, hleaf, hk⟩
    obtain ⟨hc₂, hle, hcs, ⟨hblo, hbs⟩, halo, has⟩ := hs.parent.window h₁ h₂
    obtain ⟨hsh, hn⟩ := mergeSiblings_shape h₁ h₂ hc₂ hle hcs has hbs
      (le_trans hblo (by simp only [nrSegments]; omega))
      (by simp only [nrSegments, minDegree, maxDegree] at hshort hnnext htwo ⊢; omega)
    exact hs.walk_up hsh hn (by omega)
      (mergeSiblings_step_left has hbs h₁ h₂ hga)
  · -- `n` has a previous sibling: merged into it
    obtain ⟨i, rfl⟩ : ∃ i, j = i + 1 := ⟨j - 1, by omega⟩
    simp only [hj0, if_true, Nat.add_sub_cancel] at hleft
    subst hleft
    rw [if_pos rfl]
    obtain ⟨es₁, x, es₂, cs₁, a, b, cs₂, h₁, h₂, rfl, rfl⟩ :=
      exists_window_pair (i := left) hc (by omega)
    simp only [children_mk, Nat.add_sub_cancel, getD_window h₂, getD_window_succ h₂]
      at hshort hnprev
    have hgb : ValidGap b ⟨rest, idx⟩ := by
      obtain ⟨m, hm, hleaf, hk⟩ := hs.gap
      exact ⟨m, by rw [← get?_window_succ h₂ (es₁ ++ x :: es₂)]; exact hm, hleaf, hk⟩
    obtain ⟨hc₂, hle, hcs, ⟨halo, has⟩, hblo, hbs⟩ := hs.parent.window_succ h₁ h₂
    obtain ⟨hsh, hn⟩ := mergeSiblings_shape h₁ h₂ hc₂ hle hcs has hbs
      (le_trans halo (by simp only [nrSegments]; omega))
      (by simp only [nrSegments, minDegree, maxDegree] at hshort hnprev ⊢; omega)
    have hshift : nrSegments a + 1 =
        nrSegments ((Node.mk (es₁ ++ x :: es₂) (cs₁ ++ a :: b :: cs₂)).children.getD left default) + 1 := by
      rw [children_mk, getD_window h₂]
    exact hs.walk_up hsh hn (by omega)
      (mergeSiblings_step_right has hbs h₁ h₂ hshift hgb)

end Walk

/-- `rebalanceAfterRemove` restores the B-tree: from a tree that is one but for the node at the
end of the path, which may be one segment short, with the gap below that node, it leaves the same
list with the gap at the same place, in a B-tree of the same height or one less. -/
theorem rebalanceAfterRemove_spec : ∀ (up : List ℕ) {t : node V} {h : ℕ} {gap : Cursor},
    Walk t h up.reverse gap → WalkResult t h gap (rebalanceAfterRemove t up gap)
  | [], t, h, gap, hw => by
    rw [rebalanceAfterRemove]
    exact ⟨.refl hw.valid, h, .inl rfl, shapeExcept_nil.1 hw.shape, hw.root_pos⟩
  | j :: up, t, h, ⟨node, idx⟩, hw => by
    rw [List.reverse_cons] at hw
    obtain ⟨P, h₁, rest, rfl, hs⟩ := hw.stepAt
    have hlen : up.length = up.reverse.length := List.length_reverse.symm
    have htake : (up.reverse ++ j :: rest).take (up.length + 1) = up.reverse ++ [j] := by
      rw [hlen, List.take_length_add_append]
      simp
    have hdrop : (up.reverse ++ j :: rest).drop (up.length + 1) = rest := by
      rw [hlen, List.drop_length_add_append]
      simp
    rw [rebalanceAfterRemove]
    simp only [subtree_of_get? hs.get, htake, hdrop]
    -- the branches of the loop body, in the order of the source
    by_cases hsuff : minDegree - 1 ≤ nrSegments (P.children.getD j default)
    · rw [if_pos hsuff]
      exact hs.sufficient hsuff
    have hshort := Nat.lt_of_not_le hsuff
    rw [if_neg hsuff]
    by_cases hprev : 0 < j ∧ minDegree ≤ nrSegments (P.children.getD (j - 1) default)
    · -- the gap is below `n`, so never in its previous sibling
      rw [if_pos hprev, if_neg fun h' => by simp at h'; omega, if_pos trivial]
      exact hs.rotatePrev hshort hprev
    rw [if_neg hprev]
    by_cases hnext : j ≠ nrSegments P ∧ minDegree ≤ nrSegments (P.children.getD (j + 1) default)
    · rw [if_pos hnext, if_neg fun h' => by simp at h']
      exact hs.rotateNext hshort hnext
    rw [if_neg hnext]
    by_cases hone : nrSegments P = 1
    · rw [if_pos hone]
      exact hs.mergeRoot hshort hprev hnext hone
    rw [if_neg hone]
    obtain ⟨hw', hk⟩ := hs.mergeUp hshort hprev hnext hone rfl
    have hr := rebalanceAfterRemove_spec up hw'
    exact ⟨hk.trans hr.keeps, hr.balanced⟩

/-! ## `Remove` -/

section Remove

variable {t : node V} {h : ℕ} {seg : Cursor}

omit [Inhabited V] in
/-- Taking a segment out of its leaf starts the walk at the leaf, with the segment out of the
list and the gap in its place. -/
theorem eraseLeaf_walk (hb : Balanced t h) {l : node V} (hl : t.get? seg.node = some l)
    (hleaf : l.children = []) (hi : seg.index < nrSegments l) :
    Walk (t.modify (fun n => mk (n.entries.take seg.index ++ n.entries.drop (seg.index + 1))
        n.children) seg.node) h seg.node seg ∧
      (t.modify (fun n => mk (n.entries.take seg.index ++ n.entries.drop (seg.index + 1))
        n.children) seg.node).flatten = t.flatten.eraseIdx (rank t seg) ∧
      rank (t.modify (fun n => mk (n.entries.take seg.index ++ n.entries.drop (seg.index + 1))
        n.children) seg.node) seg = rank t seg := by
  obtain ⟨node, i⟩ := seg
  dsimp only at hl hi ⊢
  obtain ⟨-, hsl, hlo⟩ := hb.shape.get? hl
  -- the leaf is at the bottom of the tree
  have h0 : h - node.length = 0 := hsl.children_eq_nil_iff.1 hleaf
  have hget := get?_modify (fun n => mk (n.entries.take i ++ n.entries.drop (i + 1)) n.children) hl
  have hlen : nrSegments (mk (l.entries.take i ++ l.entries.drop (i + 1)) l.children) + 1 =
      nrSegments l := by
    simp only [nrSegments, entries_mk, List.length_append, List.length_take,
      List.length_drop] at hi ⊢
    omega
  have hlen' : (mk (l.entries.take i ++ l.entries.drop (i + 1)) l.children).entries.length + 1 =
      l.entries.length := hlen
  have hi' : i < l.entries.length := hi
  have he : ShapeExcept (minDegree - 1) (maxDegree - 1) h (node ++ []) t := by
    rw [List.append_nil]
    exact hb.shape.shapeExcept hl
  refine ⟨?_, ?_, ?_⟩
  · rw [modify_eq_const _ hl]
    refine ⟨he.modify hl (by rw [h0]; exact ⟨hleaf, by have := hsl.entries_le; omega⟩)
      fun hne => by have := hlo hne; omega, fun hpos => ?_, List.prefix_refl _,
      ⟨_, get?_modify _ hl, hleaf, show i ≤ _ by omega⟩⟩
    by_cases hnode : node = []
    · subst hnode
      simp only [List.length_nil, Nat.sub_zero] at h0
      omega
    · rw [nrSegments_modify_of_ne_nil _ hnode]
      exact hb.root_pos hpos
  · rw [flatten_erase_leaf hl hleaf, rank_eq_length_upTo, flatten_eq_upTo hl hleaf i,
      List.drop_eq_getElem_cons hi', List.cons_append,
      List.eraseIdx_append_of_length_le (le_refl _), Nat.sub_self,
      List.eraseIdx_cons_zero]
  · rw [rank_leaf hget hleaf (by omega), before_modify _ hl, rank_leaf hl hleaf (by omega)]

/-- The leaf branch of `Remove`: the segment out of the list, the gap left at its index, and a
B-tree of the same height or one less. -/
theorem removeLeaf_spec (hb : Balanced t h) {l : node V} (hl : t.get? seg.node = some l)
    (hleaf : l.children = []) (hi : seg.index < nrSegments l) :
    (removeLeaf t seg).1.flatten = t.flatten.eraseIdx (rank t seg) ∧
      ValidGap (removeLeaf t seg).1 (removeLeaf t seg).2 ∧
      rank (removeLeaf t seg).1 (removeLeaf t seg).2 = rank t seg ∧
      ∃ h', (h' = h ∨ h' + 1 = h) ∧ Balanced (removeLeaf t seg).1 h' := by
  obtain ⟨hw, hflat, hrank⟩ := eraseLeaf_walk hb hl hleaf hi
  have hr := rebalanceAfterRemove_spec seg.node.reverse (by rwa [List.reverse_reverse])
  exact ⟨hr.keeps.flatten_eq.trans hflat, hr.keeps.valid, hr.keeps.rank_eq.trans hrank,
    hr.balanced⟩

/-! ### Writing a segment in place

The setters write one slot of a node's arrays: every iterator stays valid at its index of the list,
the B-tree keeps its shape, and the list changes at the iterator's index alone. -/

section InPlace

variable (f : Range × V → Range × V) {c : Cursor}

omit [Inhabited V] in
theorem get?_modifySegment (seg : Cursor) {p : List ℕ} {m : node V} (hm : t.get? p = some m) :
    ∃ m', (modifySegment t seg f).get? p = some m' ∧ nrSegments m' = nrSegments m ∧
      m'.children.length = m.children.length :=
  (inPlace_modify_entry seg.index f).get?_modify p seg.node hm

omit [Inhabited V] in
theorem rank_modifySegment {m : node V} (hm : t.get? c.node = some m) :
    rank (modifySegment t seg f) c = rank t c := by
  rw [rank_eq_length_upTo, rank_eq_length_upTo]
  exact (inPlace_modify_entry seg.index f).length_upTo_modify c.node seg.node c.index hm

omit [Inhabited V] in
theorem balanced_modifySegment (hb : Balanced t h) (hseg : ValidSeg t seg) :
    Balanced (modifySegment t seg f) h := by
  obtain ⟨m, hm, -⟩ := hseg
  obtain ⟨-, hsm, hlo⟩ := hb.shape.get? hm
  refine ⟨hb.shape.modify hm _ (hsm.modify_entry seg.index f) fun hne => ?_, fun hpos => ?_⟩
  · rw [entries_mk, List.length_modify]
    exact hlo hne
  · rw [modifySegment, nrSegments, (inPlace_modify_entry seg.index f).entries_length_modify]
    exact hb.root_pos hpos

omit [Inhabited V] in
/-- Rewriting the segment at `seg` rewrites the list's at the iterator's index. -/
theorem flatten_modifySegment (hb : Balanced t h) (hseg : ValidSeg t seg) :
    (modifySegment t seg f).flatten = t.flatten.modify (rank t seg) f := by
  obtain ⟨m, hm, hi⟩ := hseg
  obtain ⟨-, hsm, -⟩ := hb.shape.get? hm
  have hi' : seg.index < m.entries.length := hi
  rw [modifySegment, flatten_modify _ hm, flatten_eq_of_get? hm]
  rw [flatten_modify_entry hsm.children_cases hi', flatten_eq_slot hsm.children_cases hi', rank,
    subtree_of_get? hm]
  generalize m.entries[seg.index] = e
  simp only [List.append_assoc, List.cons_append]
  conv_rhs => rw [← List.length_append, ← List.append_assoc, List.modify_append_cons,
    List.append_assoc]

end InPlace

/-- `t'` is `t` with segments rewritten in place: a B-tree of the same height, every node with as
many segments and children, and every position at the same index of the list. -/
structure InPlaceOf (t t' : node V) (h : ℕ) : Prop where
  balanced : Balanced t' h
  get? : ∀ {p : List ℕ} {m : node V}, t.get? p = some m →
    ∃ m', t'.get? p = some m' ∧ nrSegments m' = nrSegments m ∧
      m'.children.length = m.children.length
  rank_eq : ∀ {c : Cursor} {m : node V}, t.get? c.node = some m → rank t' c = rank t c

section InPlaceOf

variable {t' t'' : node V} {c : Cursor}

omit [Inhabited V] in
theorem InPlaceOf.refl (hb : Balanced t h) : InPlaceOf t t h :=
  ⟨hb, fun hm => ⟨_, hm, rfl, rfl⟩, fun _ => rfl⟩

omit [Inhabited V] in
theorem InPlaceOf.validSeg (hi : InPlaceOf t t' h) (hc : ValidSeg t c) : ValidSeg t' c := by
  obtain ⟨m, hm, hidx⟩ := hc
  obtain ⟨m', hm', hes, -⟩ := hi.get? hm
  exact ⟨m', hm', hes ▸ hidx⟩

omit [Inhabited V] in
theorem InPlaceOf.rank_eq_of_validSeg (hi : InPlaceOf t t' h) (hc : ValidSeg t c) :
    rank t' c = rank t c :=
  hi.rank_eq hc.choose_spec.1

omit [Inhabited V] in
/-- A setter after rewrites in place is one more. -/
theorem InPlaceOf.modifySegment (hi : InPlaceOf t t' h) (hseg : ValidSeg t seg)
    (f : Range × V → Range × V) : InPlaceOf t (modifySegment t' seg f) h := by
  refine ⟨balanced_modifySegment f hi.balanced (hi.validSeg hseg), fun hm => ?_, fun hm => ?_⟩
  · obtain ⟨m', hm', hes, hcs⟩ := hi.get? hm
    obtain ⟨m'', hm'', hes', hcs'⟩ := get?_modifySegment f seg hm'
    exact ⟨m'', hm'', hes'.trans hes, hcs'.trans hcs⟩
  · obtain ⟨m', hm', -, -⟩ := hi.get? hm
    rw [rank_modifySegment f hm', hi.rank_eq hm]

/-- A setter reads the list at its own index alone: every other segment stays. -/
theorem InPlaceOf.segment_modifySegment (hi : InPlaceOf t t' h) (hseg : ValidSeg t seg)
    (f : Range × V → Range × V) (hc : ValidSeg t c) (hne : rank t c ≠ rank t seg) :
    segment (BTree.modifySegment t' seg f) c = segment t' c := by
  have hi' := hi.modifySegment hseg f
  rw [segment_eq hi'.balanced.shape (hi'.validSeg hc),
    flatten_modifySegment f hi.balanced (hi.validSeg hseg), hi'.rank_eq_of_validSeg hc,
    hi.rank_eq_of_validSeg hseg, List.getD_modify, if_neg fun h => hne h.1,
    ← hi.rank_eq_of_validSeg hc, ← segment_eq hi.balanced.shape (hi.validSeg hc)]

end InPlaceOf

/-- `seg.SetRangeUnchecked(r)` then `seg.SetValue(v)` write `(r, v)` over the list's segment at
the iterator's index. -/
theorem flatten_setValue_setRangeUnchecked (hb : Balanced t h) (hseg : ValidSeg t seg)
    (x : Range × V) :
    (Iterator.setValue (Iterator.setRangeUnchecked t seg x.1) seg x.2).flatten =
      t.flatten.set (rank t seg) x := by
  have hi := (InPlaceOf.refl hb).modifySegment hseg fun p => (x.1, p.2)
  rw [Iterator.setValue, Iterator.setRangeUnchecked,
    flatten_modifySegment _ hi.balanced (hi.validSeg hseg), hi.rank_eq_of_validSeg hseg,
    flatten_modifySegment _ hb hseg, List.modify_modify_eq, List.modify_eq_set]
  rfl

namespace Set

/-- `Remove` on the tree is `remove` on its list: the segment taken out at the iterator's index,
the gap left there, and a B-tree of the same height or one less. -/
theorem remove_spec (hb : Balanced t h) (hs : ValidSeg t seg) :
    (remove t seg).1.flatten = (Segment.remove t.flatten (rank t seg)).1 ∧
      GapAt (remove t seg).1 (Segment.remove t.flatten (rank t seg)).2 (remove t seg).2 ∧
      ∃ h', (h' = h ∨ h' + 1 = h) ∧ Balanced (remove t seg).1 h' := by
  obtain ⟨m, hm, hi⟩ := hs
  obtain ⟨-, hsm, -⟩ := hb.shape.get? hm
  unfold remove
  by_cases hch : hasChildren (t.subtree seg.node) = true
  · -- an inner node's segment: its predecessor takes its place and is taken out of its leaf
    rw [if_pos hch]
    have hcs : m.children.length = m.entries.length + 1 := by
      rw [subtree_of_get? hm] at hch
      exact hsm.children_cases.resolve_left (hasChildren_iff.1 hch)
    obtain ⟨l, hl, hleaf, hidx, hrank⟩ := Iterator.rank_lastSegment_child hb.shape minDegree_pos hm hi hcs
    generalize BTree.lastSegment t (seg.node ++ [seg.index]) = victim at hl hidx hrank
    have hseg : ValidSeg t seg := ⟨m, hm, hi⟩
    have hvseg : ValidSeg t victim := ⟨l, hl, by omega⟩
    -- the predecessor written over the segment, its range and then its value
    have hi₁ := (InPlaceOf.refl hb).modifySegment hseg fun p => ((segment t victim).1, p.2)
    have hv₁ : segment (Iterator.setRangeUnchecked t seg (segment t victim).1) victim =
        segment t victim := (InPlaceOf.refl hb).segment_modifySegment hseg _ hvseg (by omega)
    dsimp only
    rw [hv₁]
    have hi₂ : InPlaceOf t (Iterator.setValue (Iterator.setRangeUnchecked t seg
        (segment t victim).1) seg (segment t victim).2) h := hi₁.modifySegment hseg _
    have hflat₂ := flatten_setValue_setRangeUnchecked hb hseg (segment t victim)
    have hrank₂ := hi₂.rank_eq hl
    obtain ⟨l₂, hl₂, hes₂, hcs₂⟩ := hi₂.get? hl
    generalize Iterator.setValue (Iterator.setRangeUnchecked t seg (segment t victim).1) seg
      (segment t victim).2 = t₂ at hi₂ hflat₂ hl₂ hrank₂ ⊢
    have hleaf₂ : l₂.children = [] :=
      List.eq_nil_of_length_eq_zero (by rw [hcs₂, hleaf, List.length_nil])
    obtain ⟨hflat, hvalid, hr, h', hh', hb'⟩ :=
      removeLeaf_spec hi₂.balanced hl₂ hleaf₂ (by rw [hes₂]; omega)
    obtain ⟨hgap, hgv⟩ := GapIterator.nextGap_spec hb'.shape minDegree_pos hvalid
    have hlt := rank_lt_of_validSeg hb.shape hseg
    refine ⟨?_, ⟨?_, hgv⟩, h', hh', hb'⟩
    · rw [hflat, hflat₂, hrank₂, segment_eq hb.shape hvseg, ← hrank,
        List.eraseIdx_set_getD _ _ _ (by omega)]
      rfl
    · rw [hgap, hr, hrank₂, hrank]
      rfl
  · -- a leaf's segment is taken out of it
    rw [if_neg hch]
    have hleaf : m.children = [] := by
      rw [subtree_of_get? hm] at hch
      simpa [hasChildren] using hch
    obtain ⟨hflat, hvalid, hr, hbal⟩ := removeLeaf_spec hb hm hleaf hi
    refine ⟨hflat, ⟨hr, fun c hc => ?_⟩, hbal⟩
    rw [Option.mem_some_iff] at hc
    subst hc
    exact hvalid

end Set

end Remove

end BTree

end Segment
