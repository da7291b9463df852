import Mathlib
import Gvisor.Lib.MultiwayTreeEdit
import Gvisor.Segment.BTree

/-! Insertion into the B-tree of a `Set` (`InsertWithoutMergingUnchecked` and
`rebalanceBeforeInsert`, pkg/segment/set.go). Before a segment goes into the leaf at a gap, every
full node from the root down to that leaf is split, parents first, so that each median has room
in its parent; a full root splits under a new root that holds only its median, which is how the
tree grows. A split moves the gap into the half that holds it. The splits keep the tree's list of
segments, the gap's index in it and every B-tree invariant, at the same height or one more
(`rebalanceBeforeInsert_spec`), and leave room in the gap's leaf; the insertion there is then
`insertWithoutMergingUnchecked` of the list. -/

namespace Segment

open MultiwayTree Node

variable {V : Type} [Inhabited V]

namespace BTree

/-- The halves of a full node around its median `keys[minDegree - 1]`: the segments and
children before the median, the median, and those after it. -/
def splitNode (n : node V) : node V × (Range × V) × node V :=
  (mk (n.entries.take (minDegree - 1)) (n.children.take minDegree),
    n.entries.getD (minDegree - 1) default,
    mk (n.entries.drop minDegree) (n.children.drop minDegree))

/-- Where position `k` of a split node goes: into the first half (`0`) at `k`, or into the second
(`1`) at `k - minDegree`. -/
def splitPosition (k : ℕ) : ℕ × ℕ := if k < minDegree then (0, k) else (1, k - minDegree)

/-- The root branch of `n.rebalanceBeforeInsert(gap)`: the full root keeps only its median, over
`left` and `right`, new children with the segments and children before and after it. `k` is the
position of the root that the gap is at or under, and moves as `splitPosition` says. -/
def splitRoot (t : node V) (k : ℕ) : node V × ℕ × ℕ :=
  let s := splitNode t
  (mk [s.2.1] [s.1, s.2.2], splitPosition k)

/-- The non-root branch of `n.rebalanceBeforeInsert(gap)` for `n`, child `j` of `p`: a full `n`
keeps the segments and children before its median, the median moves into `p` at `j`, and a new
`sibling` at `j + 1` takes the rest. `k` is the position of `n` that the gap is at or under; the
child of `p` and the position it moves to are returned with `p`. -/
def splitChild (p : node V) (j k : ℕ) : node V × ℕ × ℕ :=
  let n := p.children.getD j default
  if nrSegments n < maxDegree - 1 then (p, j, k)
  else
    let s := splitNode n
    let sp := splitPosition k
    (mk (p.entries.take j ++ s.2.1 :: p.entries.drop j)
      (p.children.take j ++ s.1 :: s.2.2 :: p.children.drop (j + 1)), j + sp.1, sp.2)

/-- `rebalanceBeforeInsert` below `p`, along the gap's path `j :: q` from `p`, with the gap at
index `i` of its leaf: each node on the way is split, where it is full, after its parent. Returns
`p` and the gap's new path and index. -/
def splitDown (i : ℕ) : node V → ℕ → List ℕ → node V × List ℕ × ℕ
  | p, j, [] =>
    let s := splitChild p j i
    (s.1, [s.2.1], s.2.2)
  | p, j, k :: q =>
    let s := splitChild p j k
    let r := splitDown i (s.1.children.getD s.2.1 default) s.2.2 q
    (mk s.1.entries (s.1.children.set s.2.1 r.1), s.2.1 :: r.2.1, r.2.2)

/-- `gap.node.rebalanceBeforeInsert(gap)`: the root first, then every full node down to the
gap's leaf split, and the gap moved with its leaf. -/
def rebalanceBeforeInsert (t : node V) (gap : Cursor) : node V × Cursor :=
  match gap.node with
  | [] =>
    if nrSegments t < maxDegree - 1 then (t, gap)
    else
      let s := splitRoot t gap.index
      (s.1, ⟨[s.2.1], s.2.2⟩)
  | k :: q =>
    if nrSegments t < maxDegree - 1 then
      let r := splitDown gap.index t k q
      (r.1, ⟨r.2.1, r.2.2⟩)
    else
      let s := splitRoot t k
      let r := splitDown gap.index (s.1.children.getD s.2.1 default) s.2.2 q
      (mk s.1.entries (s.1.children.set s.2.1 r.1), ⟨s.2.1 :: r.2.1, r.2.2⟩)

namespace Set

/-- `s.InsertWithoutMergingUnchecked(gap, r, val)`: the set, and an iterator to the new segment. -/
def insertWithoutMergingUnchecked (t : node V) (gap : Cursor) (r : Range) (val : V) :
    node V × Cursor :=
  let g := rebalanceBeforeInsert t gap
  (g.1.modify (fun n => mk (n.entries.take g.2.index ++ (r, val) :: n.entries.drop g.2.index)
    n.children) g.2.node, g.2)

end Set

/-! ## Splitting one node -/

omit [Inhabited V] in
theorem rank_eq_length_upTo (t : node V) (c : Cursor) :
    rank t c = (t.upTo c.node c.index).length := by
  rw [rank, upTo, List.length_append]

theorem splitNode_eq (n : node V) :
    splitNode n = (mk (n.entries.take (minDegree - 1)) (n.children.take (minDegree - 1 + 1)),
      n.entries.getD (minDegree - 1) default,
      mk (n.entries.drop (minDegree - 1 + 1)) (n.children.drop (minDegree - 1 + 1))) := rfl

theorem splitPosition_cases (k : ℕ) :
    (k ≤ minDegree - 1 ∧ splitPosition k = (0, k)) ∨
      (minDegree - 1 < k ∧ splitPosition k = (1, k - (minDegree - 1 + 1))) := by
  unfold splitPosition
  by_cases hk : k < minDegree
  · exact .inl ⟨by rw [minDegree] at hk ⊢; omega, if_pos hk⟩
  · exact .inr ⟨by rw [minDegree] at hk ⊢; omega, if_neg hk⟩

variable {lo hi h : ℕ}

/-- A full node of a B-tree splits into two halves of its height with `minDegree - 1` segments
each, around its median. -/
theorem splitNode_spec {n : node V} (hs : n.Shape (minDegree - 1) (maxDegree - 1) h)
    (hfull : maxDegree - 1 ≤ nrSegments n) :
    n.flatten = (splitNode n).1.flatten ++ (splitNode n).2.1 :: (splitNode n).2.2.flatten ∧
      nrSegments (splitNode n).1 = minDegree - 1 ∧
      (splitNode n).1.Shape (minDegree - 1) (maxDegree - 1) h ∧
      nrSegments (splitNode n).2.2 = minDegree - 1 ∧
      (splitNode n).2.2.Shape (minDegree - 1) (maxDegree - 1) h := by
  obtain ⟨es, cs⟩ := n
  have hlen : es.length = maxDegree - 1 := le_antisymm hs.entries_le hfull
  have hm : minDegree - 1 < es.length := by rw [hlen]; decide
  rw [splitNode_eq, entries_mk, children_mk, List.getD_eq_getElem _ _ hm]
  refine ⟨flatten_split hm hs.children_cases, ?_, hs.take_succ hm, ?_, hs.drop_succ hm⟩
  · simp only [nrSegments, entries_mk, List.length_take]
    omega
  · simp only [nrSegments, entries_mk, List.length_drop, hlen]
    decide

/-! Where a gap moves when the node it is in or under splits. -/

section Position

variable {n : node V} {k : ℕ}

theorem splitNode_get?_left (hk : k ≤ minDegree - 1) (q : List ℕ) :
    (splitNode n).1.get? (k :: q) = n.get? (k :: q) := by
  obtain ⟨es, cs⟩ := n
  exact get?_take_succ hk q

theorem splitNode_upTo_left (hk : k ≤ minDegree - 1) (q : List ℕ) (i : ℕ) :
    (splitNode n).1.upTo (k :: q) i = n.upTo (k :: q) i := by
  obtain ⟨es, cs⟩ := n
  exact upTo_take_succ hk q i

theorem splitNode_get?_right (hk : minDegree - 1 < k) (q : List ℕ) :
    (splitNode n).2.2.get? ((k - (minDegree - 1 + 1)) :: q) = n.get? (k :: q) := by
  obtain ⟨es, cs⟩ := n
  exact get?_drop_succ hk q

theorem splitNode_upTo_right (hs : n.Shape (minDegree - 1) (maxDegree - 1) h)
    (hfull : maxDegree - 1 ≤ nrSegments n) (hn : n.children ≠ []) (hk : minDegree - 1 < k)
    (q : List ℕ) (i : ℕ) :
    n.upTo (k :: q) i = (splitNode n).1.flatten ++
      (splitNode n).2.1 :: (splitNode n).2.2.upTo ((k - (minDegree - 1 + 1)) :: q) i := by
  obtain ⟨es, cs⟩ := n
  have hm : minDegree - 1 < es.length := lt_of_lt_of_le (by decide) hfull
  rw [splitNode_eq, entries_mk, children_mk, List.getD_eq_getElem _ _ hm]
  exact upTo_drop_succ (hs.children_cases.resolve_left hn) hm hk q i

theorem splitNode_upTo_nil_left (hn : n.children = []) {i : ℕ} (hi : i ≤ minDegree - 1) :
    (splitNode n).1.upTo [] i = n.upTo [] i := by
  obtain ⟨es, cs⟩ := n
  exact upTo_nil_take_succ hn hi

theorem splitNode_upTo_nil_right (hfull : maxDegree - 1 ≤ nrSegments n) (hn : n.children = [])
    {i : ℕ} (hi : minDegree - 1 < i) :
    n.upTo [] i = (splitNode n).1.flatten ++
      (splitNode n).2.1 :: (splitNode n).2.2.upTo [] (i - (minDegree - 1 + 1)) := by
  obtain ⟨es, cs⟩ := n
  have hm : minDegree - 1 < es.length := lt_of_lt_of_le (by decide) hfull
  rw [splitNode_eq, entries_mk, children_mk, List.getD_eq_getElem _ _ hm]
  exact upTo_nil_drop_succ hn hm hi

end Position

/-! ## Splitting a child -/

/-- What splitting child `j` of a node of height `h + 1` with room for one more segment keeps:
the node's segments in order, the B-tree shape, at least its segments, and a child with room for
one more at the index returned. -/
structure ChildSplit (p : node V) (h : ℕ) (s : node V × ℕ × ℕ) : Prop where
  flatten_eq : s.1.flatten = p.flatten
  shape : s.1.Shape (minDegree - 1) (maxDegree - 1) (h + 1)
  grows : nrSegments p ≤ nrSegments s.1
  lt_length : s.2.1 < s.1.children.length
  room : nrSegments (s.1.children.getD s.2.1 default) < maxDegree - 1

/-- The two things `splitChild` can do. -/
theorem splitChild_cases (es : List (Range × V)) (cs : List (node V)) {j : ℕ} (hj : j < cs.length)
    (k : ℕ) :
    (nrSegments cs[j] < maxDegree - 1 ∧ splitChild (mk es cs) j k = (mk es cs, j, k)) ∨
      (maxDegree - 1 ≤ nrSegments cs[j] ∧ splitChild (mk es cs) j k =
        (mk (es.take j ++ (splitNode cs[j]).2.1 :: es.drop j)
          (cs.take j ++ (splitNode cs[j]).1 :: (splitNode cs[j]).2.2 :: cs.drop (j + 1)),
          j + (splitPosition k).1, (splitPosition k).2)) := by
  unfold splitChild
  simp only [children_mk, entries_mk, List.getD_eq_getElem _ _ hj]
  by_cases hfull : nrSegments cs[j] < maxDegree - 1
  · exact .inl ⟨hfull, if_pos hfull⟩
  · exact .inr ⟨Nat.le_of_not_lt hfull, if_neg hfull⟩

omit [Inhabited V] in
/-- A node with its entries and children opened at child `j`. -/
theorem mk_eq_window (es : List (Range × V)) {cs : List (node V)} {j : ℕ} (hj : j < cs.length) :
    mk es cs = mk (es.take j ++ es.drop j) (cs.take j ++ cs[j] :: cs.drop (j + 1)) := by
  rw [List.take_append_drop, ← List.eq_take_cons_drop (List.getElem?_eq_getElem hj)]

theorem splitChild_spec {p : node V} (hs : p.Shape (minDegree - 1) (maxDegree - 1) (h + 1))
    (hroom : nrSegments p < maxDegree - 1) {j : ℕ} (hj : j < p.children.length) (k : ℕ) :
    ChildSplit p h (splitChild p j k) := by
  obtain ⟨es, cs⟩ := p
  rw [children_mk] at hj
  have hs' := hs
  obtain ⟨hlen, -, hcs⟩ := hs'
  simp only [children_mk, entries_mk] at hlen hcs
  have hc := hcs _ (List.getElem_mem hj)
  rcases splitChild_cases es cs hj k with ⟨hnot, heq⟩ | ⟨hfull, heq⟩
  · rw [heq]
    refine ⟨rfl, hs, le_refl _, hj, ?_⟩
    show nrSegments (cs.getD j default) < maxDegree - 1
    rw [List.getD_eq_getElem _ _ hj]
    exact hnot
  · rw [heq]
    obtain ⟨hflat, hl, hsl, hr, hsr⟩ := splitNode_spec hc.2 hfull
    have hj' : (es.take j).length = (cs.take j).length := by
      simp only [List.length_take]
      omega
    have hwin := mk_eq_window es hj
    have hroom' : (es.take j ++ es.drop j).length < maxDegree - 1 := by
      rw [List.take_append_drop]
      exact hroom
    refine ⟨?_, (hwin ▸ hs).window_split hroom' _ ⟨by rw [← nrSegments, hl], hsl⟩
      ⟨by rw [← nrSegments, hr], hsr⟩, ?_, ?_, ?_⟩
    · rw [flatten_window_split hj' hflat, ← hwin]
    · simp only [nrSegments, entries_mk, List.length_append, List.length_cons, List.length_take,
        List.length_drop]
      omega
    · rcases splitPosition_cases k with ⟨-, hk⟩ | ⟨-, hk⟩ <;> simp [hk] <;> omega
    · have h₂ : (cs.take j).length = j := by simp; omega
      rcases splitPosition_cases k with ⟨-, hk⟩ | ⟨-, hk⟩
      · simp only [hk, children_mk, Nat.add_zero]
        rw [getD_window h₂, hl]
        decide
      · simp only [hk, children_mk]
        rw [getD_window_succ h₂, hr]
        decide

/-- Under child `j`, the gap keeps its leaf and the sequence before it. -/
theorem splitChild_inner {p l : node V} (hs : p.Shape (minDegree - 1) (maxDegree - 1) (h + 1))
    {j k : ℕ} {q : List ℕ} (hg : p.get? (j :: k :: q) = some l) (i : ℕ) :
    (splitChild p j k).1.get? ((splitChild p j k).2.1 :: (splitChild p j k).2.2 :: q) = some l ∧
      (splitChild p j k).1.upTo ((splitChild p j k).2.1 :: (splitChild p j k).2.2 :: q) i =
        p.upTo (j :: k :: q) i := by
  obtain ⟨es, cs⟩ := p
  obtain ⟨hj, hgc⟩ : ∃ hj : j < cs.length, cs[j].get? (k :: q) = some l := get?_cons_eq_some.1 hg
  rcases splitChild_cases es cs hj k with ⟨-, heq⟩ | ⟨hfull, heq⟩
  · rw [heq]
    exact ⟨hg, rfl⟩
  · rw [heq]
    have hc : cs[j].Shape (minDegree - 1) (maxDegree - 1) h := (hs.2.2 _ (List.getElem_mem hj)).2
    have hne : cs[j].children ≠ [] := by
      intro h0
      obtain ⟨hk, -⟩ := get?_cons_eq_some.1 hgc
      rw [h0] at hk
      exact absurd hk (Nat.not_lt_zero _)
    have h₁ : (es.take j).length = j := by have := hs.1; simp at this ⊢; omega
    have h₂ : (cs.take j).length = j := by simp; omega
    rcases splitPosition_cases k with ⟨hk, hsp⟩ | ⟨hk, hsp⟩
    · simp only [hsp, Nat.add_zero]
      rw [get?_window h₂, splitNode_get?_left hk, upTo_window h₁ h₂, splitNode_upTo_left hk,
        upTo_cons hj]
      exact ⟨hgc, rfl⟩
    · simp only [hsp]
      rw [get?_window_succ h₂, splitNode_get?_right hk, upTo_window_succ h₁ h₂, upTo_cons hj,
        splitNode_upTo_right hc hfull hne hk]
      exact ⟨hgc, rfl⟩

/-- Where child `j` is the gap's leaf, the gap moves into the half of it that holds it. -/
theorem splitChild_leaf {p l : node V} (hs : p.Shape (minDegree - 1) (maxDegree - 1) (h + 1))
    {j i : ℕ} (hg : p.get? [j] = some l) (hleaf : l.children = []) (hi : i ≤ nrSegments l) :
    ∃ l', (splitChild p j i).1.get? [(splitChild p j i).2.1] = some l' ∧ l'.children = [] ∧
      (splitChild p j i).2.2 ≤ nrSegments l' ∧
      (splitChild p j i).1.upTo [(splitChild p j i).2.1] (splitChild p j i).2.2 = p.upTo [j] i := by
  obtain ⟨es, cs⟩ := p
  obtain ⟨hj, hgc⟩ : ∃ hj : j < cs.length, cs[j].get? [] = some l := get?_cons_eq_some.1 hg
  cases hgc
  rcases splitChild_cases es cs hj i with ⟨-, heq⟩ | ⟨hfull, heq⟩
  · rw [heq]
    exact ⟨cs[j], hg, hleaf, hi, rfl⟩
  · rw [heq]
    have h₁ : (es.take j).length = j := by have := hs.1; simp at this ⊢; omega
    have h₂ : (cs.take j).length = j := by simp; omega
    have hlen : nrSegments cs[j] = maxDegree - 1 :=
      le_antisymm ((hs.2.2 _ (List.getElem_mem hj)).2.entries_le) hfull
    rcases splitPosition_cases i with ⟨hk, hsp⟩ | ⟨hk, hsp⟩
    · simp only [hsp, Nat.add_zero]
      refine ⟨(splitNode cs[j]).1, get?_window h₂ _ [], by simp [splitNode_eq, hleaf], ?_, ?_⟩
      · simp only [nrSegments, splitNode_eq, entries_mk, List.length_take, maxDegree,
          minDegree] at hlen hk ⊢
        omega
      · rw [upTo_window h₁ h₂, splitNode_upTo_nil_left hleaf hk, upTo_cons hj]
    · simp only [hsp]
      refine ⟨(splitNode cs[j]).2.2, get?_window_succ h₂ _ [], by simp [splitNode_eq, hleaf], ?_, ?_⟩
      · simp only [nrSegments, splitNode_eq, entries_mk, List.length_drop] at hi ⊢
        omega
      · rw [upTo_window_succ h₁ h₂, upTo_cons hj, splitNode_upTo_nil_right hfull hleaf hk]

/-! ## Splitting down a path -/

/-- What `rebalanceBeforeInsert` keeps of a node `p` with the gap at `path` and index `i`, in its
result `r`: the segments in order, the sequence before the gap, the gap in a leaf with room for
one more segment, and the B-tree shape at height `h`. -/
structure Rebalanced (p : node V) (path : List ℕ) (i h : ℕ) (r : node V × List ℕ × ℕ) : Prop where
  flatten_eq : r.1.flatten = p.flatten
  upTo_eq : r.1.upTo r.2.1 r.2.2 = p.upTo path i
  leaf : ∃ l, r.1.get? r.2.1 = some l ∧ l.children = [] ∧ r.2.2 ≤ nrSegments l ∧
    nrSegments l < maxDegree - 1
  shape : r.1.Shape (minDegree - 1) (maxDegree - 1) h

/-- Down the path, by induction on it: each step splits the child the path goes through, which
leaves that child with room for the split of its own child. -/
theorem splitDown_spec (i : ℕ) : ∀ (q : List ℕ) {h : ℕ} {p l : node V} {j : ℕ},
    p.Shape (minDegree - 1) (maxDegree - 1) (h + 1) → nrSegments p < maxDegree - 1 →
    p.get? (j :: q) = some l → l.children = [] → i ≤ nrSegments l →
    Rebalanced p (j :: q) i (h + 1) (splitDown i p j q) ∧
      nrSegments p ≤ nrSegments (splitDown i p j q).1
  | [], h, p, l, j, hs, hroom, hg, hleaf, hi => by
    have hc := splitChild_spec hs hroom (get?_cons_eq_some.1 hg).1 i
    obtain ⟨l', hl', hleaf', hi', hup⟩ := splitChild_leaf hs hg hleaf hi
    exact ⟨⟨hc.flatten_eq, hup, ⟨l', hl', hleaf', hi', getD_children_of_get? hl' ▸ hc.room⟩,
      hc.shape⟩, hc.grows⟩
  | k :: q, h, p, l, j, hs, hroom, hg, hleaf, hi => by
    have hc := splitChild_spec hs hroom (get?_cons_eq_some.1 hg).1 k
    obtain ⟨hgs, hups⟩ := splitChild_inner hs hg i
    rw [splitDown]
    generalize splitChild p j k = s at hc hgs hups ⊢
    obtain ⟨⟨es', cs'⟩, j', k'⟩ := s
    dsimp only at hc hgs hups ⊢
    simp only [children_mk, entries_mk]
    have hj' : j' < cs'.length := hc.lt_length
    have hroom' : nrSegments cs'[j'] < maxDegree - 1 := by
      have := hc.room
      rwa [children_mk, List.getD_eq_getElem _ _ hj'] at this
    rw [List.getD_eq_getElem _ _ hj']
    obtain ⟨_, hgc⟩ : ∃ _ : j' < cs'.length, cs'[j'].get? (k' :: q) = some l :=
      get?_cons_eq_some.1 hgs
    have hsc := hc.shape.2.2 _ (List.getElem_mem hj')
    -- the child the path goes through is an inner node, so the tree is at least two levels high
    obtain ⟨h', rfl⟩ : ∃ h', h = h' + 1 := by
      cases h with
      | zero =>
        obtain ⟨hk, -⟩ := get?_cons_eq_some.1 hgc
        rw [hsc.2.1] at hk
        exact absurd hk (Nat.not_lt_zero _)
      | succ h' => exact ⟨h', rfl⟩
    obtain ⟨ih, hgrows⟩ := splitDown_spec i q hsc.2 hroom' hgc hleaf hi
    generalize splitDown i cs'[j'] k' q = r at ih hgrows ⊢
    obtain ⟨c, path, i'⟩ := r
    dsimp only at ih hgrows ⊢
    refine ⟨⟨?_, ?_, ?_, hc.shape.set (le_trans hsc.1 hgrows) ih.shape⟩, hc.grows⟩
    · rw [flatten_set hj' ih.flatten_eq]
      exact hc.flatten_eq
    · rw [upTo_set hj', ih.upTo_eq, ← upTo_cons hj']
      exact hups
    · rw [get?_set hj']
      exact ih.leaf

theorem splitDown_entries (i : ℕ) (p : node V) (j : ℕ) (q : List ℕ) :
    (splitDown i p j q).1.entries = (splitChild p j (q.headD i)).1.entries := by
  cases q <;> rfl

/-! ## `rebalanceBeforeInsert` -/

/-- The root's split is the split of the only child of a node with no segment. -/
theorem splitRoot_eq {t : node V} (hfull : ¬ nrSegments t < maxDegree - 1) (k : ℕ) :
    splitRoot t k = splitChild (mk [] [t]) 0 k := by
  simp [splitRoot, splitChild, hfull]

theorem rebalanceBeforeInsert_of_full {t : node V} (hfull : ¬ nrSegments t < maxDegree - 1)
    (gap : Cursor) : rebalanceBeforeInsert t gap =
      ((splitDown gap.index (mk [] [t]) 0 gap.node).1,
        ⟨(splitDown gap.index (mk [] [t]) 0 gap.node).2.1,
          (splitDown gap.index (mk [] [t]) 0 gap.node).2.2⟩) := by
  obtain ⟨p, i⟩ := gap
  cases p with
  | nil =>
    simp only [rebalanceBeforeInsert, if_neg hfull, splitRoot_eq hfull]
    rfl
  | cons k q =>
    simp only [rebalanceBeforeInsert, if_neg hfull, splitRoot_eq hfull]
    rfl

/-- The root's split, as that of the child of a node above it with no segment, keeps the root's
segments and the gap's place among them. -/
theorem rebalanceBeforeInsert_full {t l : node V} (hb : Balanced t h)
    (hfull : ¬ nrSegments t < maxDegree - 1) {p : List ℕ} (hl : t.get? p = some l)
    (hleaf : l.children = []) {i : ℕ} (hi : i ≤ nrSegments l) :
    Rebalanced t p i (h + 1) (splitDown i (mk [] [t]) 0 p) ∧
      0 < nrSegments (splitDown i (mk [] [t]) 0 p).1 := by
  have hsv : (mk [] [t]).Shape (minDegree - 1) (maxDegree - 1) (h + 1) := by
    refine ⟨rfl, Nat.zero_le _, fun c hc => ?_⟩
    rw [children_mk, List.mem_singleton] at hc
    subst hc
    refine ⟨le_trans ?_ (Nat.le_of_not_lt hfull), hb.shape⟩
    decide
  have hgv : (mk [] [t]).get? (0 :: p) = some l := get?_cons_eq_some.2 ⟨by simp, hl⟩
  have hr := (splitDown_spec i p hsv (by simp [nrSegments, maxDegree, minDegree]) hgv hleaf hi).1
  refine ⟨⟨?_, ?_, hr.leaf, hr.shape⟩, ?_⟩
  · rw [hr.flatten_eq]
    simp
  · rw [hr.upTo_eq, upTo_cons (by simp)]
    simp
  · rw [nrSegments, splitDown_entries, ← splitRoot_eq hfull]
    simp [splitRoot]

/-- `rebalanceBeforeInsert` keeps the set's segments, the gap's index among them and the B-tree
invariants, at the same height or, where the root splits, one more; it leaves the gap in a leaf
with room for one more segment. -/
theorem rebalanceBeforeInsert_spec {t : node V} (hb : Balanced t h) {gap : Cursor}
    (hg : ValidGap t gap) :
    ∃ h', (h' = h ∨ h' = h + 1) ∧
      Rebalanced t gap.node gap.index h' ((rebalanceBeforeInsert t gap).1,
        (rebalanceBeforeInsert t gap).2.node, (rebalanceBeforeInsert t gap).2.index) ∧
      (0 < h' → 0 < nrSegments (rebalanceBeforeInsert t gap).1) := by
  obtain ⟨l, hl, hleaf, hi⟩ := hg
  by_cases hroom : nrSegments t < maxDegree - 1
  · obtain ⟨p, i⟩ := gap
    cases p with
    | nil =>
      cases hl
      simp only [rebalanceBeforeInsert, if_pos hroom]
      exact ⟨h, .inl rfl, ⟨rfl, rfl, ⟨t, rfl, hleaf, hi, hroom⟩, hb.shape⟩, hb.root_pos⟩
    | cons k q =>
      -- a path below the root: the root is an inner node
      obtain ⟨h', rfl⟩ : ∃ h', h = h' + 1 := by
        cases h with
        | zero =>
          obtain ⟨hk, -⟩ := get?_cons_eq_some.1 hl
          rw [hb.shape.1] at hk
          exact absurd hk (Nat.not_lt_zero _)
        | succ h' => exact ⟨h', rfl⟩
      obtain ⟨hr, hgrows⟩ := splitDown_spec i q hb.shape hroom hl hleaf hi
      simp only [rebalanceBeforeInsert, if_pos hroom]
      exact ⟨h' + 1, .inl rfl, hr, fun hpos => lt_of_lt_of_le (hb.root_pos hpos) hgrows⟩
  · obtain ⟨hr, hpos⟩ := rebalanceBeforeInsert_full hb hroom hl hleaf hi
    rw [rebalanceBeforeInsert_of_full hroom]
    exact ⟨h + 1, .inr rfl, hr, fun _ => hpos⟩

/-! ## `InsertWithoutMergingUnchecked` -/

section Insert

variable {t : node V} {gap : Cursor} (r : Range) (val : V)

omit [Inhabited V] in
/-- The leaf at the gap after the insertion. -/
theorem insert_leaf_spec {l : node V} (hleaf : l.children = []) {i : ℕ} (hi : i ≤ nrSegments l) :
    (mk (l.entries.take i ++ (r, val) :: l.entries.drop i) l.children).children = [] ∧
      nrSegments (mk (l.entries.take i ++ (r, val) :: l.entries.drop i) l.children) =
        nrSegments l + 1 := by
  refine ⟨hleaf, ?_⟩
  simp only [nrSegments, entries_mk, List.length_append, List.length_cons, List.length_take,
    List.length_drop] at hi ⊢
  omega

/-- `InsertWithoutMergingUnchecked` on the tree is `insertWithoutMergingUnchecked` on its list:
the new segment at the gap's index, and an iterator to it there. -/
theorem insertWithoutMergingUnchecked_refines (hb : Balanced t h) (hg : ValidGap t gap) :
    (Set.insertWithoutMergingUnchecked t gap r val).1.flatten =
        (insertWithoutMergingUnchecked t.flatten (rank t gap) r val).1 ∧
      rank (Set.insertWithoutMergingUnchecked t gap r val).1
          (Set.insertWithoutMergingUnchecked t gap r val).2 =
        (insertWithoutMergingUnchecked t.flatten (rank t gap) r val).2 ∧
      ValidSeg (Set.insertWithoutMergingUnchecked t gap r val).1
        (Set.insertWithoutMergingUnchecked t gap r val).2 := by
  obtain ⟨h', -, hr, -⟩ := rebalanceBeforeInsert_spec hb hg
  have hrank := rank_eq_length_upTo t gap
  unfold Set.insertWithoutMergingUnchecked
  generalize rebalanceBeforeInsert t gap = g at hr ⊢
  obtain ⟨t', ⟨p', i'⟩⟩ := g
  dsimp only at hr ⊢
  obtain ⟨hflat, hup, ⟨l, hl, hleaf, hi, -⟩, -⟩ := hr
  dsimp only at hflat hup hl hi
  rw [← hup] at hrank
  rw [← hflat, flatten_eq_upTo hl hleaf i']
  have hget := get?_modify (fun n => mk (n.entries.take i' ++ (r, val) :: n.entries.drop i')
    n.children) hl
  obtain ⟨hleaf', hlen⟩ := insert_leaf_spec r val hleaf hi
  refine ⟨?_, ?_, ⟨_, hget, show i' < _ by omega⟩⟩
  · rw [flatten_insert_leaf hl hleaf, insertWithoutMergingUnchecked, hrank,
      List.insertIdx_eq_take_cons_drop (by simp), List.take_left, List.drop_left]
  · rw [rank_leaf hget hleaf' (by omega), before_modify _ hl]
    show _ = rank t gap
    rw [hrank, upTo, List.length_append, subtree_of_get? hl, slot_leaf hleaf, List.length_take,
      Nat.min_eq_left (show i' ≤ l.entries.length from hi)]

/-- `InsertWithoutMergingUnchecked` keeps the B-tree invariants, at the same height or one more. -/
theorem insertWithoutMergingUnchecked_balanced (hb : Balanced t h) (hg : ValidGap t gap) :
    ∃ h', (h' = h ∨ h' = h + 1) ∧ Balanced (Set.insertWithoutMergingUnchecked t gap r val).1 h' := by
  obtain ⟨h', hh, hr, hpos⟩ := rebalanceBeforeInsert_spec hb hg
  refine ⟨h', hh, ?_⟩
  unfold Set.insertWithoutMergingUnchecked
  generalize rebalanceBeforeInsert t gap = g at hr hpos ⊢
  obtain ⟨t', ⟨p', i'⟩⟩ := g
  dsimp only at hr hpos ⊢
  obtain ⟨-, -, ⟨l, hl, hleaf, hi, hroom⟩, hs⟩ := hr
  dsimp only at hl hi hs
  obtain ⟨-, hsl, hlo⟩ := hs.get? hl
  obtain ⟨hleaf', hlen⟩ := insert_leaf_spec r val hleaf hi
  -- the gap's leaf is at the bottom of the tree
  have h0 : h' - p'.length = 0 := hsl.children_eq_nil_iff.1 hleaf
  refine ⟨hs.modify hl _ (by rw [h0]; exact ⟨hleaf', show nrSegments _ ≤ _ by omega⟩)
    fun hne => le_trans (hlo hne) (show nrSegments l ≤ nrSegments _ by omega), fun hh' => ?_⟩
  cases p' with
  | nil =>
    cases hl
    rw [modify_nil, hlen]
    exact Nat.succ_pos _
  | cons k q =>
    rw [nrSegments, entries_modify_cons]
    exact hpos hh'

end Insert

end BTree

end Segment
