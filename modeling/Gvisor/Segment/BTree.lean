import Mathlib
import Gvisor.Lib.MultiwayTree
import Gvisor.Segment.Lookup

/-! The B-tree that holds a `segment.Set` (pkg/segment/set.go). A `node` is a
`MultiwayTree.Node` of segments, `keys[i]` and `values[i]` side by side; its `parent` and
`parentIndex` links are the path of child indices by which an iterator reaches it, so an
iterator is that path and its `index`, and climbing to the parent drops the path's last step.
The tree refines the in-order list of `Segment.Set`: an iterator stands for the number of
segments before it in the tree's order (`rank`), the terminal segment iterator for the length of
the list and the terminal gap iterator for one more. `Find`, with its binary search in each node
and its descent into the child where that search ends, returns the indices that `find`
computes on the list (`find_spec`); the walks from an iterator to its neighbours, through
`segmentAfterPosition` and `segmentBeforePosition`, move those indices by one. -/

namespace Segment

open MultiwayTree Node

variable {V : Type}

/-- `minDegree`. -/
def minDegree : ℕ := 3

/-- `maxDegree`. -/
def maxDegree : ℕ := 2 * minDegree

/-- `node`: its segments and its children. -/
abbrev node (V : Type) := Node (Range × V)

/-- `n.nrSegments`. -/
def nrSegments (n : node V) : ℕ := n.entries.length

/-- `n.hasChildren`. -/
def hasChildren (n : node V) : Bool := !n.children.isEmpty

theorem hasChildren_iff {n : node V} : hasChildren n = true ↔ n.children ≠ [] := by
  simp [hasChildren]

/-- The B-tree invariants of a `Set`'s `root` at height `h` (the comment on `minDegree`): every
leaf at depth `h`, every internal node with one child more than segments, at most
`maxDegree - 1` segments in a node and at least `minDegree - 1` below the root, which has no
segment only where the set is empty. -/
structure Balanced (root : node V) (h : ℕ) : Prop where
  shape : root.Shape (minDegree - 1) (maxDegree - 1) h
  root_pos : 0 < h → 0 < nrSegments root

/-- A non-terminal `Iterator` or `GapIterator`: the `parentIndex` of each node on the way from
the root down to `node`, and `index`. The terminal iterator is `none`. -/
structure Cursor where
  node : List ℕ
  index : ℕ
  deriving DecidableEq, Repr

/-- The iterator seen from one level up, through child `i`. -/
def Cursor.down (i : ℕ) (c : Cursor) : Cursor := ⟨i :: c.node, c.index⟩

/-! ## The order of the segments -/

/-- The order `Find` relies on: each segment non-empty, and ending by the start of every later
one. -/
def Ordered (s : List (Range × V)) : Prop :=
  s.Pairwise (fun p q => p.1.End ≤ q.1.Start) ∧ ∀ p ∈ s, p.1.Start < p.1.End

section Order

variable {s A B : List (Range × V)} {p : Range × V}

theorem Ordered.sublist (ho : Ordered s) {s' : List (Range × V)} (h : s'.Sublist s) : Ordered s' :=
  ⟨ho.1.sublist h, fun p hp => ho.2 p (h.subset hp)⟩

/-- Before a segment of an ordered list, every segment ends by its start. -/
theorem Ordered.end_le_of_append (ho : Ordered (A ++ p :: B)) {q : Range × V} (hq : q ∈ A) :
    q.1.End ≤ p.1.Start :=
  (List.pairwise_append.1 ho.1).2.2 q hq p List.mem_cons_self

/-- After a segment of an ordered list, every segment starts by its end. -/
theorem Ordered.end_le_of_mem_right {q : Range × V} (ho : Ordered (A ++ p :: B)) (hq : q ∈ B) :
    p.1.End ≤ q.1.Start :=
  List.rel_of_pairwise_cons (List.pairwise_append.1 ho.1).2.1 hq

variable [Inhabited V]

theorem WellFormed.ordered {F : Functions V} (hw : WellFormed F s) : Ordered s := by
  refine ⟨List.pairwise_iff_getElem.2 fun i j hi hj hij => ?_, fun p hp => ?_⟩
  · rw [getElem_eq hi, getElem_eq hj]
    exact hw.end_le_start hij hj
  · obtain ⟨i, hi, rfl⟩ := List.mem_iff_getElem.1 hp
    rw [getElem_eq hi]
    exact (hw.range i hi).2.1

theorem Ordered.end_le_start (ho : Ordered s) {j k : ℕ} (hjk : j < k) (hk : k < s.length) :
    segEnd s j ≤ segStart s k := by
  have := List.pairwise_iff_getElem.1 ho.1 j k (by omega) hk hjk
  rwa [getElem_eq (by omega), getElem_eq hk] at this

theorem Ordered.start_lt_end (ho : Ordered s) {j : ℕ} (hj : j < s.length) :
    segStart s j < segEnd s j := by
  have := ho.2 _ (List.getElem_mem hj)
  rwa [getElem_eq hj] at this

end Order

/-- An empty root is the whole of an empty set. -/
theorem Balanced.flatten_eq_nil {t : node V} {h : ℕ} (hb : Balanced t h) (h0 : nrSegments t = 0) :
    t.flatten = [] := by
  have hh : h = 0 := by
    by_contra hne
    exact absurd h0 (Nat.ne_of_gt (hb.root_pos (Nat.pos_of_ne_zero hne)))
  subst hh
  rw [flatten_leaf t hb.shape.1]
  exact List.eq_nil_of_length_eq_zero h0

namespace BTree

/-! ## Iterators as indices of the in-order list -/
/-- The number of segments before an iterator in the tree's order. -/
def rank (t : node V) (c : Cursor) : ℕ :=
  (t.before c.node).length + ((t.subtree c.node).slot c.index).length

/-- A segment iterator as an index of `Segment.Set`, the terminal one past the last segment. -/
def segIndex (t : node V) : Option Cursor → ℕ
  | none => t.flatten.length
  | some c => rank t c

/-- A gap iterator as an index of `Segment.Set`, the terminal one after the last gap. -/
def gapIndex (t : node V) : Option Cursor → ℕ
  | none => t.flatten.length + 1
  | some c => rank t c

/-- An iterator to a segment of `t`. -/
def ValidSeg (t : node V) (c : Cursor) : Prop :=
  ∃ n, t.get? c.node = some n ∧ c.index < nrSegments n

/-- An iterator to a gap of `t`; gaps are in leaves. -/
def ValidGap (t : node V) (c : Cursor) : Prop :=
  ∃ n, t.get? c.node = some n ∧ n.children = [] ∧ c.index ≤ nrSegments n

theorem rank_down {es : List (Range × V)} {cs : List (node V)} {i : ℕ} (hi : i < cs.length)
    (c : Cursor) : rank (mk es cs) (c.down i) =
      (interleave (es.take i) (cs.take i)).length + rank cs[i] c := by
  simp only [rank, Cursor.down]
  rw [before_cons hi, subtree_cons hi, List.length_append]
  omega

theorem validSeg_down {es : List (Range × V)} {cs : List (node V)} {i : ℕ} (hi : i < cs.length)
    {c : Cursor} : ValidSeg (mk es cs) (c.down i) ↔ ValidSeg cs[i] c := by
  simp only [ValidSeg, Cursor.down, get?_cons_eq_some, children_mk]
  exact ⟨fun ⟨n, ⟨_, hn⟩, hc⟩ => ⟨n, hn, hc⟩, fun ⟨n, hn, hc⟩ => ⟨n, ⟨hi, hn⟩, hc⟩⟩

theorem validGap_down {es : List (Range × V)} {cs : List (node V)} {i : ℕ} (hi : i < cs.length)
    {c : Cursor} : ValidGap (mk es cs) (c.down i) ↔ ValidGap cs[i] c := by
  simp only [ValidGap, Cursor.down, get?_cons_eq_some, children_mk]
  exact ⟨fun ⟨n, ⟨_, hn⟩, hc⟩ => ⟨n, hn, hc⟩, fun ⟨n, hn, hc⟩ => ⟨n, ⟨hi, hn⟩, hc⟩⟩

variable {lo hi h : ℕ}

/-- A segment iterator is before the end of the list. -/
theorem rank_lt_of_validSeg {t : node V} (hs : t.Shape lo hi h) {c : Cursor} (hc : ValidSeg t c) :
    rank t c < t.flatten.length := by
  obtain ⟨n, hn, hi⟩ := hc
  obtain ⟨-, hsn, -⟩ := hs.get? hn
  rw [flatten_eq_of_get? hn, flatten_eq_slot hsn.children_cases hi, rank, subtree_of_get? hn]
  simp only [List.length_append, List.length_cons]
  omega

variable [Inhabited V] {s A M B : List (Range × V)} {key : ℕ}

/-- `seg.Range()` and `seg.Value()`. -/
def segment (t : node V) (c : Cursor) : Range × V := (t.subtree c.node).entries.getD c.index default

/-- The segment an iterator reads is the list's at its index. -/
theorem segment_eq {t : node V} (hs : t.Shape lo hi h) {c : Cursor} (hc : ValidSeg t c) :
    segment t c = t.flatten.getD (rank t c) default := by
  obtain ⟨n, hn, hi⟩ := hc
  obtain ⟨-, hsn, -⟩ := hs.get? hn
  rw [segment, subtree_of_get? hn, List.getD_eq_getElem _ _ hi, flatten_eq_of_get? hn,
    flatten_eq_slot hsn.children_cases hi, rank, subtree_of_get? hn, List.append_assoc,
    List.getD_append_right _ _ _ _ (by omega), List.getD_append _ _ _ _ (by simp)]
  simp

/-- `find` over segments that end by `key`, then a middle part, then segments that start beyond
`key`: `find` over the middle part, moved past what comes before. -/
theorem find_append (hA : ∀ p ∈ A, p.1.End ≤ key)
    (hB : ∀ p ∈ B.head?, key < p.1.Start ∧ key < p.1.End) :
    find (A ++ M ++ B) key =
      if (find M key).1 < M.length then ((find M key).1 + A.length, (A ++ M ++ B).length + 1)
      else ((A ++ M ++ B).length, (find M key).2 + A.length) := by
  have hfA : A.findIdx (fun p : Range × V => decide (key < p.1.End)) = A.length :=
    List.findIdx_eq_length.2 fun p hp => by simpa using hA p hp
  have hfB : B.findIdx (fun p : Range × V => decide (key < p.1.End)) = 0 := by
    cases B with
    | nil => rfl
    | cons b B => simp [List.findIdx_cons, (hB b rfl).2]
  have hjle : M.findIdx (fun p : Range × V => decide (key < p.1.End)) ≤ M.length :=
    List.findIdx_le_length
  have hidx : (A ++ M ++ B).findIdx (fun p : Range × V => decide (key < p.1.End)) =
      M.findIdx (fun p : Range × V => decide (key < p.1.End)) + A.length := by
    rw [List.append_assoc, List.findIdx_append, hfA, if_neg (Nat.lt_irrefl _), List.findIdx_append,
      hfB]
    split_ifs <;> omega
  have hfind : ∀ l : List (Range × V), find l key =
      if l.findIdx (fun p : Range × V => decide (key < p.1.End)) < l.length ∧
        segStart l (l.findIdx fun p : Range × V => decide (key < p.1.End)) ≤ key
      then (l.findIdx (fun p : Range × V => decide (key < p.1.End)), l.length + 1)
      else (l.length, l.findIdx fun p : Range × V => decide (key < p.1.End)) := fun _ => rfl
  rw [hfind, hfind M, hidx]
  generalize M.findIdx (fun p : Range × V => decide (key < p.1.End)) = j at hjle ⊢
  have hlen : (A ++ M ++ B).length = A.length + M.length + B.length := by simp; omega
  rcases Nat.lt_or_ge j M.length with hj | hj
  · have hstart : segStart (A ++ M ++ B) (j + A.length) = segStart M j := by
      simp only [segStart, segRange, List.append_assoc]
      rw [List.getD_append_right _ _ _ _ (by omega), Nat.add_sub_cancel, List.getD_append _ _ _ _ hj]
    rw [hstart]
    by_cases hs : segStart M j ≤ key
    · simp [hj, hs]
      omega
    · simp [hj, hs]
  · have hj' : j = M.length := by omega
    subst hj'
    have hnot : ¬(M.length + A.length < (A ++ M ++ B).length ∧
        segStart (A ++ M ++ B) (M.length + A.length) ≤ key) := by
      rintro ⟨hlt, hs⟩
      cases B with
      | nil =>
        simp at hlt
        omega
      | cons b B =>
        have hb : segStart (A ++ M ++ b :: B) (M.length + A.length) = b.1.Start := by
          simp only [segStart, segRange, List.append_assoc]
          rw [List.getD_append_right _ _ _ _ (by omega), List.getD_append_right _ _ _ _ (by omega)]
          simp
        rw [hb] at hs
        exact absurd hs (Nat.not_le.2 (hB b rfl).1)
    have hin : ¬(M.length < M.length ∧ segStart M M.length ≤ key) := fun h => Nat.lt_irrefl _ h.1
    rw [if_neg hnot, if_neg hin]
    simp

/-! ## `Find` -/

/-- The binary search of `Find` over one node's keys, between `lower` and `upper`: `inl i` where
`keys[i]` contains `key`, else `inr` of where it ends. -/
def findIndex (keys : List Range) (key lower upper : ℕ) : ℕ ⊕ ℕ :=
  if lower < upper then
    let i := lower + (upper - lower) / 2
    let r := keys.getD i default
    if key < r.End then
      if key ≥ r.Start then .inl i else findIndex keys key lower i
    else findIndex keys key (i + 1) upper
  else .inr lower
termination_by upper - lower

/-- Where the binary search ends: at the segment that contains `key`, or at the position after
the segments that end by `key` and before those that start beyond it. -/
def Found (es : List (Range × V)) (key : ℕ) : ℕ ⊕ ℕ → Prop
  | .inl i => i < es.length ∧ segStart es i ≤ key ∧ key < segEnd es i
  | .inr i => i ≤ es.length ∧ (∀ j < i, segEnd es j ≤ key) ∧ (i < es.length → key < segStart es i)

theorem getD_map_fst (es : List (Range × V)) (i : ℕ) :
    (es.map Prod.fst).getD i default = segRange es i := by
  rw [segRange, show (default : Range) = (default : Range × V).1 from rfl, List.getD_map]

/-- The binary search keeps the segments before `lower` ending by `key` and those from `upper`
on starting beyond it. -/
theorem findIndex_found {es : List (Range × V)} (ho : Ordered es) {lower upper : ℕ}
    (hle : lower ≤ upper) (hu : upper ≤ es.length) (hlo : ∀ j < lower, segEnd es j ≤ key)
    (hup : ∀ j, upper ≤ j → j < es.length → key < segStart es j) :
    Found es key (findIndex (es.map Prod.fst) key lower upper) := by
  fun_induction findIndex (es.map Prod.fst) key lower upper with
  | case1 lower upper hlt i r hend hstart =>
    simp only [r, i, getD_map_fst] at hend hstart
    exact ⟨by omega, hstart, hend⟩
  | case2 lower upper hlt i r hend hstart ih =>
    simp only [r, i, getD_map_fst] at hend hstart
    refine ih (by omega) (by omega) hlo fun j hj hjl => ?_
    rcases Nat.eq_or_lt_of_le hj with rfl | hj
    · exact Nat.lt_of_not_le hstart
    · exact Nat.lt_of_lt_of_le hend (ho.end_le_start hj hjl)
  | case3 lower upper hlt i r hend ih =>
    simp only [r, i, getD_map_fst] at hend
    refine ih (by omega) hu (fun j hj => ?_) hup
    rcases Nat.lt_or_ge j lower with hj' | hj'
    · exact hlo j hj'
    · rcases Nat.eq_or_lt_of_le (Nat.le_of_lt_succ hj) with rfl | hj''
      · exact Nat.le_of_not_lt hend
      · exact Nat.le_trans (Nat.le_of_lt (Nat.lt_of_le_of_lt (ho.end_le_start hj'' (by omega))
          (ho.start_lt_end (by omega)))) (Nat.le_of_not_lt hend)
  | case4 lower upper hge =>
    exact ⟨by omega, hlo, fun hl => hup lower (by omega) hl⟩

/-- The loop of `Find` from the node `n` down, with paths from `n`. -/
def findFrom (key : ℕ) (n : node V) : Option Cursor × Option Cursor :=
  match findIndex (n.entries.map Prod.fst) key 0 (nrSegments n) with
  | .inl i => (some ⟨[], i⟩, none)
  | .inr i =>
    if _h : hasChildren n then
      let r := findFrom key (n.children.getD i default)
      (r.1.map (Cursor.down i), r.2.map (Cursor.down i))
    else (none, some ⟨[], i⟩)
termination_by sizeOf n
decreasing_by exact sizeOf_getD_children_lt (hasChildren_iff.1 ‹_›) i

/-- What `Find` returns in `t`: the segment that contains `key` and a terminal gap, or a terminal
segment and the gap that contains `key`, at the indices the list's `find` returns. -/
def FindSpec (t : node V) (key : ℕ) (r : Option Cursor × Option Cursor) : Prop :=
  (∃ c, r = (some c, none) ∧ ValidSeg t c ∧
    Segment.find t.flatten key = (rank t c, t.flatten.length + 1)) ∨
  (∃ c, r = (none, some c) ∧ ValidGap t c ∧
    Segment.find t.flatten key = (t.flatten.length, rank t c))

theorem find_singleton {p : Range × V} (hs : p.1.Start ≤ key) (he : key < p.1.End) :
    Segment.find [p] key = (0, 2) := by
  simp [Segment.find, List.findIdx_cons, he, segStart, segRange, hs]

theorem find_nil : Segment.find ([] : List (Range × V)) key = (0, 0) := rfl

/-- Where the search stops at an entry, the list's `find` stops at that segment. -/
theorem find_flatten_of_entry {n : node V}
    (hc : n.children = [] ∨ n.children.length = n.entries.length + 1) (ho : Ordered n.flatten)
    {i : ℕ} (hf : Found n.entries key (.inl i)) :
    Segment.find n.flatten key = ((n.slot i).length, n.flatten.length + 1) := by
  obtain ⟨hi, hs, he⟩ := hf
  have hei : n.entries[i].1 = segRange n.entries i := by rw [getElem_eq hi]
  rw [flatten_eq_slot hc hi] at ho ⊢
  rw [show ∀ B, n.slot i ++ n.entries[i] :: B = n.slot i ++ [n.entries[i]] ++ B by simp,
    find_append (fun p hp => ?_) (fun p hp => ?_), find_singleton (by rwa [hei]) (by rwa [hei])]
  · simp
  · exact Nat.le_trans (ho.end_le_of_append hp) (by rwa [hei])
  · have hq := ho.end_le_of_mem_right (List.mem_of_mem_head? hp)
    have hlt := ho.2 p (List.mem_append_right _ (List.mem_cons_of_mem _ (List.mem_of_mem_head? hp)))
    rw [hei] at hq
    exact ⟨by simp only [segEnd] at he; omega, by simp only [segEnd] at he; omega⟩

/-- Where the search ends between the entries of a leaf, the list's `find` returns that gap. -/
theorem find_flatten_of_leaf {n : node V} (hc : n.children = []) (ho : Ordered n.flatten)
    {i : ℕ} (hf : Found n.entries key (.inr i)) :
    Segment.find n.flatten key = (n.flatten.length, (n.slot i).length) := by
  obtain ⟨hi, hlo, hup⟩ := hf
  rw [flatten_leaf n hc] at ho ⊢
  have hA : ∀ p ∈ n.entries.take i, p.1.End ≤ key := fun p hp => by
    obtain ⟨j, hj, hjl, rfl⟩ := exists_of_mem_take hp
    exact hlo j hj
  have hB : ∀ p ∈ (n.entries.drop i).head?, key < p.1.Start ∧ key < p.1.End := fun p hp => by
    have hil : i < n.entries.length := by
      by_contra hge
      rw [List.drop_eq_nil_of_le (by omega)] at hp
      simp at hp
    rw [List.head?_drop, List.getElem?_eq_getElem hil, Option.mem_some_iff] at hp
    subst hp
    rw [getElem_eq hil]
    exact ⟨hup hil, Nat.lt_trans (hup hil) (ho.start_lt_end hil)⟩
  have h := find_append (M := []) hA hB
  rw [List.append_nil, List.take_append_drop, find_nil] at h
  rw [h, slot_leaf hc]
  simp

/-- Where the search ends before child `i` of an inner node, everything before that child ends
by `key`. -/
theorem end_le_of_before_child {n : node V} (hc : n.children.length = n.entries.length + 1)
    (ho : Ordered n.flatten) {i : ℕ} (hf : Found n.entries key (.inr i)) {p : Range × V}
    (hp : p ∈ interleave (n.entries.take i) (n.children.take i)) : p.1.End ≤ key := by
  obtain ⟨hi, hlo, -⟩ := hf
  rcases i with _ | k
  · simp at hp
  · have hk : k < n.entries.length := by omega
    have hek : n.entries[k].1 = segRange n.entries k := by rw [getElem_eq hk]
    have hend : n.entries[k].1.End ≤ key := by rw [hek]; exact hlo k (Nat.lt_succ_self k)
    rw [interleave_take_succ hc hk, List.mem_append, List.mem_singleton] at hp
    rcases hp with hp | rfl
    · rw [flatten_eq_slot (.inr hc) hk] at ho
      exact Nat.le_trans (Nat.le_trans (ho.end_le_of_append hp)
        (Nat.le_of_lt (ho.2 _ (by simp)))) hend
    · exact hend

/-- Where the search ends before child `i` of an inner node, everything after that child starts
beyond `key`. -/
theorem lt_start_of_after_child {n : node V} (hc : n.children.length = n.entries.length + 1)
    (ho : Ordered n.flatten) {i : ℕ} (hf : Found n.entries key (.inr i)) {p : Range × V}
    (hp : p ∈ ((n.entries.drop i).take 1 ++ interleave (n.entries.drop (i + 1))
      (n.children.drop (i + 1))).head?) : key < p.1.Start ∧ key < p.1.End := by
  obtain ⟨hi, -, hup⟩ := hf
  have hes : Ordered n.entries := ho.sublist n.entries_sublist_flatten
  rcases Nat.lt_or_ge i n.entries.length with hil | hge
  · rw [List.drop_eq_getElem_cons hil, List.take_succ_cons, List.take_zero, List.singleton_append,
      List.head?_cons, Option.mem_some_iff] at hp
    subst hp
    rw [getElem_eq hil]
    exact ⟨hup hil, Nat.lt_trans (hup hil) (hes.start_lt_end hil)⟩
  · rw [List.drop_eq_nil_of_le hge, List.drop_eq_nil_of_le (by omega),
      List.drop_eq_nil_of_le (by omega)] at hp
    simp at hp

/-- `find` returns a segment and the terminal gap, or the terminal segment and a gap. -/
theorem find_cases_length (s : List (Range × V)) (key : ℕ) :
    ((Segment.find s key).1 < s.length ∧ (Segment.find s key).2 = s.length + 1) ∨
    ((Segment.find s key).1 = s.length ∧ (Segment.find s key).2 ≤ s.length) := by
  have hle : s.findIdx (fun p : Range × V => decide (key < p.1.End)) ≤ s.length :=
    List.findIdx_le_length
  simp only [Segment.find]
  split_ifs with h
  · exact .inl ⟨h.1, rfl⟩
  · exact .inr ⟨rfl, hle⟩

/-- One level of `Find`: right in every child, right in the node. -/
theorem findFrom_spec_step {es : List (Range × V)} {cs : List (node V)}
    (hc : cs = [] ∨ cs.length = es.length + 1) (ho : Ordered (mk es cs).flatten)
    (ih : ∀ i (hi : i < cs.length), FindSpec cs[i] key (findFrom key cs[i])) :
    FindSpec (mk es cs) key (findFrom key (mk es cs)) := by
  have hes : Ordered es := ho.sublist (mk es cs).entries_sublist_flatten
  have hfound : Found es key (findIndex ((mk es cs).entries.map Prod.fst) key 0
      (nrSegments (mk es cs))) :=
    findIndex_found hes (Nat.zero_le _) le_rfl (fun j hj => absurd hj (Nat.not_lt_zero j))
      fun j hj hjl => absurd hjl (Nat.not_lt.2 hj)
  rw [findFrom]
  cases hr : findIndex ((mk es cs).entries.map Prod.fst) key 0 (nrSegments (mk es cs)) with
  | inl i =>
    rw [hr] at hfound
    refine .inl ⟨⟨[], i⟩, rfl, ⟨mk es cs, rfl, hfound.1⟩, ?_⟩
    rw [find_flatten_of_entry (n := mk es cs) hc ho hfound, rank]
    simp [subtree]
  | inr i =>
    rw [hr] at hfound
    dsimp only
    by_cases hch : hasChildren (mk es cs) = true
    · -- `n = n.children[i]`, one level down
      rw [dif_pos hch]
      have hcs : cs.length = es.length + 1 := hc.resolve_left (hasChildren_iff.1 hch)
      have hi : i < cs.length := by have := hfound.1; omega
      have hflat : (mk es cs).flatten = _ := flatten_eq_child hi
      have hf := find_append (M := cs[i].flatten)
        (fun p hp => end_le_of_before_child (n := mk es cs) hcs ho hfound hp)
        fun p hp => lt_start_of_after_child (n := mk es cs) hcs ho hfound hp
      simp only [entries_mk, children_mk] at hf
      rw [← hflat] at hf
      simp only [children_mk, List.getD_eq_getElem _ _ hi]
      rcases ih i hi with ⟨c, hrc, hvc, hfc⟩ | ⟨c, hrc, hvc, hfc⟩
      · have hlt : rank cs[i] c < cs[i].flatten.length := by
          rcases find_cases_length cs[i].flatten key with h | h <;> rw [hfc] at h <;> omega
        refine .inl ⟨c.down i, by rw [hrc]; rfl, (validSeg_down hi).2 hvc, ?_⟩
        rw [hf, hfc, if_pos hlt, rank_down hi, Nat.add_comm]
      · have hge : ¬ cs[i].flatten.length < cs[i].flatten.length := Nat.lt_irrefl _
        refine .inr ⟨c.down i, by rw [hrc]; rfl, (validGap_down hi).2 hvc, ?_⟩
        rw [hf, hfc, if_neg hge, rank_down hi, Nat.add_comm]
    · rw [dif_neg hch]
      have hleaf : cs = [] := by simpa [hasChildren] using hch
      refine .inr ⟨⟨[], i⟩, rfl, ⟨mk es cs, rfl, hleaf, hfound.1⟩, ?_⟩
      rw [find_flatten_of_leaf (n := mk es cs) hleaf ho hfound, rank]
      simp [subtree]

/-- `Find` in a B-tree, by induction on its height. -/
theorem findFrom_spec {n : node V} (hs : n.Shape lo hi h) (ho : Ordered n.flatten) :
    FindSpec n key (findFrom key n) := by
  induction h generalizing n with
  | zero =>
    obtain ⟨es, cs⟩ := n
    exact findFrom_spec_step hs.children_cases ho fun i hi => absurd hi (by simp [show cs = [] from hs.1])
  | succ h ih =>
    obtain ⟨es, cs⟩ := n
    refine findFrom_spec_step hs.children_cases ho fun i hi => ih (hs.2.2 _ (List.getElem_mem hi)).2 ?_
    rw [flatten_eq_child hi] at ho
    exact ho.sublist ((List.sublist_append_right _ _).trans (List.sublist_append_left _ _))

/-! ## Walking between neighbours -/

/-- `n.firstSegment()` for the node `n` at `p`: down the first children to a leaf. -/
def firstSegment (t : node V) (p : List ℕ) : Cursor :=
  ⟨p ++ (t.subtree p).descend fun _ => 0, 0⟩

/-- `n.lastSegment()` for the node `n` at `p`: down `children[nrSegments]` to a leaf, and its
last segment. -/
def lastSegment (t : node V) (p : List ℕ) : Cursor :=
  let q := p ++ (t.subtree p).descend fun m => nrSegments m
  ⟨q, nrSegments (t.subtree q) - 1⟩

/-- `segmentBeforePosition(n, i)`, for the node `n` whose path reversed is `up`: the
`parentIndex` of `n`, of its parent, and so on up to the root. -/
def segmentBeforePosition : List ℕ → ℕ → Option Cursor
  | up, i =>
    if i = 0 then
      match up with
      | [] => none
      | j :: up => segmentBeforePosition up j
    else some ⟨up.reverse, i - 1⟩

/-- `segmentAfterPosition(n, i)`, for the node `n` of `t` whose path reversed is `up`. -/
def segmentAfterPosition (t : node V) : List ℕ → ℕ → Option Cursor
  | up, i =>
    if i = nrSegments (t.subtree up.reverse) then
      match up with
      | [] => none
      | j :: up => segmentAfterPosition t up j
    else some ⟨up.reverse, i⟩

namespace Iterator

/-- `seg.PrevSegment()`. -/
def prevSegment (t : node V) (c : Cursor) : Option Cursor :=
  if hasChildren (t.subtree c.node) then some (lastSegment t (c.node ++ [c.index]))
  else if c.index > 0 then some ⟨c.node, c.index - 1⟩
  else
    match c.node.reverse with
    | [] => none
    | j :: up => segmentBeforePosition up j

/-- `seg.NextSegment()`. -/
def nextSegment (t : node V) (c : Cursor) : Option Cursor :=
  if hasChildren (t.subtree c.node) then some (firstSegment t (c.node ++ [c.index + 1]))
  else if c.index < nrSegments (t.subtree c.node) - 1 then some ⟨c.node, c.index + 1⟩
  else
    match c.node.reverse with
    | [] => none
    | j :: up => segmentAfterPosition t up j

/-- `seg.PrevGap()`: below an inner node, the gap after the last segment of the child, which is
in a leaf. -/
def prevGap (t : node V) (c : Cursor) : Cursor :=
  if hasChildren (t.subtree c.node) then
    let s := lastSegment t (c.node ++ [c.index])
    ⟨s.node, s.index + 1⟩
  else ⟨c.node, c.index⟩

/-- `seg.NextGap()`: below an inner node, the gap before the first segment of the next child,
which is in a leaf. -/
def nextGap (t : node V) (c : Cursor) : Cursor :=
  if hasChildren (t.subtree c.node) then (firstSegment t (c.node ++ [c.index + 1]))
  else ⟨c.node, c.index + 1⟩

end Iterator

namespace GapIterator

/-- `gap.PrevSegment()`. -/
def prevSegment (c : Cursor) : Option Cursor := segmentBeforePosition c.node.reverse c.index

/-- `gap.NextSegment()`. -/
def nextSegment (t : node V) (c : Cursor) : Option Cursor :=
  segmentAfterPosition t c.node.reverse c.index

/-- `gap.PrevGap()`. -/
def prevGap (t : node V) (c : Cursor) : Option Cursor := (prevSegment c).map (Iterator.prevGap t)

/-- `gap.NextGap()`. -/
def nextGap (t : node V) (c : Cursor) : Option Cursor :=
  (nextSegment t c).map (Iterator.nextGap t)

end GapIterator

/-- A segment iterator of `t` at index `k` of the list: the terminal one where `k` is its
length. -/
def SegAt (t : node V) (k : ℕ) (r : Option Cursor) : Prop :=
  segIndex t r = k ∧ ∀ c ∈ r, ValidSeg t c

/-- A gap iterator of `t` at index `k` of the list: the terminal one past the last gap. -/
def GapAt (t : node V) (k : ℕ) (r : Option Cursor) : Prop :=
  gapIndex t r = k ∧ ∀ c ∈ r, ValidGap t c

/-- Where the gap or child at `i` starts in the node at `p`: the number of segments before it. -/
def startPos (t : node V) (p : List ℕ) (i : ℕ) : ℕ :=
  (t.before p).length +
    (interleave ((t.subtree p).entries.take i) ((t.subtree p).children.take i)).length

omit [Inhabited V] in
theorem startPos_append_singleton {t m : node V} {p : List ℕ} (hm : t.get? p = some m) {j : ℕ}
    (hj : j < m.children.length) : (t.before (p ++ [j])).length = startPos t p j := by
  obtain ⟨es, cs⟩ := m
  rw [startPos, before_append hm, before_singleton (show j < cs.length from hj),
    subtree_of_get? hm, List.length_append]
  rfl

omit [Inhabited V] in
/-- Past the end of an inner node or a leaf, the position is after the whole subtree. -/
theorem rank_nrSegments {t m : node V} {p : List ℕ} (hm : t.get? p = some m)
    (hc : m.children = [] ∨ m.children.length = m.entries.length + 1) :
    rank t ⟨p, nrSegments m⟩ = (t.before p).length + m.flatten.length := by
  rw [rank, subtree_of_get? hm]
  exact congrArg _ (congrArg List.length (slot_entries_length hc))

omit [Inhabited V] in
/-- Just past child `j`, the position is after the subtree of that child. -/
theorem rank_child {t pm : node V} {p : List ℕ} (hpm : t.get? p = some pm) {j : ℕ}
    (hj : j < pm.children.length) :
    rank t ⟨p, j⟩ = (t.before (p ++ [j])).length + pm.children[j].flatten.length := by
  rw [startPos_append_singleton hpm hj, rank, startPos, subtree_of_get? hpm, slot_eq_child hj,
    List.length_append, Nat.add_assoc]

variable {t : node V}

omit [Inhabited V] in
theorem segAt_some {m : node V} {p : List ℕ} (hm : t.get? p = some m) {i : ℕ}
    (hi : i < nrSegments m) : SegAt t (rank t ⟨p, i⟩) (some ⟨p, i⟩) :=
  ⟨rfl, fun c hc => by cases hc; exact ⟨m, hm, hi⟩⟩

omit [Inhabited V] in
/-- `segmentAfterPosition` climbs to the segment right after position `i` of the node at the
path, or to the terminal iterator where that is the end of the set. -/
theorem segmentAfterPosition_spec (hs : t.Shape lo hi h) :
    ∀ (up : List ℕ) {m : node V} {i : ℕ}, t.get? up.reverse = some m → i ≤ nrSegments m →
      SegAt t (rank t ⟨up.reverse, i⟩) (segmentAfterPosition t up i)
  | [], m, i, hm, hi => by
    cases hm
    rw [segmentAfterPosition.eq_1, List.reverse_nil, subtree_of_get? rfl]
    by_cases hend : i = nrSegments t
    · rw [if_pos hend, hend, rank_nrSegments rfl hs.children_cases]
      exact ⟨by simp [segIndex], fun c hc => absurd hc (by simp)⟩
    · rw [if_neg hend]
      exact segAt_some rfl (by omega)
  | j :: up, m, i, hm, hi => by
    rw [List.reverse_cons] at hm ⊢
    obtain ⟨pm, hpm, hj, rfl⟩ := get?_append_singleton.1 hm
    obtain ⟨-, hspm, -⟩ := hs.get? hpm
    obtain ⟨-, hsm, -⟩ := hs.get? hm
    rw [segmentAfterPosition.eq_2, List.reverse_cons, subtree_of_get? hm]
    by_cases hend : i = nrSegments pm.children[j]
    · rw [if_pos hend, hend, rank_nrSegments hm hsm.children_cases]
      have hjle : j ≤ nrSegments pm := by
        rcases hspm.children_cases with hc | hc
        · rw [hc] at hj
          exact absurd hj (Nat.not_lt_zero _)
        · rw [nrSegments]
          omega
      have := segmentAfterPosition_spec hs up hpm hjle
      rwa [rank_child hpm hj] at this
    · rw [if_neg hend]
      exact segAt_some hm (by omega)

omit [Inhabited V] in
theorem startPos_zero (t : node V) (p : List ℕ) : startPos t p 0 = (t.before p).length := by
  simp [startPos]

omit [Inhabited V] in
/-- Where a gap or child other than the first starts, the segment before it ends. -/
theorem startPos_eq_rank_succ {m : node V} {p : List ℕ} (hm : t.get? p = some m)
    (hc : m.children = [] ∨ m.children.length = m.entries.length + 1) {i : ℕ} (hi0 : 0 < i)
    (hi : i ≤ nrSegments m) : startPos t p i = rank t ⟨p, i - 1⟩ + 1 := by
  obtain ⟨k, rfl⟩ : ∃ k, i = k + 1 := ⟨i - 1, by omega⟩
  rw [startPos, rank, subtree_of_get? hm, Nat.add_sub_cancel]
  rcases hc with hc | hc
  · rw [hc, slot_leaf hc]
    simp only [List.take_nil, interleave_nil, List.length_take]
    rw [nrSegments] at hi
    omega
  · rw [interleave_take_succ hc hi]
    simp only [List.length_append, List.length_singleton]
    omega

omit [Inhabited V] in
/-- `segmentBeforePosition` climbs to the segment right before where gap or child `i` of the node
at the path starts, or to the terminal iterator where that is the start of the set. -/
theorem segmentBeforePosition_spec (hs : t.Shape lo hi h) :
    ∀ (up : List ℕ) {m : node V} {i : ℕ}, t.get? up.reverse = some m → i ≤ nrSegments m →
      SegAt t (if startPos t up.reverse i = 0 then t.flatten.length
        else startPos t up.reverse i - 1) (segmentBeforePosition up i)
  | up, m, i, hm, hi => by
    obtain ⟨-, hsm, -⟩ := hs.get? hm
    rcases Nat.eq_zero_or_pos i with rfl | hi0
    · rw [startPos_zero]
      match up, hm with
      | [], hm =>
        rw [segmentBeforePosition.eq_1]
        exact ⟨by simp [segIndex], fun c hc => absurd hc (by simp)⟩
      | j :: up, hm =>
        rw [segmentBeforePosition.eq_2, if_pos rfl]
        rw [List.reverse_cons] at hm ⊢
        obtain ⟨pm, hpm, hj, rfl⟩ := get?_append_singleton.1 hm
        obtain ⟨-, hspm, -⟩ := hs.get? hpm
        have hjle : j ≤ nrSegments pm := by
          rcases hspm.children_cases with hc | hc
          · rw [hc] at hj
            exact absurd hj (Nat.not_lt_zero _)
          · rw [nrSegments]
            omega
        rw [startPos_append_singleton hpm hj]
        exact segmentBeforePosition_spec hs up hpm hjle
    · have hpos := startPos_eq_rank_succ hm hsm.children_cases hi0 hi
      have hne : ¬ startPos t up.reverse i = 0 := by omega
      have hstep : segmentBeforePosition up i = some ⟨up.reverse, i - 1⟩ := by
        cases up <;> simp [segmentBeforePosition, Nat.pos_iff_ne_zero.1 hi0]
      rw [if_neg hne, hstep, hpos, Nat.add_sub_cancel]
      exact segAt_some hm (by omega)

omit [Inhabited V] in
theorem rank_leaf {m : node V} {p : List ℕ} (hm : t.get? p = some m) (hleaf : m.children = [])
    {i : ℕ} (hi : i ≤ nrSegments m) : rank t ⟨p, i⟩ = (t.before p).length + i := by
  rw [rank, subtree_of_get? hm, slot_leaf hleaf, List.length_take, nrSegments] at *
  simp only at *
  omega

omit [Inhabited V] in
/-- `n.firstSegment()`: the first segment of a leaf below the node at `p`, at the position
where that node's subtree starts. -/
theorem firstSegment_spec (hs : t.Shape lo hi h) (hlo : 0 < lo) {m : node V} {p : List ℕ}
    (hm : t.get? p = some m) (hm0 : 0 < nrSegments m) :
    ∃ l, t.get? (firstSegment t p).node = some l ∧ l.children = [] ∧ 0 < nrSegments l ∧
      rank t (firstSegment t p) = (t.before p).length := by
  obtain ⟨-, hsm, -⟩ := hs.get? hm
  obtain ⟨l, hl, hleaf, -, hlol, -⟩ := hsm.get?_descend (f := fun _ => 0) fun n hn => by omega
  have hget : t.get? (p ++ m.descend fun _ => 0) = some l := by rw [get?_append, hm]; exact hl
  have hpos : 0 < nrSegments l := by
    by_cases hd : (m.descend fun _ => 0) = []
    · rw [hd] at hl
      cases hl
      exact hm0
    · exact Nat.lt_of_lt_of_le hlo (hlol hd)
  refine ⟨l, by rw [firstSegment, subtree_of_get? hm]; exact hget, hleaf, hpos, ?_⟩
  rw [firstSegment, subtree_of_get? hm, rank_leaf hget hleaf (Nat.zero_le _), before_append hm,
    before_descend_zero]
  simp

omit [Inhabited V] in
/-- `n.lastSegment()`: the last segment of a leaf below the node at `p`, right before where that
node's subtree ends. -/
theorem lastSegment_spec (hs : t.Shape lo hi h) (hlo : 0 < lo) {m : node V} {p : List ℕ}
    (hm : t.get? p = some m) (hm0 : 0 < nrSegments m) :
    ∃ l, t.get? (lastSegment t p).node = some l ∧ l.children = [] ∧
      (lastSegment t p).index + 1 = nrSegments l ∧
      rank t (lastSegment t p) + 1 = (t.before p).length + m.flatten.length := by
  obtain ⟨-, hsm, -⟩ := hs.get? hm
  obtain ⟨l, hl, hleaf, -, hlol, -⟩ := hsm.get?_descend (f := fun n => nrSegments n)
    fun n hn => by rw [nrSegments]; omega
  have hget : t.get? (p ++ m.descend fun n => nrSegments n) = some l := by
    rw [get?_append, hm]
    exact hl
  have hpos : 0 < nrSegments l := by
    by_cases hd : (m.descend fun n => nrSegments n) = []
    · rw [hd] at hl
      cases hl
      exact hm0
    · exact Nat.lt_of_lt_of_le hlo (hlol hd)
  have hafter : m.after (m.descend fun n => nrSegments n) = [] := hsm.after_descend_last
  have hflat := flatten_eq_of_get? hl
  rw [hafter, flatten_leaf l hleaf] at hflat
  refine ⟨l, by rw [lastSegment, subtree_of_get? hm]; exact hget, hleaf,
    by simp only [lastSegment, subtree_of_get? hm, subtree_of_get? hget]; omega, ?_⟩
  rw [lastSegment]
  simp only [subtree_of_get? hm, subtree_of_get? hget]
  rw [rank_leaf hget hleaf (Nat.sub_le _ _), before_append hm, hflat]
  simp only [List.length_append, List.append_nil, nrSegments] at hpos ⊢
  omega

omit [Inhabited V] in
/-- A valid iterator's node is a leaf or has one child more than segments. -/
theorem children_cases_of_get? (hs : t.Shape lo hi h) {m : node V} {p : List ℕ}
    (hm : t.get? p = some m) : m.children = [] ∨ m.children.length = m.entries.length + 1 :=
  (hs.get? hm).2.1.children_cases

omit [Inhabited V] in
theorem le_nrSegments_of_lt_children (hs : t.Shape lo hi h) {m : node V} {p : List ℕ}
    (hm : t.get? p = some m) {j : ℕ} (hj : j < m.children.length) : j ≤ nrSegments m := by
  rcases children_cases_of_get? hs hm with hc | hc
  · rw [hc] at hj
    exact absurd hj (Nat.not_lt_zero _)
  · rw [nrSegments]
    omega

omit [Inhabited V] in
/-- The child of a node of a B-tree has a segment. -/
theorem child_pos (hs : t.Shape lo hi h) (hlo : 0 < lo) {m : node V} {p : List ℕ}
    (hm : t.get? p = some m) {j : ℕ} (hj : j < m.children.length) :
    t.get? (p ++ [j]) = some m.children[j] ∧ 0 < nrSegments m.children[j] := by
  have hchild : t.get? (p ++ [j]) = some m.children[j] := get?_append_singleton.2 ⟨m, hm, hj, rfl⟩
  exact ⟨hchild, Nat.lt_of_lt_of_le hlo ((hs.get? hchild).2.2 (by simp))⟩

namespace Iterator

omit [Inhabited V] in
/-- `seg.NextSegment()` is the segment at the next index of the list, or the terminal iterator
after the last. -/
theorem nextSegment_spec (hs : t.Shape lo hi h) (hlo : 0 < lo) {c : Cursor} (hc : ValidSeg t c) :
    SegAt t (rank t c + 1) (nextSegment t c) := by
  obtain ⟨m, hm, hi⟩ := hc
  have hcc := children_cases_of_get? hs hm
  unfold nextSegment
  rw [subtree_of_get? hm]
  by_cases hch : hasChildren m = true
  · -- the first segment below the next child
    rw [if_pos hch]
    have hcs := hcc.resolve_left (hasChildren_iff.1 hch)
    have hj : c.index + 1 < m.children.length := by rw [nrSegments] at hi; omega
    obtain ⟨hchild, hpos⟩ := child_pos hs hlo hm hj
    obtain ⟨l, hl, -, hlpos, hr⟩ := firstSegment_spec hs hlo hchild hpos
    refine ⟨?_, fun c' hc' => by cases hc'; exact ⟨l, hl, hlpos⟩⟩
    rw [segIndex, hr, startPos_append_singleton hm hj,
      startPos_eq_rank_succ hm hcc (Nat.succ_pos _) (by omega)]
    rfl
  · rw [if_neg hch]
    have hleaf : m.children = [] := by simpa [hasChildren] using hch
    by_cases hlast : c.index < nrSegments m - 1
    · rw [if_pos hlast]
      have := segAt_some hm (i := c.index + 1) (by omega)
      rwa [rank_leaf hm hleaf (by omega), ← Nat.add_assoc, ← rank_leaf hm hleaf (by omega)] at this
    · -- past the end of the leaf: climb
      rw [if_neg hlast]
      have hrank : rank t c + 1 = (t.before c.node).length + m.flatten.length := by
        rw [rank_leaf hm hleaf (by omega), flatten_leaf m hleaf]
        rw [nrSegments] at hi hlast
        omega
      rw [hrank]
      cases hq : c.node.reverse with
      | nil =>
        have hnil : c.node = [] := List.reverse_eq_nil_iff.1 hq
        rw [hnil] at hm
        cases hm
        exact ⟨by simp [segIndex, hnil], fun c' hc' => absurd hc' (by simp)⟩
      | cons j up =>
        have hnode : c.node = up.reverse ++ [j] := List.reverse_eq_cons_iff.1 hq
        rw [hnode] at hm ⊢
        obtain ⟨pm, hpm, hj, rfl⟩ := get?_append_singleton.1 hm
        have := segmentAfterPosition_spec hs up hpm (le_nrSegments_of_lt_children hs hpm hj)
        rwa [rank_child hpm hj] at this

omit [Inhabited V] in
theorem rank_firstSegment_child (hs : t.Shape lo hi h) (hlo : 0 < lo) {c : Cursor} {m : node V}
    (hm : t.get? c.node = some m) (hi : c.index < nrSegments m)
    (hcs : m.children.length = m.entries.length + 1) :
    ∃ l, t.get? (firstSegment t (c.node ++ [c.index + 1])).node = some l ∧ l.children = [] ∧
      0 < nrSegments l ∧ rank t (firstSegment t (c.node ++ [c.index + 1])) = rank t c + 1 := by
  have hj : c.index + 1 < m.children.length := by rw [nrSegments] at hi; omega
  obtain ⟨hchild, hpos⟩ := child_pos hs hlo hm hj
  obtain ⟨l, hl, hleaf, hlpos, hr⟩ := firstSegment_spec hs hlo hchild hpos
  refine ⟨l, hl, hleaf, hlpos, ?_⟩
  rw [hr, startPos_append_singleton hm hj,
    startPos_eq_rank_succ hm (children_cases_of_get? hs hm) (Nat.succ_pos _) (by omega)]
  rfl

omit [Inhabited V] in
theorem rank_lastSegment_child (hs : t.Shape lo hi h) (hlo : 0 < lo) {c : Cursor} {m : node V}
    (hm : t.get? c.node = some m) (hi : c.index < nrSegments m)
    (hcs : m.children.length = m.entries.length + 1) :
    ∃ l, t.get? (lastSegment t (c.node ++ [c.index])).node = some l ∧ l.children = [] ∧
      (lastSegment t (c.node ++ [c.index])).index + 1 = nrSegments l ∧
      rank t (lastSegment t (c.node ++ [c.index])) + 1 = rank t c := by
  have hj : c.index < m.children.length := by rw [nrSegments] at hi; omega
  obtain ⟨hchild, hpos⟩ := child_pos hs hlo hm hj
  obtain ⟨l, hl, hleaf, hidx, hr⟩ := lastSegment_spec hs hlo hchild hpos
  exact ⟨l, hl, hleaf, hidx, by rw [hr, ← rank_child hm hj]⟩

omit [Inhabited V] in
/-- `seg.PrevSegment()` is the segment at the previous index of the list, or the terminal
iterator before the first. -/
theorem prevSegment_spec (hs : t.Shape lo hi h) (hlo : 0 < lo) {c : Cursor} (hc : ValidSeg t c) :
    SegAt t (if rank t c = 0 then t.flatten.length else rank t c - 1) (prevSegment t c) := by
  obtain ⟨m, hm, hi⟩ := hc
  have hcc := children_cases_of_get? hs hm
  unfold prevSegment
  rw [subtree_of_get? hm]
  by_cases hch : hasChildren m = true
  · -- the last segment below the child before it
    rw [if_pos hch]
    obtain ⟨l, hl, -, hidx, hr⟩ :=
      rank_lastSegment_child hs hlo hm hi (hcc.resolve_left (hasChildren_iff.1 hch))
    rw [if_neg (by omega)]
    exact ⟨by rw [segIndex]; omega, fun c' hc' => by cases hc'; exact ⟨l, hl, by omega⟩⟩
  · rw [if_neg hch]
    have hleaf : m.children = [] := by simpa [hasChildren] using hch
    by_cases hfirst : c.index > 0
    · rw [if_pos hfirst]
      have hr : rank t c = (t.before c.node).length + c.index := rank_leaf hm hleaf (by omega)
      rw [if_neg (by omega)]
      refine ⟨?_, fun c' hc' => by cases hc'; exact ⟨m, hm, show c.index - 1 < nrSegments m by omega⟩⟩
      show rank t ⟨c.node, c.index - 1⟩ = rank t c - 1
      rw [rank_leaf hm hleaf (by omega), hr]
      omega
    · -- before the start of the leaf: climb
      rw [if_neg hfirst]
      have hrank : rank t c = (t.before c.node).length := by
        rw [rank_leaf hm hleaf (by omega)]
        omega
      rw [hrank]
      cases hq : c.node.reverse with
      | nil =>
        have hnil : c.node = [] := List.reverse_eq_nil_iff.1 hq
        exact ⟨by simp [segIndex, hnil], fun c' hc' => absurd hc' (by simp)⟩
      | cons j up =>
        have hnode : c.node = up.reverse ++ [j] := List.reverse_eq_cons_iff.1 hq
        rw [hnode] at hm ⊢
        obtain ⟨pm, hpm, hj, rfl⟩ := get?_append_singleton.1 hm
        have := segmentBeforePosition_spec hs up hpm (le_nrSegments_of_lt_children hs hpm hj)
        rwa [← startPos_append_singleton hpm hj] at this

omit [Inhabited V] in
/-- `seg.NextGap()` is the gap at the next index of the list. -/
theorem nextGap_spec (hs : t.Shape lo hi h) (hlo : 0 < lo) {c : Cursor} (hc : ValidSeg t c) :
    ValidGap t (nextGap t c) ∧ rank t (nextGap t c) = rank t c + 1 := by
  obtain ⟨m, hm, hi⟩ := hc
  unfold nextGap
  rw [subtree_of_get? hm]
  by_cases hch : hasChildren m = true
  · rw [if_pos hch]
    obtain ⟨l, hl, hleaf, -, hr⟩ := rank_firstSegment_child hs hlo hm hi
      ((children_cases_of_get? hs hm).resolve_left (hasChildren_iff.1 hch))
    exact ⟨⟨l, hl, hleaf, Nat.zero_le _⟩, hr⟩
  · rw [if_neg hch]
    have hleaf : m.children = [] := by simpa [hasChildren] using hch
    refine ⟨⟨m, hm, hleaf, hi⟩, ?_⟩
    show rank t ⟨c.node, c.index + 1⟩ = rank t c + 1
    rw [rank_leaf hm hleaf hi, show rank t c = _ from rank_leaf hm hleaf (Nat.le_of_lt hi),
      Nat.add_assoc]

omit [Inhabited V] in
/-- `seg.PrevGap()` is the gap at the same index of the list. -/
theorem prevGap_spec (hs : t.Shape lo hi h) (hlo : 0 < lo) {c : Cursor} (hc : ValidSeg t c) :
    ValidGap t (prevGap t c) ∧ rank t (prevGap t c) = rank t c := by
  obtain ⟨m, hm, hi⟩ := hc
  unfold prevGap
  rw [subtree_of_get? hm]
  by_cases hch : hasChildren m = true
  · rw [if_pos hch]
    obtain ⟨l, hl, hleaf, hidx, hr⟩ := rank_lastSegment_child hs hlo hm hi
      ((children_cases_of_get? hs hm).resolve_left (hasChildren_iff.1 hch))
    generalize lastSegment t (c.node ++ [c.index]) = ls at hl hidx hr ⊢
    refine ⟨⟨l, hl, hleaf, show ls.index + 1 ≤ nrSegments l by omega⟩, ?_⟩
    show rank t ⟨ls.node, ls.index + 1⟩ = rank t c
    rw [rank_leaf hl hleaf (by omega), ← hr, show rank t ls = _ from rank_leaf hl hleaf (by omega)]
    omega
  · rw [if_neg hch]
    exact ⟨⟨m, hm, by simpa [hasChildren] using hch, Nat.le_of_lt hi⟩, rfl⟩

end Iterator

omit [Inhabited V] in
theorem rank_le_of_validGap {c : Cursor} (hc : ValidGap t c) :
    rank t c ≤ t.flatten.length := by
  obtain ⟨m, hm, hleaf, hi⟩ := hc
  rw [rank_leaf hm hleaf hi, flatten_eq_of_get? hm, flatten_leaf m hleaf]
  simp only [List.length_append, nrSegments] at hi ⊢
  omega

omit [Inhabited V] in
/-- A segment iterator at index `k` of the list is the terminal one or stands at `k`. -/
theorem SegAt.eq_some {r : Option Cursor} {k : ℕ} (hr : SegAt t k r)
    (hk : k < t.flatten.length) : ∃ c, r = some c ∧ ValidSeg t c ∧ rank t c = k := by
  obtain ⟨hidx, hv⟩ := hr
  cases r with
  | none => exact absurd hidx (by simp only [segIndex]; omega)
  | some c => exact ⟨c, rfl, hv c rfl, hidx⟩

namespace GapIterator

omit [Inhabited V] in
/-- `gap.NextSegment()` is the segment at the gap's index of the list, or the terminal iterator
after the last gap. -/
theorem nextSegment_spec (hs : t.Shape lo hi h) {c : Cursor} (hc : ValidGap t c) :
    SegAt t (rank t c) (nextSegment t c) := by
  obtain ⟨m, hm, -, hi⟩ := hc
  have := segmentAfterPosition_spec hs c.node.reverse (by rwa [List.reverse_reverse]) hi
  rwa [List.reverse_reverse] at this

omit [Inhabited V] in
/-- `gap.PrevSegment()` is the segment at the previous index of the list, or the terminal
iterator before the first gap. -/
theorem prevSegment_spec (hs : t.Shape lo hi h) {c : Cursor} (hc : ValidGap t c) :
    SegAt t (if rank t c = 0 then t.flatten.length else rank t c - 1) (prevSegment c) := by
  obtain ⟨m, hm, hleaf, hi⟩ := hc
  have := segmentBeforePosition_spec hs c.node.reverse (by rwa [List.reverse_reverse]) hi
  have hstart : startPos t c.node c.index = rank t c := by
    rw [startPos, show rank t c = _ from rank_leaf hm hleaf hi, subtree_of_get? hm, hleaf]
    simp only [List.take_nil, interleave_nil, List.length_take, nrSegments] at hi ⊢
    omega
  rwa [List.reverse_reverse, hstart] at this

omit [Inhabited V] in
/-- `gap.NextGap()` is the gap at the next index of the list, or the terminal gap iterator after
the last gap. -/
theorem nextGap_spec (hs : t.Shape lo hi h) (hlo : 0 < lo) {c : Cursor} (hc : ValidGap t c) :
    GapAt t (rank t c + 1) (nextGap t c) := by
  have hnext := nextSegment_spec hs hc
  unfold nextGap
  cases hr : nextSegment t c with
  | none =>
    rw [hr] at hnext
    exact ⟨by simp only [Option.map_none, gapIndex, ← hnext.1, segIndex],
      fun c' hc' => absurd hc' (by simp)⟩
  | some s =>
    rw [hr] at hnext
    obtain ⟨hv, hrank⟩ := Iterator.nextGap_spec hs hlo (hnext.2 s rfl)
    exact ⟨by rw [Option.map_some, gapIndex, hrank, ← hnext.1, segIndex],
      fun c' hc' => by cases hc'; exact hv⟩

omit [Inhabited V] in
/-- `gap.PrevGap()` is the gap at the previous index of the list, or the terminal gap iterator
before the first gap. -/
theorem prevGap_spec (hs : t.Shape lo hi h) (hlo : 0 < lo) {c : Cursor} (hc : ValidGap t c) :
    GapAt t (if rank t c = 0 then t.flatten.length + 1 else rank t c - 1) (prevGap t c) := by
  have hprev := prevSegment_spec hs hc
  have hle := rank_le_of_validGap hc
  unfold prevGap
  by_cases h0 : rank t c = 0
  · rw [if_pos h0] at hprev ⊢
    cases hr : prevSegment c with
    | none => exact ⟨rfl, fun c' hc' => absurd hc' (by simp)⟩
    | some s =>
      rw [hr] at hprev
      exact absurd hprev.1 (Nat.ne_of_lt (rank_lt_of_validSeg hs (hprev.2 s rfl)))
  · rw [if_neg h0] at hprev ⊢
    obtain ⟨s, hr, hv, hrank⟩ := hprev.eq_some (by omega)
    rw [hr]
    obtain ⟨hv', hrank'⟩ := Iterator.prevGap_spec hs hlo hv
    exact ⟨by rw [Option.map_some, gapIndex, hrank', hrank], fun c' hc' => by cases hc'; exact hv'⟩

end GapIterator

namespace Set

/-- `s.IsEmpty()`. -/
def isEmpty (t : node V) : Bool := nrSegments t = 0

/-- `s.FirstSegment()`. -/
def firstSegment (t : node V) : Option Cursor :=
  if nrSegments t = 0 then none else some (BTree.firstSegment t [])

/-- `s.LastSegment()`. -/
def lastSegment (t : node V) : Option Cursor :=
  if nrSegments t = 0 then none else some (BTree.lastSegment t [])

/-- `s.FirstGap()`. -/
def firstGap (t : node V) : Cursor := ⟨t.descend fun _ => 0, 0⟩

/-- `s.LastGap()`. -/
def lastGap (t : node V) : Cursor :=
  let q := t.descend fun n => nrSegments n
  ⟨q, nrSegments (t.subtree q)⟩

/-- `s.Find(key)`. -/
def find (t : node V) (key : ℕ) : Option Cursor × Option Cursor := findFrom key t

/-- `s.FindSegment(key)`. -/
def findSegment (t : node V) (key : ℕ) : Option Cursor := (find t key).1

/-- `s.FindGap(key)`. -/
def findGap (t : node V) (key : ℕ) : Option Cursor := (find t key).2

/-- `s.LowerBoundSegment(min)`. -/
def lowerBoundSegment (t : node V) (min : ℕ) : Option Cursor :=
  match find t min with
  | (some seg, _) => some seg
  | (none, gap) => gap.bind (GapIterator.nextSegment t)

/-- `s.UpperBoundSegment(max)`. -/
def upperBoundSegment (t : node V) (max : ℕ) : Option Cursor :=
  match find t max with
  | (some seg, _) => some seg
  | (none, gap) => gap.bind GapIterator.prevSegment

/-- `s.LowerBoundGap(min)`. -/
def lowerBoundGap (t : node V) (min : ℕ) : Option Cursor :=
  match find t min with
  | (_, some gap) => some gap
  | (seg, none) => seg.map (Iterator.nextGap t)

/-- `s.UpperBoundGap(max)`. -/
def upperBoundGap (t : node V) (max : ℕ) : Option Cursor :=
  match find t max with
  | (_, some gap) => some gap
  | (seg, none) => seg.map (Iterator.prevGap t)

end Set

/-- `Find` in a set's B-tree: the segment that contains `key` and a terminal gap, or a terminal
segment and the gap that contains `key`, at the indices that `find` returns on the list. -/
theorem find_spec {h : ℕ} (hb : Balanced t h) {F : Functions V} (hw : WellFormed F t.flatten)
    (key : ℕ) : FindSpec t key (Set.find t key) :=
  findFrom_spec hb.shape hw.ordered

theorem minDegree_pos : 0 < minDegree - 1 := by decide

namespace Set

variable {h : ℕ}

omit [Inhabited V] in
theorem isEmpty_iff (hb : Balanced t h) : isEmpty t = true ↔ t.flatten = [] := by
  rw [isEmpty, decide_eq_true_iff]
  refine ⟨hb.flatten_eq_nil, fun he => ?_⟩
  have := (t.entries_sublist_flatten).length_le
  rw [he] at this
  exact Nat.le_zero.1 this

omit [Inhabited V] in
/-- `FirstSegment` is at index 0 of the list, the terminal iterator for an empty set. -/
theorem firstSegment_spec (hb : Balanced t h) : SegAt t 0 (firstSegment t) := by
  unfold firstSegment
  by_cases h0 : nrSegments t = 0
  · rw [if_pos h0]
    exact ⟨by simp [segIndex, hb.flatten_eq_nil h0], fun c hc => absurd hc (by simp)⟩
  · rw [if_neg h0]
    obtain ⟨l, hl, -, hpos, hr⟩ := BTree.firstSegment_spec hb.shape minDegree_pos
      (get?_nil t) (Nat.pos_of_ne_zero h0)
    exact ⟨by rw [segIndex, hr]; simp, fun c hc => by cases hc; exact ⟨l, hl, hpos⟩⟩

omit [Inhabited V] in
/-- `LastSegment` is at the last index of the list, the terminal iterator for an empty set. -/
theorem lastSegment_spec (hb : Balanced t h) :
    SegAt t (t.flatten.length - 1) (lastSegment t) := by
  unfold lastSegment
  by_cases h0 : nrSegments t = 0
  · rw [if_pos h0]
    exact ⟨by simp [segIndex, hb.flatten_eq_nil h0], fun c hc => absurd hc (by simp)⟩
  · rw [if_neg h0]
    obtain ⟨l, hl, -, hidx, hr⟩ := BTree.lastSegment_spec hb.shape minDegree_pos
      (get?_nil t) (Nat.pos_of_ne_zero h0)
    refine ⟨by rw [segIndex]; simp at hr; omega, fun c hc => by cases hc; exact ⟨l, hl, by omega⟩⟩

omit [Inhabited V] in
/-- `FirstGap` is the gap at index 0 of the list. -/
theorem firstGap_spec (hb : Balanced t h) : ValidGap t (firstGap t) ∧ rank t (firstGap t) = 0 := by
  obtain ⟨l, hl, hleaf, -, -, -⟩ := hb.shape.get?_descend (f := fun _ => 0) fun n hn => by omega
  refine ⟨⟨l, hl, hleaf, Nat.zero_le _⟩, ?_⟩
  rw [firstGap, rank_leaf hl hleaf (Nat.zero_le _), before_descend_zero]
  rfl

omit [Inhabited V] in
/-- `LastGap` is the gap after the last segment of the list. -/
theorem lastGap_spec (hb : Balanced t h) :
    ValidGap t (lastGap t) ∧ rank t (lastGap t) = t.flatten.length := by
  obtain ⟨l, hl, hleaf, -, -, -⟩ := hb.shape.get?_descend (f := fun n => nrSegments n)
    fun n hn => by rw [nrSegments]; omega
  have hafter : t.after (t.descend fun n => nrSegments n) = [] := hb.shape.after_descend_last
  have hflat := flatten_eq_of_get? hl
  rw [hafter, flatten_leaf l hleaf, List.append_nil] at hflat
  refine ⟨⟨l, by rw [lastGap]; exact hl, hleaf, by simp only [lastGap, subtree_of_get? hl]; rfl⟩, ?_⟩
  show rank t ⟨_, nrSegments (t.subtree _)⟩ = _
  rw [subtree_of_get? hl, rank_leaf hl hleaf le_rfl, hflat, List.length_append]
  rfl

variable {F : Functions V} {key : ℕ}

/-- `LowerBoundSegment` is at the index `lowerBoundSegment` returns on the list. -/
theorem lowerBoundSegment_spec (hb : Balanced t h) (hw : WellFormed F t.flatten) :
    SegAt t (Segment.lowerBoundSegment t.flatten key) (lowerBoundSegment t key) := by
  unfold lowerBoundSegment Segment.lowerBoundSegment
  rcases find_spec hb hw key with ⟨c, hr, hv, hf⟩ | ⟨c, hr, hv, hf⟩
  · rw [hr, hf]
    exact ⟨by simp [segIndex, rank_lt_of_validSeg hb.shape hv],
      fun c' hc' => by cases hc'; exact hv⟩
  · rw [hr, hf]
    simpa using GapIterator.nextSegment_spec hb.shape hv

/-- A tree of height 1: the root holds `[10, 20)`, the leaves `[0, 5)`, `[5, 10)` and
`[20, 25)`, `[30, 35)`. -/
def twoLevel : node ℕ :=
  mk [(⟨10, 20⟩, 0)] [mk [(⟨0, 5⟩, 0), (⟨5, 10⟩, 0)] [], mk [(⟨20, 25⟩, 0), (⟨30, 35⟩, 0)] []]

/-- Keys up to 100; any two adjacent segments merge. -/
def mergeAll : Functions ℕ := ⟨0, 100, fun _ _ _ _ => some 0, fun _ v _ => (v, v)⟩

theorem balanced_twoLevel : Balanced twoLevel 1 :=
  ⟨⟨rfl, by decide, by simp [twoLevel, Shape, minDegree, maxDegree]⟩, fun _ => by decide⟩

theorem wellFormed_twoLevel : WellFormed mergeAll twoLevel.flatten := by
  refine ⟨by decide, fun i hi => ?_⟩
  have hs : ∀ i < 4, segEnd twoLevel.flatten i ≤ segStart twoLevel.flatten (i + 1) := by decide
  exact hs i (by simp [twoLevel] at hi; omega)

/-- The lower bound of 27, in the gap of the right leaf, is `[30, 35)`. -/
theorem lowerBoundSegment_spec_twoLevel : Balanced twoLevel 1 ∧
    WellFormed mergeAll twoLevel.flatten ∧
    SegAt twoLevel (Segment.lowerBoundSegment twoLevel.flatten 27)
      (lowerBoundSegment twoLevel 27) :=
  ⟨balanced_twoLevel, wellFormed_twoLevel,
    lowerBoundSegment_spec balanced_twoLevel wellFormed_twoLevel⟩

/-- `UpperBoundSegment` is at the index of the segment that contains `key`, or of the last one
before it. -/
theorem upperBoundSegment_spec (hb : Balanced t h) (hw : WellFormed F t.flatten) :
    SegAt t (if (Segment.find t.flatten key).1 < t.flatten.length then (Segment.find t.flatten key).1
      else if (Segment.find t.flatten key).2 = 0 then t.flatten.length
      else (Segment.find t.flatten key).2 - 1) (upperBoundSegment t key) := by
  unfold upperBoundSegment
  rcases find_spec hb hw key with ⟨c, hr, hv, hf⟩ | ⟨c, hr, hv, hf⟩
  · rw [hr, hf]
    exact ⟨by simp [segIndex, rank_lt_of_validSeg hb.shape hv],
      fun c' hc' => by cases hc'; exact hv⟩
  · rw [hr, hf]
    simpa using GapIterator.prevSegment_spec hb.shape hv

/-- The upper bound of 27 is `[20, 25)`, the segment before the gap. -/
theorem upperBoundSegment_spec_twoLevel : Balanced twoLevel 1 ∧
    WellFormed mergeAll twoLevel.flatten ∧
    SegAt twoLevel
      (if (Segment.find twoLevel.flatten 27).1 < twoLevel.flatten.length then
        (Segment.find twoLevel.flatten 27).1
      else if (Segment.find twoLevel.flatten 27).2 = 0 then twoLevel.flatten.length
      else (Segment.find twoLevel.flatten 27).2 - 1)
      (upperBoundSegment twoLevel 27) :=
  ⟨balanced_twoLevel, wellFormed_twoLevel,
    upperBoundSegment_spec balanced_twoLevel wellFormed_twoLevel⟩

/-- `LowerBoundGap` is at the index `lowerBoundGap` returns on the list. -/
theorem lowerBoundGap_spec (hb : Balanced t h) (hw : WellFormed F t.flatten) :
    GapAt t (Segment.lowerBoundGap t.flatten key) (lowerBoundGap t key) := by
  unfold lowerBoundGap Segment.lowerBoundGap
  rcases find_spec hb hw key with ⟨c, hr, hv, hf⟩ | ⟨c, hr, hv, hf⟩
  · rw [hr, hf]
    obtain ⟨hv', hrank⟩ := Iterator.nextGap_spec hb.shape minDegree_pos hv
    exact ⟨by simp [gapIndex, hrank], fun c' hc' => by cases hc'; exact hv'⟩
  · rw [hr, hf]
    exact ⟨by simp [gapIndex, rank_le_of_validGap hv], fun c' hc' => by cases hc'; exact hv⟩

/-- `UpperBoundGap` is at the index of the gap that contains `key`, or of the gap before the
segment that does. -/
theorem upperBoundGap_spec (hb : Balanced t h) (hw : WellFormed F t.flatten) :
    GapAt t (if (Segment.find t.flatten key).2 ≤ t.flatten.length then (Segment.find t.flatten key).2
      else (Segment.find t.flatten key).1) (upperBoundGap t key) := by
  unfold upperBoundGap
  rcases find_spec hb hw key with ⟨c, hr, hv, hf⟩ | ⟨c, hr, hv, hf⟩
  · rw [hr, hf]
    obtain ⟨hv', hrank⟩ := Iterator.prevGap_spec hb.shape minDegree_pos hv
    exact ⟨by simp [gapIndex, hrank], fun c' hc' => by cases hc'; exact hv'⟩
  · rw [hr, hf]
    exact ⟨by simp [gapIndex, rank_le_of_validGap hv], fun c' hc' => by cases hc'; exact hv⟩

end Set

end BTree

end Segment
