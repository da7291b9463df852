import Gvisor.Auth.IdMapSetSpec
import Gvisor.Auth.UserNamespace
import Gvisor.Lib.PEquiv

/-! The invariant of the user-namespace tree under `NewChildUserNamespace`,
`SetUIDMap` and `SetGIDMap`: the two maps of a kind of every child namespace
are inverse to each other, avoid `NoID` and only reach IDs that the parent maps
in turn. Over it, each namespace denotes a partial equivalence with the root
namespace (`rootEquiv`), which `MapToKUID` and `MapFromKUID` compute. -/

namespace Auth

open IdMapSet

/-- The IDs `[FirstID, FirstID + Length)` of an entry. -/
def IDMapEntry.range (e : IDMapEntry) : IdMapRange := ⟨e.firstID, e.firstID + e.length⟩

/-- The parent IDs `[FirstParentID, FirstParentID + Length)` of an entry. -/
def IDMapEntry.parentRange (e : IDMapEntry) : IdMapRange :=
  ⟨e.firstParentID, e.firstParentID + e.length⟩

theorem entry_inverse {fid fp len a b : UInt32} (h₁ : fid < fid + len) (h₂ : fp < fp + len) :
    lookup [⟨⟨fp, fp + len⟩, fid⟩] b = some a ↔ lookup [⟨⟨fid, fid + len⟩, fp⟩] a = some b := by
  rw [lookup_single_eq_some, lookup_single_eq_some, IdMapRange.contains_iff,
    IdMapRange.contains_iff]
  dsimp only
  rw [UInt32.lt_iff_toNat_lt] at h₁ h₂
  have := fid.toNat_lt
  have := fp.toNat_lt
  have := len.toNat_lt
  have := a.toNat_lt
  have := b.toNat_lt
  simp only [← UInt32.toNat_inj, UInt32.toNat_add, UInt32.toNat_sub] at *
  omega

/-- The partial equivalence that one entry adds, when neither range wraps. -/
def IDMapEntry.toPEquiv (e : IDMapEntry) (h₁ : e.firstID < e.firstID + e.length)
    (h₂ : e.firstParentID < e.firstParentID + e.length) : UInt32 ≃. UInt32 where
  toFun := lookup [⟨e.range, e.firstParentID⟩]
  invFun := lookup [⟨e.parentRange, e.firstID⟩]
  inv _ _ := entry_inverse h₁ h₂

/-- The two maps of a kind of a child namespace, given the parent's
to-parent map. -/
structure ChildMaps (parentMap fromParent toParent : IdMapSet) : Prop where
  wfFrom : WellFormed fromParent
  wfTo : WellFormed toParent
  inverse : ∀ a b, lookup fromParent b = some a ↔ lookup toParent a = some b
  empty_iff : fromParent = [] ↔ toParent = []
  ne_noID : ∀ a b, lookup toParent a = some b → a ≠ noID ∧ b ≠ noID
  mapped : ∀ a b, lookup toParent a = some b → lookup parentMap b ≠ none

namespace ChildMaps

variable {pm f g : IdMapSet}

theorem nil (pm : IdMapSet) : ChildMaps pm [] [] :=
  ⟨wellFormed_nil, wellFormed_nil, by simp, Iff.rfl, by simp, by simp⟩

/-- A child whose parent maps nothing maps nothing either. -/
theorem of_parent_nil (h : ChildMaps [] f g) (pm : IdMapSet) : ChildMaps pm f g :=
  { h with mapped := fun a b hab => absurd (h.mapped a b hab) (by simp) }

/-- The to-parent map, with the from-parent map as its inverse. -/
def toPEquiv (h : ChildMaps pm f g) : UInt32 ≃. UInt32 := ⟨lookup g, lookup f, h.inverse⟩

end ChildMaps

/-- One turn of `trySetIDMap` keeps `ChildMaps`: the entry adds a partial
equivalence disjoint from the one the maps held. -/
theorem trySetIDMapEntry_childMaps {pm : IdMapSet} {m m' : IdMapSet × IdMapSet} {e : IDMapEntry}
    (hpm : WellFormed pm) (h : ChildMaps pm m.1 m.2) (he : trySetIDMapEntry pm m e = .ok m') :
    ChildMaps pm m'.1 m'.2 := by
  unfold trySetIDMapEntry at he
  dsimp only at he
  split_ifs at he with h₁ h₂ h₃
  split at he
  · cases he
  · next f hf =>
    split at he
    · cases he
    · next g hg =>
      cases he
      rw [UInt32.not_le] at h₁ h₂
      have hall : allIDsMapped pm e.firstParentID (e.firstParentID + e.length) = true := by
        simpa using h₃
      obtain ⟨wfF, hF, unF⟩ := add_spec h.wfFrom h₂ hf
      obtain ⟨wfT, hT, unT⟩ := add_spec h.wfTo h₁ hg
      let seg := e.toPEquiv h₁ h₂
      have hdom : ∀ a, seg a = none ∨ h.toPEquiv a = none := by
        intro a
        by_cases hc : e.range.Contains a
        · exact .inr (unT a hc)
        · refine .inl ?_
          show lookup [⟨e.range, e.firstParentID⟩] a = none
          rw [lookup_cons, if_neg hc, lookup_nil]
      have hran : ∀ b, seg.symm b = none ∨ h.toPEquiv.symm b = none := by
        intro b
        by_cases hc : e.parentRange.Contains b
        · exact .inr (unF b hc)
        · refine .inl ?_
          show lookup [⟨e.parentRange, e.firstID⟩] b = none
          rw [lookup_cons, if_neg hc, lookup_nil]
      have hsome : ∀ {a b}, lookup g a = some b →
          (e.range.Contains a ∧ e.parentRange.Contains b) ∨ lookup m.2 a = some b := by
        intro a b hab
        rw [hT, Option.or_eq_some_iff] at hab
        rcases hab with hab | ⟨-, hab⟩
        · have hba := (seg.eq_some_iff).mpr hab
          exact .inl ⟨(lookup_single_eq_some.mp hab).1, (lookup_single_eq_some.mp hba).1⟩
        · exact .inr hab
      refine ⟨wfF, wfT, fun a b => ?_, ?_, fun a b hab => ?_, fun a b hab => ?_⟩
      · rw [hF, hT]
        exact (PEquiv.orElse seg h.toPEquiv hdom hran).inv a b
      · have hf0 : lookup f e.firstParentID ≠ none := by
          rw [hF, lookup_cons, if_pos ⟨UInt32.le_refl _, h₂⟩]
          simp
        have hg0 : lookup g e.firstID ≠ none := by
          rw [hT, lookup_cons, if_pos ⟨UInt32.le_refl _, h₁⟩]
          simp
        show f = [] ↔ g = []
        exact iff_of_false (fun hf => hf0 (by rw [hf]; rfl)) (fun hg => hg0 (by rw [hg]; rfl))
      · rcases hsome hab with ⟨ha, hb⟩ | hab
        · exact ⟨ne_noID_of_lt ha.2, ne_noID_of_lt hb.2⟩
        · exact h.ne_noID a b hab
      · rcases hsome hab with ⟨-, hb⟩ | hab
        · exact lookup_ne_none_of_allIDsMapped hpm hall hb
        · exact h.mapped a b hab

/-- The loop of `trySetIDMap` keeps `ChildMaps`. -/
theorem trySetIDMap_childMaps {pm : IdMapSet} {m m' : IdMapSet × IdMapSet}
    {entries : List IDMapEntry} (hpm : WellFormed pm) (h : ChildMaps pm m.1 m.2)
    (he : trySetIDMap pm m entries = .ok m') : ChildMaps pm m'.1 m'.2 :=
  List.foldlM_except_invariant (fun m => ChildMaps pm m.1 m.2)
    (fun _ _ _ hm hstep => trySetIDMapEntry_childMaps hpm hm hstep) h he

/-- The parent IDs of a segment of a child's to-parent map do not wrap around:
otherwise one ID of the segment would map to `NoID`. -/
theorem ChildMaps.value_add_length_lt {pm f g : IdMapSet} (h : ChildMaps pm f g) {seg : IdMapSeg}
    (hseg : seg ∈ g) : seg.value.toNat + seg.range.length.toNat < 2 ^ 32 := by
  have hne := h.wfTo.nonempty seg hseg
  rw [UInt32.lt_iff_toNat_lt] at hne
  have hv := seg.value.toNat_lt
  have he := seg.range.End.toNat_lt
  have hlen : seg.range.length.toNat = seg.range.End.toNat - seg.range.start.toNat := by
    simp only [IdMapRange.length, UInt32.toNat_sub]
    omega
  by_contra hw
  have hnv : (noID - seg.value).toNat = 2 ^ 32 - 1 - seg.value.toNat := by
    rw [UInt32.toNat_sub, toNat_noID]
    omega
  have ha : seg.range.Contains (seg.range.start + (noID - seg.value)) := by
    rw [IdMapRange.contains_iff, UInt32.toNat_add, hnv]
    omega
  have hl := lookup_of_mem h.wfTo hseg ha
  have hval : seg.value + (seg.range.start + (noID - seg.value) - seg.range.start) = noID := by
    grind
  exact (h.ne_noID _ _ hl).2 hval

/-- Each parent ID of a segment is the image of the matching ID of the segment. -/
theorem ChildMaps.lookup_of_parent {pm f g : IdMapSet} (h : ChildMaps pm f g) {seg : IdMapSeg}
    (hseg : seg ∈ g) {b : UInt32}
    (hb : (⟨seg.value, seg.value + seg.range.length⟩ : IdMapRange).Contains b) :
    seg.range.Contains (seg.range.start + (b - seg.value)) ∧
      lookup g (seg.range.start + (b - seg.value)) = some b := by
  have hw := h.value_add_length_lt hseg
  have hne := h.wfTo.nonempty seg hseg
  rw [UInt32.lt_iff_toNat_lt] at hne
  have he := seg.range.End.toNat_lt
  have hlen : seg.range.length.toNat = seg.range.End.toNat - seg.range.start.toNat := by
    simp only [IdMapRange.length, UInt32.toNat_sub]
    omega
  rw [IdMapRange.contains_iff, UInt32.toNat_add] at hb
  dsimp only at hb
  have ha : seg.range.Contains (seg.range.start + (b - seg.value)) := by
    rw [IdMapRange.contains_iff, UInt32.toNat_add, UInt32.toNat_sub]
    omega
  refine ⟨ha, ?_⟩
  rw [lookup_of_mem h.wfTo hseg ha]
  congr 1
  grind

namespace Tree

/-- The invariant of every reachable tree. -/
structure Valid (t : Tree) : Prop where
  wf : ∀ i k, WellFormed ((t.ns i).mapToParent k)
  ne_noID : ∀ i k a b, lookup ((t.ns i).mapToParent k) a = some b → a ≠ noID ∧ b ≠ noID
  root : ∀ i k, i < t.size → (t.ns i).parent = none → (t.ns i).mapFromParent k ≠ []
  child : ∀ {i p} k, (t.ns i).parent = some p →
    ChildMaps ((t.ns p).mapToParent k) ((t.ns i).mapFromParent k) ((t.ns i).mapToParent k)

/-- The map `[0, MaxUint32) ↦ 0` of the root namespace. -/
def rootMap : IdMapSet := [⟨⟨0, noID⟩, 0⟩]

theorem newRootUserNamespace_mapToParent (k : IdKind) :
    newRootUserNamespace.mapToParent k = rootMap := by
  cases k <;> simp [newRootUserNamespace, UserNamespace.mapToParent, add_rootRange, rootMap, noID]

theorem newRootUserNamespace_mapFromParent (k : IdKind) :
    newRootUserNamespace.mapFromParent k = rootMap := by
  cases k <;> simp [newRootUserNamespace, UserNamespace.mapFromParent, add_rootRange, rootMap, noID]

theorem root_ns_succ (i : ℕ) : root.ns (i + 1) = default := ns_of_size_le (by simp [root, size])

theorem valid_root : root.Valid where
  wf i k := by
    cases i with
    | zero =>
      rw [show root.ns 0 = newRootUserNamespace from rfl, newRootUserNamespace_mapToParent]
      exact wellFormed_cons.mpr ⟨by decide, by simp, wellFormed_nil⟩
    | succ i =>
      rw [root_ns_succ, UserNamespace.default_mapToParent]
      exact wellFormed_nil
  ne_noID i k a b hab := by
    cases i with
    | zero =>
      rw [show root.ns 0 = newRootUserNamespace from rfl, newRootUserNamespace_mapToParent,
        rootMap, lookup_single_eq_some] at hab
      obtain ⟨ha, rfl⟩ := hab
      have hne := ne_noID_of_lt ha.2
      simp only [UInt32.sub_zero, UInt32.zero_add]
      exact ⟨hne, hne⟩
    | succ i =>
      rw [root_ns_succ, UserNamespace.default_mapToParent] at hab
      cases hab
  root i k hi _ := by
    have hi0 : i = 0 := by simpa [root, size] using hi
    subst hi0
    rw [show root.ns 0 = newRootUserNamespace from rfl, newRootUserNamespace_mapFromParent]
    simp [rootMap]
  child {i p} k hp := by
    cases i with
    | zero => cases hp
    | succ i =>
      rw [root_ns_succ] at hp
      cases hp

theorem size_setMaps (t : Tree) (i : ℕ) (k : IdKind) (f g : IdMapSet) :
    (t.setMaps i k f g).size = t.size := List.length_set

/-- Appending a namespace with a parent and no maps keeps the invariant. -/
theorem Valid.push {t : Tree} (hv : t.Valid) (n : UserNamespace) (hn) (hp : n.parent ≠ none)
    (hf : ∀ k, n.mapFromParent k = []) (hg : ∀ k, n.mapToParent k = []) :
    (t.push n hn).Valid where
  wf i k := by
    rw [ns_push]
    split_ifs
    · exact hv.wf i k
    · rw [hg]
      exact wellFormed_nil
    · rw [UserNamespace.default_mapToParent]
      exact wellFormed_nil
  ne_noID i k a b hab := by
    rw [ns_push] at hab
    split_ifs at hab
    · exact hv.ne_noID i k a b hab
    · rw [hg] at hab
      cases hab
    · rw [UserNamespace.default_mapToParent] at hab
      cases hab
  root i k hi hpar := by
    have hi' : i < t.size + 1 := by simpa [Tree.push, size] using hi
    rw [ns_push] at hpar ⊢
    split_ifs at hpar ⊢ with h1 h2
    · exact hv.root i k h1 hpar
    · exact absurd hpar hp
    · omega
  child {i p} k hpar := by
    have hpi := (t.push n hn).lt_of_parent hpar
    rcases Nat.lt_trichotomy i t.size with hi | rfl | hi
    · have hp' : p < t.size := by omega
      rw [ns_push, if_pos hi] at hpar
      rw [ns_push t n hn p, ns_push t n hn i, if_pos hp', if_pos hi]
      exact hv.child k hpar
    · rw [ns_push t n hn t.size, if_neg (Nat.lt_irrefl _), if_pos rfl, hf, hg]
      exact ChildMaps.nil _
    · rw [ns_push, if_neg (by omega), if_neg (by omega), UserNamespace.default_parent] at hpar
      cases hpar

/-- Setting the maps of one kind of a child whose to-parent map was empty
keeps the invariant, when the new maps are `ChildMaps`. -/
theorem Valid.setMaps {t : Tree} (hv : t.Valid) {ns p : ℕ} {k : IdKind} {f g : IdMapSet}
    (hp : (t.ns ns).parent = some p) (hempty : (t.ns ns).mapToParent k = [])
    (hc : ChildMaps ((t.ns p).mapToParent k) f g) : (t.setMaps ns k f g).Valid := by
  have hns := lt_size_of_parent hp
  have hpns := lt_of_parent hp
  have hns' (j : ℕ) := ns_setMaps t ns k f g j hns
  refine ⟨fun j k' => ?_, fun j k' a b hab => ?_, fun j k' hj hpar => ?_, fun {j q} k' hpar => ?_⟩
  · rw [hns']
    split_ifs with hj
    · rw [UserNamespace.mapToParent_setMaps]
      split_ifs with hk
      · exact hc.wfTo
      · exact hv.wf ns k'
    · exact hv.wf j k'
  · rw [hns'] at hab
    split_ifs at hab with hj
    · rw [UserNamespace.mapToParent_setMaps] at hab
      split_ifs at hab with hk
      · exact hc.ne_noID a b hab
      · exact hv.ne_noID ns k' a b hab
    · exact hv.ne_noID j k' a b hab
  · rw [size_setMaps] at hj
    rw [hns'] at hpar ⊢
    split_ifs at hpar ⊢ with hj'
    · rw [UserNamespace.parent_setMaps, hp] at hpar
      cases hpar
    · exact hv.root j k' hj hpar
  · rw [hns'] at hpar
    split_ifs at hpar with hj
    · -- the namespace written: its parent is untouched
      subst hj
      rw [UserNamespace.parent_setMaps, hp] at hpar
      cases hpar
      rw [hns', hns', if_pos rfl, if_neg (Nat.ne_of_lt hpns), UserNamespace.mapFromParent_setMaps,
        UserNamespace.mapToParent_setMaps]
      split_ifs with hk
      · subst hk
        exact hc
      · exact hv.child k' hp
    · -- another namespace, perhaps a child of the one written
      rw [hns' j, if_neg hj, hns' q]
      split_ifs with hq
      · subst hq
        rw [UserNamespace.mapToParent_setMaps]
        split_ifs with hk
        · subst hk
          exact (hempty ▸ hv.child k' hpar).of_parent_nil g
        · exact hv.child k' hpar
      · exact hv.child k' hpar

theorem setMaps_eq_self {t : Tree} {i : ℕ} {k : IdKind} {f g : IdMapSet}
    (hf : (t.ns i).mapFromParent k = f) (hg : (t.ns i).mapToParent k = g) : t.setMaps i k f g = t := by
  subst hf hg
  exact setMaps_of_eq t i k

/-- What a call of `setIDMap` can do: return an error before touching the
tree, or run the loop on a child whose from-parent map is empty, and then
either empty both maps and return the loop's error or set the loop's maps. -/
theorem setIDMap_cases {t t' : Tree} {k : IdKind} {ns : ℕ} {c : Credentials}
    {entries : List IDMapEntry} {err : Option Syserror.Errno}
    (h : t.setIDMap k ns c entries = some (t', err)) :
    (t' = t ∧ err ≠ none) ∨
      ∃ p, (t.ns ns).parent = some p ∧ (t.ns ns).mapFromParent k = [] ∧
        (t.hasCapabilityIn c k.capability p = false →
          t.unprivilegedOK k p (t.ns ns) c entries = true) ∧
        ((∃ e, trySetIDMap ((t.ns p).mapToParent k)
            ((t.ns ns).mapFromParent k, (t.ns ns).mapToParent k) entries = .error e ∧
            t' = t.setMaps ns k [] [] ∧ err = some e) ∨
          (∃ f g, trySetIDMap ((t.ns p).mapToParent k)
            ((t.ns ns).mapFromParent k, (t.ns ns).mapToParent k) entries = .ok (f, g) ∧
            t' = t.setMaps ns k f g ∧ err = none)) := by
  unfold setIDMap at h
  dsimp only at h
  split_ifs at h with h1 h2 h3 h4
  · cases h
    exact .inl ⟨rfl, Option.some_ne_none _⟩
  · cases h
    exact .inl ⟨rfl, Option.some_ne_none _⟩
  · cases h
    exact .inl ⟨rfl, Option.some_ne_none _⟩
  · cases h
    exact .inl ⟨rfl, Option.some_ne_none _⟩
  · have hfrom : (t.ns ns).mapFromParent k = [] := by simpa using h1
    split at h
    · cases h
    · next p hp =>
      split_ifs at h with h5
      · cases h
        exact .inl ⟨rfl, Option.some_ne_none _⟩
      · have hcap : t.hasCapabilityIn c k.capability p = false →
            t.unprivilegedOK k p (t.ns ns) c entries = true := by
          intro hc
          simpa [hc] using h5
        refine .inr ⟨p, hp, hfrom, hcap, ?_⟩
        split at h
        · next e he =>
          cases h
          exact .inl ⟨e, he, rfl, rfl⟩
        · next f g hfg =>
          cases h
          exact .inr ⟨f, g, hfg, rfl, rfl⟩

/-- Every step keeps the invariant. -/
theorem Valid.step {t t' : Tree} (hv : t.Valid) (h : Step t t') : t'.Valid := by
  cases h with
  | newChild hc h =>
    unfold newChildUserNamespace at h
    split_ifs at h
    cases h
    exact hv.push _ _ (by simp) (fun k => by cases k <;> rfl) (fun k => by cases k <;> rfl)
  | @setIDMap k ns _ _ _ h =>
    rcases setIDMap_cases h with ⟨rfl, -⟩ | ⟨p, hp, hfrom, -, hrun⟩
    · exact hv
    · have hto := (hv.child k hp).empty_iff.mp hfrom
      rcases hrun with ⟨e, -, rfl, -⟩ | ⟨f, g, hfg, rfl, -⟩
      · rw [setMaps_eq_self hfrom hto]
        exact hv
      · have hc := trySetIDMap_childMaps (hv.wf p k) (hv.child k hp) hfg
        exact hv.setMaps hp hto hc

theorem Reachable.root : root.Reachable := Transition.Reachable.of_init rfl

theorem Reachable.valid {t : Tree} (h : t.Reachable) : t.Valid :=
  Transition.Reachable.invariant Valid (fun s (hs : s = Tree.root) => hs ▸ valid_root)
    (fun _ _ hv hs => hv.step hs) h

theorem mapToK_noID (t : Tree) (k : IdKind) (ns : ℕ) : t.mapToK k ns noID = noID := by
  induction ns using Nat.strong_induction_on with
  | _ ns ih =>
    cases hp : (t.ns ns).parent with
    | none => rw [mapToK_of_none hp]
    | some p =>
      rw [mapToK_of_some hp, mapID, if_pos rfl]
      exact ih p (lt_of_parent hp)

theorem mapFromK_noID (t : Tree) (k : IdKind) (ns : ℕ) : t.mapFromK k ns noID = noID := by
  induction ns using Nat.strong_induction_on with
  | _ ns ih =>
    cases hp : (t.ns ns).parent with
    | none => rw [mapFromK_of_none hp]
    | some p => rw [mapFromK_of_some hp, ih p (lt_of_parent hp), mapID, if_pos rfl]

/-- `MapToK` of a namespace reads only the namespaces up to it. -/
theorem mapToK_congr {t t' : Tree} {k : IdKind} {i : ℕ} (h : ∀ j ≤ i, t'.ns j = t.ns j)
    (id : UInt32) : t'.mapToK k i id = t.mapToK k i id := by
  induction i using Nat.strong_induction_on generalizing id with
  | _ i ih =>
    cases hp : (t.ns i).parent with
    | none =>
      have hp' : (t'.ns i).parent = none := by rw [h i (Nat.le_refl i)]; exact hp
      rw [mapToK_of_none hp, mapToK_of_none hp']
    | some p =>
      have hp' : (t'.ns i).parent = some p := by rw [h i (Nat.le_refl i)]; exact hp
      have hpi := lt_of_parent hp
      rw [mapToK_of_some hp, mapToK_of_some hp', h i (Nat.le_refl i)]
      exact ih p hpi (fun j hj => h j (by omega)) _

/-- What namespace `ns` denotes: the partial equivalence between its IDs and
those of the root namespace, composed along the chain of its ancestors. -/
def rootEquiv (t : Tree) (hv : t.Valid) (k : IdKind) (ns : ℕ) : UInt32 ≃. UInt32 :=
  match h : (t.ns ns).parent with
  | none => PEquiv.refl _
  | some p => (hv.child k h).toPEquiv.trans (t.rootEquiv hv k p)
termination_by ns
decreasing_by exact t.lt_of_parent h

theorem rootEquiv_of_none {t : Tree} (hv : t.Valid) {k : IdKind} {ns : ℕ}
    (h : (t.ns ns).parent = none) : t.rootEquiv hv k ns = PEquiv.refl _ := by
  rw [rootEquiv]
  split <;> simp_all

theorem rootEquiv_of_some {t : Tree} (hv : t.Valid) {k : IdKind} {ns p : ℕ}
    (h : (t.ns ns).parent = some p) :
    t.rootEquiv hv k ns = (hv.child k h).toPEquiv.trans (t.rootEquiv hv k p) := by
  rw [rootEquiv]
  split
  · simp_all
  · next p' h' =>
    obtain rfl : p' = p := by simp_all
    rfl

/-- Only IDs other than `NoID` have an image other than `NoID`. -/
theorem rootEquiv_ne_noID {t : Tree} (hv : t.Valid) {k : IdKind} {ns : ℕ} {id kid : UInt32}
    (h : t.rootEquiv hv k ns id = some kid) (hkid : kid ≠ noID) : id ≠ noID := by
  cases hp : (t.ns ns).parent with
  | none =>
    rw [rootEquiv_of_none hv hp, PEquiv.refl_apply, Option.some_inj] at h
    exact h ▸ hkid
  | some p =>
    rw [rootEquiv_of_some hv hp, PEquiv.trans_eq_some] at h
    obtain ⟨x, hx, -⟩ := h
    exact ((hv.child k hp).ne_noID id x hx).1

theorem getD_noID_eq_iff {o : Option UInt32} {x : UInt32} (hx : x ≠ noID) :
    o.getD noID = x ↔ o = some x := by
  cases o with
  | none => exact iff_of_false (Ne.symm hx) (by simp)
  | some y => simp

/-- `MapToKUID` and `MapToKGID` compute the partial equivalence. -/
theorem mapToK_eq_rootEquiv {t : Tree} (hv : t.Valid) (k : IdKind) (ns : ℕ) {id : UInt32}
    (hid : id ≠ noID) : t.mapToK k ns id = (t.rootEquiv hv k ns id).getD noID := by
  induction ns using Nat.strong_induction_on generalizing id with
  | _ ns ih =>
    cases hp : (t.ns ns).parent with
    | none => rw [mapToK_of_none hp, rootEquiv_of_none hv hp, PEquiv.refl_apply, Option.getD_some]
    | some p =>
      have hc := hv.child k hp
      rw [mapToK_of_some hp, rootEquiv_of_some hv hp, PEquiv.trans_apply, mapID_eq hc.wfTo,
        if_neg hid]
      show t.mapToK k p ((lookup _ id).getD noID) = ((lookup _ id).bind _).getD noID
      cases hl : lookup ((t.ns ns).mapToParent k) id with
      | none => exact mapToK_noID t k p
      | some x => exact ih p (lt_of_parent hp) (hc.ne_noID id x hl).2

/-- `MapFromKUID` and `MapFromKGID` compute its inverse. -/
theorem mapFromK_eq_rootEquiv {t : Tree} (hv : t.Valid) (k : IdKind) (ns : ℕ) {kid : UInt32}
    (hkid : kid ≠ noID) : t.mapFromK k ns kid = ((t.rootEquiv hv k ns).symm kid).getD noID := by
  induction ns using Nat.strong_induction_on with
  | _ ns ih =>
    cases hp : (t.ns ns).parent with
    | none =>
      rw [mapFromK_of_none hp, rootEquiv_of_none hv hp, PEquiv.symm_refl, PEquiv.refl_apply,
        Option.getD_some]
    | some p =>
      have hc := hv.child k hp
      rw [mapFromK_of_some hp, rootEquiv_of_some hv hp, PEquiv.symm_trans_rev, PEquiv.trans_apply,
        ih p (lt_of_parent hp)]
      cases hy : (t.rootEquiv hv k p).symm kid with
      | none => rw [Option.getD_none, Option.bind_none, Option.getD_none, mapID, if_pos rfl]
      | some y =>
        have hy' := rootEquiv_ne_noID hv ((PEquiv.eq_some_iff _).mp hy) hkid
        rw [Option.getD_some, Option.bind_some, mapID_eq hc.wfFrom, if_neg hy']
        rfl

/-- For IDs other than `NoID`, translating into the root namespace and back
are inverse to each other. -/
theorem mapToK_eq_iff_mapFromK_eq {t : Tree} (hv : t.Valid) (k : IdKind) (ns : ℕ)
    {id kid : UInt32} (hid : id ≠ noID) (hkid : kid ≠ noID) :
    t.mapToK k ns id = kid ↔ t.mapFromK k ns kid = id := by
  rw [mapToK_eq_rootEquiv hv k ns hid, mapFromK_eq_rootEquiv hv k ns hkid, getD_noID_eq_iff hkid,
    getD_noID_eq_iff hid]
  exact (PEquiv.eq_some_iff _).symm

/-- What `UIDMap` and `GIDMap` return for a child: ranges in ascending order,
each non-empty and not wrapping around, with disjoint parent ranges that the
parent maps. -/
structure EntriesValid (parentMap : IdMapSet) (es : List IDMapEntry) : Prop where
  sorted : es.Pairwise fun e₁ e₂ => e₁.range.End ≤ e₂.range.start
  nonempty : ∀ e ∈ es, e.range.start < e.range.End ∧ e.parentRange.start < e.parentRange.End
  parent_disjoint : es.Pairwise fun e₁ e₂ =>
    ∀ b, e₁.parentRange.Contains b → ¬ e₂.parentRange.Contains b
  parent_mapped : ∀ e ∈ es, ∀ b, e.parentRange.Contains b → mapID parentMap b ≠ noID

theorem entry_range (seg : IdMapSeg) :
    (⟨seg.range.start, seg.value, seg.range.length⟩ : IDMapEntry).range = seg.range := by
  obtain ⟨⟨s, e⟩, v⟩ := seg
  simp only [IDMapEntry.range, IdMapRange.length, IdMapRange.mk.injEq, true_and]
  grind

theorem idMap_valid {t : Tree} (hv : t.Valid) (k : IdKind) {ns p : ℕ}
    (hp : (t.ns ns).parent = some p) : EntriesValid ((t.ns p).mapToParent k) (t.idMap k ns) := by
  have hc := hv.child k hp
  simp only [idMap, getIDMap]
  refine ⟨?_, ?_, ?_, ?_⟩
  · rw [List.pairwise_map]
    exact hc.wfTo.sorted.imp fun {s₁ s₂} h => by rw [entry_range, entry_range]; exact h
  · simp only [List.mem_map]
    rintro _ ⟨seg, hseg, rfl⟩
    rw [entry_range]
    have hw := hc.value_add_length_lt hseg
    have hne := hc.wfTo.nonempty seg hseg
    have he := seg.range.End.toNat_lt
    refine ⟨hne, ?_⟩
    rw [UInt32.lt_iff_toNat_lt] at hne ⊢
    have hlen : seg.range.length.toNat = seg.range.End.toNat - seg.range.start.toNat := by
      simp only [IdMapRange.length, UInt32.toNat_sub]
      omega
    show seg.value.toNat < (seg.value + seg.range.length).toNat
    rw [UInt32.toNat_add]
    omega
  · rw [List.pairwise_map]
    refine hc.wfTo.sorted.imp_of_mem fun {s₁ s₂} h₁ h₂ hle b hb₁ hb₂ => ?_
    obtain ⟨ha₁, hl₁⟩ := hc.lookup_of_parent h₁ hb₁
    obtain ⟨ha₂, hl₂⟩ := hc.lookup_of_parent h₂ hb₂
    -- both IDs are the inverse image of `b`, but lie in disjoint segments
    have heq := Option.some_inj.mp (((hc.inverse _ _).mpr hl₁).symm.trans ((hc.inverse _ _).mpr hl₂))
    rw [IdMapRange.contains_iff] at ha₁ ha₂
    rw [UInt32.le_iff_toNat_le] at hle
    rw [heq] at ha₁
    omega
  · simp only [List.mem_map]
    rintro _ ⟨seg, hseg, rfl⟩ b hb
    obtain ⟨-, hl⟩ := hc.lookup_of_parent hseg hb
    have hb' := (hc.ne_noID _ _ hl).2
    obtain ⟨b', hb''⟩ := Option.ne_none_iff_exists'.mp (hc.mapped _ _ hl)
    rw [mapID_eq (hv.wf p k), if_neg hb', hb'', Option.getD_some]
    exact (hv.ne_noID p k b b' hb'').2

/-- A call that returns an error leaves the tree as it was: the loop runs
only on empty maps, which the rollback empties again. -/
theorem setIDMap_error_eq {t t' : Tree} (hv : t.Valid) {k : IdKind} {ns : ℕ} {c : Credentials}
    {entries : List IDMapEntry} {err : Syserror.Errno}
    (h : t.setIDMap k ns c entries = some (t', some err)) : t' = t := by
  rcases setIDMap_cases h with ⟨rfl, -⟩ | ⟨p, hp, hfrom, -, ⟨e, -, rfl, -⟩ | ⟨f, g, -, -, hne⟩⟩
  · rfl
  · exact setMaps_eq_self hfrom ((hv.child k hp).empty_iff.mp hfrom)
  · cases hne

theorem unprivilegedOK_eq_true {t : Tree} {k : IdKind} {p : ℕ} {n : UserNamespace}
    {c : Credentials} {entries : List IDMapEntry} :
    t.unprivilegedOK k p n c entries = true ↔ ∃ e, entries = [e] ∧
      t.mapToK k p e.firstParentID = c.effectiveKID k ∧ e.length = 1 ∧ c.effectiveKUID = n.owner := by
  rcases entries with _ | ⟨e, _ | ⟨e', es⟩⟩ <;> simp [unprivilegedOK, and_assoc]

/-- The loop on empty maps with a single entry. -/
theorem trySetIDMap_single_nil {pm f g : IdMapSet} {e : IDMapEntry}
    (h : trySetIDMap pm ([], []) [e] = .ok (f, g)) :
    e.firstID < e.firstID + e.length ∧ e.firstParentID < e.firstParentID + e.length ∧
      g = [⟨e.range, e.firstParentID⟩] := by
  unfold trySetIDMap at h
  rw [List.foldlM_cons] at h
  cases hstep : trySetIDMapEntry pm ([], []) e with
  | error err =>
    rw [hstep] at h
    cases h
  | ok m =>
    rw [hstep] at h
    cases h
    unfold trySetIDMapEntry at hstep
    dsimp only at hstep
    split_ifs at hstep with h₁ h₂
    rw [add_nil, add_nil] at hstep
    cases hstep
    exact ⟨UInt32.not_le.mp h₁, UInt32.not_le.mp h₂, rfl⟩

theorem mapID_single {fid fp len : UInt32} (h₁ : fid < fid + len) (u : UInt32) :
    mapID [⟨⟨fid, fid + len⟩, fp⟩] u =
      if u = noID then noID else if fid ≤ u ∧ u < fid + len then fp + (u - fid) else noID := by
  rw [mapID_eq (wellFormed_cons.mpr ⟨h₁, by simp, wellFormed_nil⟩), lookup_cons, lookup_nil]
  dsimp only
  by_cases hu : u = noID
  · rw [if_pos hu, if_pos hu]
  · rw [if_neg hu, if_neg hu]
    by_cases hc : fid ≤ u ∧ u < fid + len
    · rw [if_pos (show IdMapRange.Contains ⟨fid, fid + len⟩ u from hc), if_pos hc]
      rfl
    · rw [if_neg (show ¬ IdMapRange.Contains ⟨fid, fid + len⟩ u from hc), if_neg hc]
      rfl

/-- A writer without the capability in the parent namespace maps exactly one
ID, to its own effective ID, and must be the owner (by UID for the GID map
too). -/
theorem setIDMap_unprivileged {t t' : Tree} (hv : t.Valid) {k : IdKind} {ns p : ℕ}
    {c : Credentials} {entries : List IDMapEntry} (h : t.setIDMap k ns c entries = some (t', none))
    (hp : (t.ns ns).parent = some p) (hcap : t.hasCapabilityIn c k.capability p = false) :
    c.effectiveKUID = (t.ns ns).owner ∧ ∃ id,
      (∀ u, mapID ((t'.ns ns).mapToParent k) u ≠ noID ↔ u = id) ∧ t'.mapToK k ns id = c.effectiveKID k := by
  rcases setIDMap_cases h with ⟨-, hne⟩ | ⟨p', hp', hfrom, hok, hrun⟩
  · exact absurd rfl hne
  obtain rfl : p = p' := Option.some_inj.mp (hp.symm.trans hp')
  obtain ⟨e, rfl, hkid, hlen, howner⟩ := unprivilegedOK_eq_true.mp (hok hcap)
  have hto := (hv.child k hp).empty_iff.mp hfrom
  rcases hrun with ⟨_, -, -, hne⟩ | ⟨f, g, hfg, rfl, -⟩
  · cases hne
  rw [hfrom, hto] at hfg
  obtain ⟨h₁, h₂, rfl⟩ := trySetIDMap_single_nil hfg
  have hns := lt_size_of_parent hp
  have hpns := lt_of_parent hp
  have hmap : ((t.setMaps ns k f [⟨e.range, e.firstParentID⟩]).ns ns).mapToParent k =
      [⟨⟨e.firstID, e.firstID + e.length⟩, e.firstParentID⟩] := by
    rw [ns_setMaps _ _ _ _ _ _ hns, if_pos rfl, UserNamespace.mapToParent_setMaps, if_pos rfl]
    rfl
  have hpar : ((t.setMaps ns k f [⟨e.range, e.firstParentID⟩]).ns ns).parent = some p := by
    rw [ns_setMaps _ _ _ _ _ _ hns, if_pos rfl, UserNamespace.parent_setMaps, hp]
  have hfid := ne_noID_of_lt h₁
  have hone : (1 : UInt32).toNat = 1 := rfl
  refine ⟨howner, e.firstID, fun u => ?_, ?_⟩
  · rw [hmap, mapID_single h₁]
    rw [hlen] at h₁ ⊢
    rw [UInt32.lt_iff_toNat_lt, UInt32.toNat_add] at h₁
    constructor
    · intro hu
      split_ifs at hu with hu₁ hu₂
      · exact absurd rfl hu
      · rw [UInt32.le_iff_toNat_le, UInt32.lt_iff_toNat_lt, UInt32.toNat_add] at hu₂
        exact UInt32.toNat_inj.mp (by omega)
      · exact absurd rfl hu
    · rintro rfl
      rw [if_neg hfid, if_pos ⟨UInt32.le_refl _, by rw [UInt32.lt_iff_toNat_lt, UInt32.toNat_add]; omega⟩,
        UInt32.sub_self, UInt32.add_zero]
      exact ne_noID_of_lt h₂
  · have hframe : ∀ j ≤ p, (t.setMaps ns k f [⟨e.range, e.firstParentID⟩]).ns j = t.ns j :=
      fun j hj => by rw [ns_setMaps _ _ _ _ _ _ hns, if_neg (by omega)]
    rw [mapToK_of_some hpar, hmap, mapID_single h₁, if_neg hfid,
      if_pos ⟨UInt32.le_refl _, h₁⟩, UInt32.sub_self, UInt32.add_zero, mapToK_congr hframe, hkid]

/-- The maps of the root namespace are set when it is made, so a write of its
UID map fails with `EPERM` and leaves them non-empty. -/
theorem setUIDMap_root_error_keeps_maps :
    root.Reachable ∧ root.setUIDMap 0 ⟨0, 0, 0, 0⟩ [⟨0, 0, 1⟩] = some (root, some .EPERM) ∧
      (root.ns 0).uidMapFromParent ≠ [] ∧ (root.ns 0).uidMapToParent ≠ [] := by
  have hfrom : (root.ns 0).uidMapFromParent = rootMap := newRootUserNamespace_mapFromParent .uid
  have hto : (root.ns 0).uidMapToParent = rootMap := newRootUserNamespace_mapToParent .uid
  have hne : rootMap ≠ [] := List.cons_ne_nil _ _
  refine ⟨Reachable.root, ?_, hfrom ▸ hne, hto ▸ hne⟩
  unfold setUIDMap setIDMap
  dsimp only
  rw [show (root.ns 0).mapFromParent .uid = (root.ns 0).uidMapFromParent from rfl, hfrom,
    if_pos (show (!List.isEmpty rootMap) = true from rfl)]

/-- In every reachable tree: a write of an ID map that returns an error leaves
the tree as it was; for IDs other than `NoID`, translating into the root
namespace and back are inverse to each other; the entries of `UIDMap` and
`GIDMap` of a child are ascending, with disjoint parent ranges that the parent
maps; and a successful writer without the capability in the parent maps exactly
one ID, to its own effective ID. -/
theorem reachable_idMaps {t : Tree} (h : t.Reachable) :
    (∀ k ns c entries t' err,
      t.setIDMap k ns c entries = some (t', some err) → t' = t) ∧
    (∀ k ns id kid, id ≠ noID → kid ≠ noID →
      (t.mapToK k ns id = kid ↔ t.mapFromK k ns kid = id)) ∧
    (∀ k ns p, (t.ns ns).parent = some p →
      EntriesValid ((t.ns p).mapToParent k) (t.idMap k ns)) ∧
    (∀ k ns p c entries t', t.setIDMap k ns c entries = some (t', none) →
      (t.ns ns).parent = some p → t.hasCapabilityIn c k.capability p = false →
      ∃ id, (∀ u, mapID ((t'.ns ns).mapToParent k) u ≠ noID ↔ u = id) ∧
        t'.mapToK k ns id = c.effectiveKID k) := by
  have hv := h.valid
  exact ⟨fun _ _ _ _ _ _ he => setIDMap_error_eq hv he,
    fun k ns _ _ hid hkid => mapToK_eq_iff_mapFromK_eq hv k ns hid hkid,
    fun k _ _ hp => idMap_valid hv k hp,
    fun _ _ _ _ _ _ he hp hcap => (setIDMap_unprivileged hv he hp hcap).2⟩

/-- A task of the root namespace with UID and GID 1000 makes a child namespace. -/
theorem reachable_idMaps_child :
    ∃ t, root.newChildUserNamespace ⟨0, 1000, 1000, 0⟩ (by decide) = .ok (t, 1) ∧ t.Reachable ∧
      (∀ k ns c entries t' err,
        t.setIDMap k ns c entries = some (t', some err) → t' = t) ∧
      (∀ k ns id kid, id ≠ noID → kid ≠ noID →
        (t.mapToK k ns id = kid ↔ t.mapFromK k ns kid = id)) ∧
      (∀ k ns p, (t.ns ns).parent = some p →
        EntriesValid ((t.ns p).mapToParent k) (t.idMap k ns)) ∧
      (∀ k ns p c entries t', t.setIDMap k ns c entries = some (t', none) →
        (t.ns ns).parent = some p → t.hasCapabilityIn c k.capability p = false →
        ∃ id, (∀ u, mapID ((t'.ns ns).mapToParent k) u ≠ noID ↔ u = id) ∧
          t'.mapToK k ns id = c.effectiveKID k) := by
  have hp : (root.ns 0).parent = none := rfl
  have hd : root.depth 0 = 1 := by
    rw [depth]
    split <;> simp_all
  obtain ⟨t, ht⟩ : ∃ t, root.newChildUserNamespace ⟨0, 1000, 1000, 0⟩ (by decide) = .ok (t, 1) := by
    rw [newChildUserNamespace, if_neg (by rw [hd]; decide),
      if_neg (by rw [mapFromKUID, mapFromK_of_none hp]; decide),
      if_neg (by rw [mapFromKGID, mapFromK_of_none hp]; decide)]
    exact ⟨_, rfl⟩
  have hr : t.Reachable := Transition.Reachable.tail Reachable.root (Step.newChild _ ht)
  exact ⟨t, ht, hr, reachable_idMaps hr⟩

end Tree
end Auth
