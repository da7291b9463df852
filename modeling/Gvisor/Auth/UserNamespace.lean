import Mathlib
import Gvisor.Auth.IdMapSet
import Gvisor.Lib.List
import Gvisor.Lib.Reachable
import Gvisor.Syserror

/-! User namespaces and their ID maps (pkg/sentry/kernel/auth/user_namespace.go,
id_map.go), with the fields of `Credentials` they read. The namespaces of a
system form a tree, kept as an arena: a `*UserNamespace` is an index, and a
parent always has a smaller index than its child, so that every walk towards
the root terminates. UIDs and GIDs are translated by the same code over
different maps, so each function is written once over an `IdKind`. -/

namespace Auth

open Syserror

inductive IdKind where
  | uid
  | gid
  deriving DecidableEq, Repr

/-- `linux.CAP_SETUID`. -/
def capSetuid : ℕ := 7

/-- `linux.CAP_SETGID`. -/
def capSetgid : ℕ := 6

def maxUserNamespaceDepth : ℕ := 32

/-- The capability that writing the ID map of a kind needs. -/
def IdKind.capability : IdKind → ℕ
  | .uid => capSetuid
  | .gid => capSetgid

/-- `CapabilitySetOf`. -/
def capabilitySetOf (cp : ℕ) : UInt64 := 1 <<< cp.toUInt64

structure UserNamespace where
  parent : Option ℕ
  owner : UInt32
  uidMapFromParent : IdMapSet
  uidMapToParent : IdMapSet
  gidMapFromParent : IdMapSet
  gidMapToParent : IdMapSet
  deriving DecidableEq, Repr, Inhabited

namespace UserNamespace

def mapFromParent (ns : UserNamespace) : IdKind → IdMapSet
  | .uid => ns.uidMapFromParent
  | .gid => ns.gidMapFromParent

def mapToParent (ns : UserNamespace) : IdKind → IdMapSet
  | .uid => ns.uidMapToParent
  | .gid => ns.gidMapToParent

/-- Replace both maps of a kind. -/
def setMaps (ns : UserNamespace) : IdKind → IdMapSet → IdMapSet → UserNamespace
  | .uid, f, g => { ns with uidMapFromParent := f, uidMapToParent := g }
  | .gid, f, g => { ns with gidMapFromParent := f, gidMapToParent := g }

@[simp] theorem parent_setMaps (ns : UserNamespace) (k : IdKind) (f g : IdMapSet) :
    (ns.setMaps k f g).parent = ns.parent := by
  cases k <;> rfl

@[simp] theorem owner_setMaps (ns : UserNamespace) (k : IdKind) (f g : IdMapSet) :
    (ns.setMaps k f g).owner = ns.owner := by
  cases k <;> rfl

@[simp] theorem mapFromParent_setMaps (ns : UserNamespace) (k k' : IdKind) (f g : IdMapSet) :
    (ns.setMaps k f g).mapFromParent k' = if k' = k then f else ns.mapFromParent k' := by
  cases k <;> cases k' <;> rfl

@[simp] theorem mapToParent_setMaps (ns : UserNamespace) (k k' : IdKind) (f g : IdMapSet) :
    (ns.setMaps k f g).mapToParent k' = if k' = k then g else ns.mapToParent k' := by
  cases k <;> cases k' <;> rfl

@[simp] theorem default_parent : (default : UserNamespace).parent = none := rfl

@[simp] theorem default_mapFromParent (k : IdKind) : (default : UserNamespace).mapFromParent k = [] := by
  cases k <;> rfl

@[simp] theorem default_mapToParent (k : IdKind) : (default : UserNamespace).mapToParent k = [] := by
  cases k <;> rfl

theorem setMaps_self (ns : UserNamespace) (k : IdKind) :
    ns.setMaps k (ns.mapFromParent k) (ns.mapToParent k) = ns := by
  cases k <;> rfl

end UserNamespace

structure Credentials where
  userNamespace : ℕ
  effectiveKUID : UInt32
  effectiveKGID : UInt32
  effectiveCaps : UInt64
  deriving DecidableEq, Repr

/-- The effective ID of a kind: `EffectiveKUID` or `EffectiveKGID`. -/
def Credentials.effectiveKID (c : Credentials) : IdKind → UInt32
  | .uid => c.effectiveKUID
  | .gid => c.effectiveKGID

/-- `NewRootUserNamespace`: each of the four maps is the empty map after
`Add({0, MaxUint32}, 0)`, which succeeds (`add_rootRange`), so that the
panic on its failure is unreachable. -/
def newRootUserNamespace : UserNamespace :=
  let m := (IdMapSet.add [] ⟨0, 0xFFFFFFFF⟩ 0).getD []
  { parent := none, owner := 0, uidMapFromParent := m, uidMapToParent := m,
    gidMapFromParent := m, gidMapToParent := m }

theorem add_rootRange : IdMapSet.add [] ⟨0, 0xFFFFFFFF⟩ 0 = some [⟨⟨0, 0xFFFFFFFF⟩, 0⟩] := by
  decide

/-- A tree of user namespaces in an arena: every parent precedes its child. -/
structure Tree where
  nss : List UserNamespace
  parent_lt : ∀ {i p : ℕ}, (nss.getD i default).parent = some p → p < i

namespace Tree

def ns (t : Tree) (i : ℕ) : UserNamespace := t.nss.getD i default

def size (t : Tree) : ℕ := t.nss.length

theorem ext {t t' : Tree} (h : t.nss = t'.nss) : t = t' := by
  cases t
  cases t'
  cases h
  rfl

theorem lt_of_parent {t : Tree} {i p : ℕ} (h : (t.ns i).parent = some p) : p < i :=
  t.parent_lt h

theorem ns_of_size_le {t : Tree} {i : ℕ} (h : t.size ≤ i) : t.ns i = default := by
  simp only [ns, List.getD_eq_getElem?_getD, List.getElem?_eq_none h, Option.getD_none]

theorem lt_size_of_parent {t : Tree} {i p : ℕ} (h : (t.ns i).parent = some p) : i < t.size := by
  by_contra hle
  rw [ns_of_size_le (Nat.le_of_not_lt hle)] at h
  cases h

/-- The tree holding only `NewRootUserNamespace()`. -/
def root : Tree where
  nss := [newRootUserNamespace]
  parent_lt {i p} h := by
    cases i with
    | zero => cases h
    | succ i =>
      rw [List.getD_cons_succ, List.getD_nil, UserNamespace.default_parent] at h
      cases h

/-- A new namespace appended to the arena. -/
def push (t : Tree) (n : UserNamespace) (hn : ∀ p, n.parent = some p → p < t.size) : Tree where
  nss := t.nss ++ [n]
  parent_lt {i p} h := by
    rcases Nat.lt_trichotomy i t.nss.length with hi | rfl | hi
    · rw [List.getD_append _ _ _ _ hi] at h
      exact t.parent_lt h
    · rw [List.getD_append_right _ _ _ _ (Nat.le_refl _), Nat.sub_self, List.getD_cons_zero] at h
      exact hn p h
    · rw [List.getD_eq_default _ _ (by simp; omega), UserNamespace.default_parent] at h
      cases h

theorem ns_push (t : Tree) (n : UserNamespace) (hn) (i : ℕ) :
    (t.push n hn).ns i = if i < t.size then t.ns i else if i = t.size then n else default := by
  simp only [ns, push]
  split_ifs with h1 h2
  · exact List.getD_append _ _ _ _ h1
  · subst h2
    show (t.nss ++ [n]).getD t.nss.length default = n
    rw [List.getD_append_right _ _ _ _ (Nat.le_refl _), Nat.sub_self, List.getD_cons_zero]
  · simp only [size] at h1 h2
    exact List.getD_eq_default _ _ (by simp; omega)

/-- The maps of one kind of namespace `i` replaced. -/
def setMaps (t : Tree) (i : ℕ) (k : IdKind) (f g : IdMapSet) : Tree where
  nss := t.nss.set i ((t.ns i).setMaps k f g)
  parent_lt {j p} h := by
    rw [List.getD_set] at h
    split_ifs at h with hj
    · rw [UserNamespace.parent_setMaps] at h
      exact hj.1 ▸ t.parent_lt h
    · exact t.parent_lt h

theorem ns_setMaps (t : Tree) (i : ℕ) (k : IdKind) (f g : IdMapSet) (j : ℕ) (hi : i < t.size) :
    (t.setMaps i k f g).ns j = if j = i then (t.ns i).setMaps k f g else t.ns j := by
  simp only [ns, setMaps, List.getD_set]
  simp only [size] at hi
  simp only [hi, and_true]

theorem setMaps_of_eq (t : Tree) (i : ℕ) (k : IdKind) :
    t.setMaps i k ((t.ns i).mapFromParent k) ((t.ns i).mapToParent k) = t := by
  apply ext
  simp only [setMaps, UserNamespace.setMaps_self, ns]
  by_cases hi : i < t.nss.length
  · rw [List.getD_eq_getElem _ _ hi, List.set_getElem_self]
  · exact List.set_eq_of_length_le (by omega)

/-- `MapFromKUID` and `MapFromKGID`: from the root namespace into `ns`. -/
def mapFromK (t : Tree) (k : IdKind) (ns : ℕ) (kid : UInt32) : UInt32 :=
  match _h : (t.ns ns).parent with
  | none => kid
  | some p => mapID ((t.ns ns).mapFromParent k) (t.mapFromK k p kid)
termination_by ns
decreasing_by exact t.lt_of_parent _h

/-- `MapToKUID` and `MapToKGID`: from `ns` into the root namespace. -/
def mapToK (t : Tree) (k : IdKind) (ns : ℕ) (id : UInt32) : UInt32 :=
  match _h : (t.ns ns).parent with
  | none => id
  | some p => t.mapToK k p (mapID ((t.ns ns).mapToParent k) id)
termination_by ns
decreasing_by exact t.lt_of_parent _h

def mapFromKUID (t : Tree) (ns : ℕ) (kuid : UInt32) : UInt32 := t.mapFromK .uid ns kuid

def mapFromKGID (t : Tree) (ns : ℕ) (kgid : UInt32) : UInt32 := t.mapFromK .gid ns kgid

def mapToKUID (t : Tree) (ns : ℕ) (uid : UInt32) : UInt32 := t.mapToK .uid ns uid

def mapToKGID (t : Tree) (ns : ℕ) (gid : UInt32) : UInt32 := t.mapToK .gid ns gid

theorem mapFromK_of_none {t : Tree} {k : IdKind} {ns : ℕ} (h : (t.ns ns).parent = none)
    (kid : UInt32) : t.mapFromK k ns kid = kid := by
  rw [mapFromK]
  split <;> simp_all

theorem mapFromK_of_some {t : Tree} {k : IdKind} {ns p : ℕ} (h : (t.ns ns).parent = some p)
    (kid : UInt32) : t.mapFromK k ns kid = mapID ((t.ns ns).mapFromParent k) (t.mapFromK k p kid) := by
  rw [mapFromK]
  split <;> simp_all

theorem mapToK_of_none {t : Tree} {k : IdKind} {ns : ℕ} (h : (t.ns ns).parent = none)
    (id : UInt32) : t.mapToK k ns id = id := by
  rw [mapToK]
  split <;> simp_all

theorem mapToK_of_some {t : Tree} {k : IdKind} {ns p : ℕ} (h : (t.ns ns).parent = some p)
    (id : UInt32) : t.mapToK k ns id = t.mapToK k p (mapID ((t.ns ns).mapToParent k) id) := by
  rw [mapToK]
  split <;> simp_all

/-- `depth`: the number of namespaces from `ns` up to the root. -/
def depth (t : Tree) (ns : ℕ) : ℕ :=
  match h : (t.ns ns).parent with
  | none => 1
  | some p => t.depth p + 1
termination_by ns
decreasing_by exact t.lt_of_parent h

/-- `Credentials.HasCapabilityIn`. -/
def hasCapabilityIn (t : Tree) (c : Credentials) (cp : ℕ) (ns : ℕ) : Bool :=
  if c.userNamespace = ns then capabilitySetOf cp &&& c.effectiveCaps != 0
  else if (t.ns ns).parent = some c.userNamespace ∧ c.effectiveKUID = (t.ns ns).owner then true
  else
    match _h : (t.ns ns).parent with
    | none => false
    | some p => t.hasCapabilityIn c cp p
termination_by ns
decreasing_by exact t.lt_of_parent _h

/-- `Credentials.NewChildUserNamespace`, which returns the new namespace. -/
def newChildUserNamespace (t : Tree) (c : Credentials) (hc : c.userNamespace < t.size) :
    Except Errno (Tree × ℕ) :=
  if t.depth c.userNamespace ≥ maxUserNamespaceDepth then .error .EUSERS
  else if t.mapFromKUID c.userNamespace c.effectiveKUID = noID then .error .EPERM
  else if t.mapFromKGID c.userNamespace c.effectiveKGID = noID then .error .EPERM
  else
    let n : UserNamespace := ⟨some c.userNamespace, c.effectiveKUID, [], [], [], []⟩
    .ok (t.push n (fun p hp => by cases hp; exact hc), t.size)

end Tree

/-- One turn of the loop of `trySetUIDMap` and `trySetGIDMap`, on the pair
(from-parent map, to-parent map); `parentMap` is the parent's to-parent map. -/
def trySetIDMapEntry (parentMap : IdMapSet) (m : IdMapSet × IdMapSet) (e : IDMapEntry) :
    Except Errno (IdMapSet × IdMapSet) :=
  let lastID := e.firstID + e.length
  if lastID ≤ e.firstID then .error .EINVAL
  else
    let lastParentID := e.firstParentID + e.length
    if lastParentID ≤ e.firstParentID then .error .EINVAL
    else if !allIDsMapped parentMap e.firstParentID lastParentID then .error .EPERM
    else
      match m.1.add ⟨e.firstParentID, lastParentID⟩ e.firstID with
      | none => .error .EINVAL
      | some fromParent =>
        match m.2.add ⟨e.firstID, lastID⟩ e.firstParentID with
        | none => .error .EINVAL
        | some toParent => .ok (fromParent, toParent)

/-- `trySetUIDMap` and `trySetGIDMap`. -/
def trySetIDMap (parentMap : IdMapSet) (m : IdMapSet × IdMapSet) (entries : List IDMapEntry) :
    Except Errno (IdMapSet × IdMapSet) :=
  entries.foldlM (trySetIDMapEntry parentMap) m

namespace Tree

/-- The restrictions on a writer without the capability in the parent
namespace: a single entry of length one for its own effective ID, written by
the owner's UID (for the GID map too). -/
def unprivilegedOK (t : Tree) (k : IdKind) (p : ℕ) (n : UserNamespace) (c : Credentials) :
    List IDMapEntry → Bool
  | [e] => t.mapToK k p e.firstParentID == c.effectiveKID k && e.length == 1 &&
      c.effectiveKUID == n.owner
  | _ => false

/-- `SetUIDMap` and `SetGIDMap` on namespace `ns` by a caller with
credentials `c`: the tree after the call and the error returned. `none` is the
dereference of the nil `ns.parent` of a root namespace, which the first check
rules out for the namespaces of a tree. -/
def setIDMap (t : Tree) (k : IdKind) (ns : ℕ) (c : Credentials) (entries : List IDMapEntry) :
    Option (Tree × Option Errno) :=
  let n := t.ns ns
  if !(n.mapFromParent k).isEmpty then some (t, some .EPERM)
  else if entries.length = 0 then some (t, some .EINVAL)
  else if !t.hasCapabilityIn c k.capability ns then some (t, some .EPERM)
  else if c.userNamespace ≠ ns ∧ some c.userNamespace ≠ n.parent then some (t, some .EPERM)
  else
    match n.parent with
    | none => none
    | some p =>
      if !t.hasCapabilityIn c k.capability p && !t.unprivilegedOK k p n c entries then
        some (t, some .EPERM)
      else
        match trySetIDMap ((t.ns p).mapToParent k) (n.mapFromParent k, n.mapToParent k) entries with
        | .error err => some (t.setMaps ns k [] [], some err)
        | .ok (f, g) => some (t.setMaps ns k f g, none)

def setUIDMap (t : Tree) (ns : ℕ) (c : Credentials) (entries : List IDMapEntry) :
    Option (Tree × Option Errno) :=
  t.setIDMap .uid ns c entries

def setGIDMap (t : Tree) (ns : ℕ) (c : Credentials) (entries : List IDMapEntry) :
    Option (Tree × Option Errno) :=
  t.setIDMap .gid ns c entries

/-- `UIDMap` and `GIDMap`. -/
def idMap (t : Tree) (k : IdKind) (ns : ℕ) : List IDMapEntry := getIDMap ((t.ns ns).mapToParent k)

def uidMap (t : Tree) (ns : ℕ) : List IDMapEntry := t.idMap .uid ns

def gidMap (t : Tree) (ns : ℕ) : List IDMapEntry := t.idMap .gid ns

/-- One operation on the tree: a new child namespace, or a write of an ID map
(whatever it returns). -/
inductive Step : Tree → Tree → Prop
  | newChild {t t' : Tree} {c : Credentials} {i : ℕ} (hc : c.userNamespace < t.size)
      (h : t.newChildUserNamespace c hc = .ok (t', i)) : Step t t'
  | setIDMap {t t' : Tree} {k : IdKind} {ns : ℕ} {c : Credentials} {entries : List IDMapEntry}
      {err : Option Errno} (h : t.setIDMap k ns c entries = some (t', err)) : Step t t'

def Reachable : Tree → Prop := Transition.Reachable (· = root) Step

end Tree
end Auth
