import Mathlib
import Gvisor.Ports.PortManager
import Gvisor.Lib.Reachable

/-! The live reservations of a port manager. A run is any sequence of
`ReservePort` calls and of `ReleasePort` calls that each undo a live
reservation, with the same networks, transport, address and port; it is a
step relation on the port manager and the list of live reservations.

`isAvailable` is exact (`isAvailable_iff`): an address is free on a port when
every node it would share the port with (the same address, the any-address,
or any node at all for the any-address) was made with `reuse`, and so is the
request. Each reservation adds one reference to its address for each time its
networks list a network, and the invariant `Inv` says the port manager is
determined by its live reservations: a node exists exactly where they hold a
reference, its count is theirs, and its `reuse` is theirs. Two live
reservations that share a port and an address, or the any-address, both asked
for `reuse`. A reservation that lists a network twice holds two references on
it, so a node's count is the number of live reservations only when no list
repeats a network. -/

namespace Ports

/-- The node of `addr` on the port of `desc`. -/
def nodeOf (pm : PortManager) (desc : PortDescriptor) (addr : Address) : Option PortNode :=
  (pm.lookup desc).bind fun m => m.lookup addr

/-- A reservation made by a `ReservePort` that returned, live until the
`ReleasePort` that undoes it. -/
structure Reservation where
  networks : List UInt32
  transport : UInt32
  addr : Address
  port : UInt16
  reuse : Bool
  deriving DecidableEq, Repr

namespace Reservation

/-- The references a reservation holds on the port of `desc`: one for each
time its networks list that network. -/
def uses (r : Reservation) (desc : PortDescriptor) : ℕ :=
  if r.transport = desc.transport ∧ r.port = desc.port then r.networks.count desc.network else 0

/-- The references a reservation holds on `addr` at the port of `desc`. -/
def load (r : Reservation) (desc : PortDescriptor) (addr : Address) : ℕ :=
  if r.addr = addr then r.uses desc else 0

end Reservation

/-- The references the live reservations hold on `addr` at the port of
`desc`. -/
def refCount (L : List Reservation) (desc : PortDescriptor) (addr : Address) : ℕ :=
  (L.map fun r => r.load desc addr).sum

/-- Two reservations that share a port, where one's address is the other's or
the any-address, both asked for `reuse`. -/
def Compatible (r₁ r₂ : Reservation) : Prop :=
  ∀ desc, 0 < r₁.uses desc → 0 < r₂.uses desc →
    (r₁.addr = r₂.addr ∨ r₁.addr = anyIPAddress ∨ r₂.addr = anyIPAddress) →
    r₁.reuse = true ∧ r₂.reuse = true

/-- `k` more references on a node, made with `reuse` when it is new. -/
def addRefs (o : Option PortNode) (reuse : Bool) (k : ℕ) : Option PortNode :=
  if k = 0 then o
  else some (match o with
    | some n => { n with refs := n.refs + k }
    | none => ⟨reuse, k⟩)

/-- `k` fewer references on a node; a node left with none is deleted. -/
def dropRefs (o : Option PortNode) (k : ℕ) : Option PortNode :=
  if k = 0 then o
  else match o with
    | some n => if n.refs ≤ k then none else some { n with refs := n.refs - k }
    | none => none

variable {pm : PortManager} {L : List Reservation} {networks : List UInt32}
  {transport : UInt32} {addr x : Address} {port : UInt16} {reuse : Bool}
  {desc : PortDescriptor} {r : Reservation}

section Available

/-- For a specific address, `isAvailable` asks about the node of the address
and the node of the any-address. -/
theorem isAvailable_of_ne (b : BindAddresses) (ha : addr ≠ anyIPAddress) (reuse : Bool) :
    isAvailable b addr reuse = true ↔
      (∀ n, b.lookup anyIPAddress = some n → reuse = true ∧ n.reuse = true) ∧
      (∀ n, b.lookup addr = some n → reuse = true ∧ n.reuse = true) := by
  unfold isAvailable
  rw [if_neg ha]
  cases hany : b.lookup anyIPAddress <;> cases hx : b.lookup addr <;> cases reuse <;> simp

/-- For the any-address, `isAvailable` asks about every node. -/
theorem isAvailable_any (b : BindAddresses) (reuse : Bool) :
    isAvailable b anyIPAddress reuse = true ↔
      ∀ y n, b.lookup y = some n → reuse = true ∧ n.reuse = true := by
  unfold isAvailable
  rw [if_pos rfl]
  by_cases hb : b.entries = []
  · simp [hb, AList.lookup]
  · rw [if_neg hb]
    constructor
    · intro h y n hy
      cases reuse
      · simp at h
      · have hmem := AList.mem_lookup_iff.1 hy
        simp only [Bool.not_true, Bool.false_eq_true, ↓reduceIte, List.all_eq_true] at h
        exact ⟨rfl, h _ hmem⟩
    · intro h
      obtain ⟨⟨y, n⟩, hmem⟩ := List.exists_mem_of_ne_nil _ hb
      have hr := (h y n (AList.mem_lookup_iff.2 hmem)).1
      subst hr
      simp only [Bool.not_true, Bool.false_eq_true, ↓reduceIte, List.all_eq_true]
      exact fun s hs => (h s.1 s.2 (AList.mem_lookup_iff.2 hs)).2

/-- `isAvailable` exactly: every node the request would share the port with
was made with `reuse`, and so is the request. -/
theorem isAvailable_iff (b : BindAddresses) (addr : Address) (reuse : Bool) :
    isAvailable b addr reuse = true ↔
      ∀ y n, b.lookup y = some n → (y = addr ∨ y = anyIPAddress ∨ addr = anyIPAddress) →
        reuse = true ∧ n.reuse = true := by
  by_cases ha : addr = anyIPAddress
  · subst ha
    rw [isAvailable_any]
    exact ⟨fun h y n hy _ => h y n hy, fun h y n hy => h y n hy (.inr (.inr rfl))⟩
  · rw [isAvailable_of_ne b ha]
    constructor
    · rintro ⟨hany, hx⟩ y n hy (rfl | rfl | h)
      · exact hx n hy
      · exact hany n hy
      · exact absurd h ha
    · intro h
      exact ⟨fun n hn => h _ n hn (.inr (.inl rfl)), fun n hn => h _ n hn (.inl rfl)⟩

theorem isPortAvailableLocked_iff :
    isPortAvailableLocked pm networks transport addr port reuse = true ↔
      ∀ n ∈ networks, ∀ m, pm.lookup ⟨n, transport, port⟩ = some m →
        isAvailable m addr reuse = true := by
  unfold isPortAvailableLocked
  rw [List.all_eq_true]
  refine forall₂_congr fun n _ => ?_
  cases pm.lookup ⟨n, transport, port⟩ <;> simp

end Available

section Nodes

theorem addRefs_addRefs (o : Option PortNode) (reuse : Bool) (j k : ℕ) :
    addRefs (addRefs o reuse j) reuse k = addRefs o reuse (j + k) := by
  unfold addRefs
  rcases Nat.eq_zero_or_pos j with rfl | hj
  · simp
  rcases Nat.eq_zero_or_pos k with rfl | hk
  · simp
  cases o <;> simp [Nat.pos_iff_ne_zero.1 hj, Nat.pos_iff_ne_zero.1 hk, Int.add_assoc]

theorem dropRefs_dropRefs (o : Option PortNode) (j k : ℕ) :
    dropRefs (dropRefs o j) k = dropRefs o (j + k) := by
  unfold dropRefs
  rcases Nat.eq_zero_or_pos j with rfl | hj
  · simp
  rcases Nat.eq_zero_or_pos k with rfl | hk
  · simp
  rw [if_neg (Nat.pos_iff_ne_zero.1 hj), if_neg (Nat.pos_iff_ne_zero.1 hk), if_neg (by omega)]
  rcases o with _ | n
  · rfl
  · by_cases h₁ : n.refs ≤ j
    · simp only [if_pos h₁, if_pos (show n.refs ≤ ((j + k : ℕ) : ℤ) by push_cast; omega)]
    · simp only [if_neg h₁]
      by_cases h₂ : n.refs - j ≤ k
      · simp only [if_pos h₂, if_pos (show n.refs ≤ ((j + k : ℕ) : ℤ) by push_cast; omega)]
      · simp only [if_neg h₂, if_neg (show ¬ n.refs ≤ ((j + k : ℕ) : ℤ) by push_cast; omega)]
        push_cast
        congr 2
        omega

theorem map_refs_addRefs (o : Option PortNode) (reuse : Bool) (k : ℕ) :
    (addRefs o reuse k).map PortNode.refs =
      if k = 0 then o.map PortNode.refs else some (((o.map PortNode.refs).getD 0) + k) := by
  unfold addRefs
  split_ifs
  · rfl
  · cases o <;> simp

theorem map_refs_dropRefs (o : Option PortNode) (k : ℕ) :
    (dropRefs o k).map PortNode.refs =
      if k = 0 then o.map PortNode.refs
      else (o.map PortNode.refs).bind fun c => if c ≤ k then none else some (c - k) := by
  unfold dropRefs
  split_ifs
  · rfl
  · rcases o with _ | n
    · rfl
    · by_cases h : n.refs ≤ k <;> simp [h]

/-- A reserve or a release touches the node of its address on the ports of its
transport and port number. -/
def Touches (transport : UInt32) (addr : Address) (port : UInt16) (desc : PortDescriptor)
    (x : Address) : Prop :=
  desc.transport = transport ∧ desc.port = port ∧ x = addr

instance (transport : UInt32) (addr : Address) (port : UInt16) (desc : PortDescriptor)
    (x : Address) : Decidable (Touches transport addr port desc x) :=
  inferInstanceAs (Decidable (_ ∧ _ ∧ _))

theorem nodeOf_reserveOn (network : UInt32) (desc : PortDescriptor) (x : Address) :
    nodeOf (reserveOn transport addr port reuse pm network) desc x =
      if desc = ⟨network, transport, port⟩ ∧ x = addr then addRefs (nodeOf pm desc x) reuse 1
      else nodeOf pm desc x := by
  unfold reserveOn nodeOf
  dsimp only
  by_cases hd : desc = ⟨network, transport, port⟩
  · subst desc
    rw [AList.lookup_insert, Option.bind_some]
    -- the map of the port before the reservation, and the node of `x` in it
    cases hm : pm.lookup ⟨network, transport, port⟩ with
    | none =>
      by_cases hx : x = addr
      · subst x
        simp [addRefs, -AList.insert_empty]
      · simp [hx, AList.lookup_insert_ne hx, -AList.insert_empty]
    | some m =>
      simp only [Option.getD_some, Option.bind_some]
      by_cases hx : x = addr
      · subst x
        cases hn : m.lookup addr <;> simp [addRefs]
      · cases hn : m.lookup addr <;> simp [hx, AList.lookup_insert_ne hx]
  · rw [AList.lookup_insert_ne hd, if_neg (fun h => hd h.1)]

theorem nodeOf_foldl_reserveOn (networks : List UInt32) (pm : PortManager)
    (desc : PortDescriptor) (x : Address) :
    nodeOf (networks.foldl (reserveOn transport addr port reuse) pm) desc x =
      if Touches transport addr port desc x then
        addRefs (nodeOf pm desc x) reuse (networks.count desc.network)
      else nodeOf pm desc x := by
  induction networks generalizing pm with
  | nil => split_ifs <;> simp [addRefs]
  | cons n ns ih =>
    rw [List.foldl_cons, ih, nodeOf_reserveOn, List.count_cons]
    obtain ⟨network, t, p⟩ := desc
    by_cases ht : Touches transport addr port ⟨network, t, p⟩ x
    · obtain ⟨rfl, rfl, rfl⟩ := ht
      by_cases hn : n = network
      · subst hn
        simp [Touches, addRefs_addRefs, Nat.add_comm]
      · simp [Touches, Ne.symm hn, hn]
    · have : ¬ ((⟨network, t, p⟩ : PortDescriptor) = ⟨n, transport, port⟩ ∧ x = addr) := by
        rintro ⟨h, rfl⟩
        simp only [PortDescriptor.mk.injEq] at h
        exact ht ⟨h.2.1, h.2.2, rfl⟩
      simp only [if_neg ht, if_neg this]

/-- Every node holds a reference. -/
def PosRefs (pm : PortManager) : Prop := ∀ desc x n, nodeOf pm desc x = some n → 0 < n.refs

theorem nodeOf_releaseOn (hpos : PosRefs pm) (network : UInt32) (desc : PortDescriptor)
    (x : Address) :
    nodeOf (releaseOn transport addr port pm network) desc x =
      if desc = ⟨network, transport, port⟩ ∧ x = addr then dropRefs (nodeOf pm desc x) 1
      else nodeOf pm desc x := by
  unfold releaseOn
  dsimp only
  split
  · rename_i hm
    split_ifs with h
    · obtain ⟨rfl, rfl⟩ := h
      simp [nodeOf, hm, dropRefs]
    · rfl
  rename_i m hm
  split
  · rename_i hn
    split_ifs with h
    · obtain ⟨rfl, rfl⟩ := h
      simp [nodeOf, hm, hn, dropRefs]
    · rfl
  rename_i n hn
  have hpos' : 0 < n.refs := hpos ⟨network, transport, port⟩ addr n (by simp [nodeOf, hm, hn])
  -- the map of the port after the release, before it is stored or deleted
  set m' := if n.refs - 1 = 0 then m.erase addr else m.insert addr { n with refs := n.refs - 1 }
    with hm'
  have hlook : ∀ y, m'.lookup y = if y = addr then dropRefs (some n) 1 else m.lookup y := by
    intro y
    split_ifs with hy
    · subst y
      by_cases h1 : n.refs - 1 = 0
      · simp [hm', h1, dropRefs, show n.refs ≤ 1 by omega]
      · simp [hm', h1, dropRefs, show ¬ n.refs ≤ 1 by omega]
    · by_cases h1 : n.refs - 1 = 0
      · simp [hm', h1, AList.lookup_erase_ne hy]
      · simp [hm', h1, AList.lookup_insert_ne hy]
  by_cases hd : desc = ⟨network, transport, port⟩
  · subst desc
    have hstore : nodeOf (if m'.entries = [] then pm.erase ⟨network, transport, port⟩
        else pm.insert ⟨network, transport, port⟩ m') ⟨network, transport, port⟩ x = m'.lookup x := by
      split_ifs with he
      · have h0 : m'.lookup x = none := by
          unfold AList.lookup
          rw [he]
          rfl
        simp [nodeOf, AList.lookup_erase, h0]
      · simp [nodeOf, AList.lookup_insert]
    rw [hstore, hlook]
    by_cases hx : x = addr
    · subst x
      simp [nodeOf, hm, hn]
    · simp [nodeOf, hm, hx]
  · have hne : nodeOf (if m'.entries = [] then pm.erase ⟨network, transport, port⟩
        else pm.insert ⟨network, transport, port⟩ m') desc x = nodeOf pm desc x := by
      split_ifs
      · simp [nodeOf, AList.lookup_erase_ne hd]
      · simp [nodeOf, AList.lookup_insert_ne hd]
    simp [hne, hd]

theorem PosRefs.releaseOn (hpos : PosRefs pm) (network : UInt32) :
    PosRefs (releaseOn transport addr port pm network) := by
  intro desc x n hn
  rw [nodeOf_releaseOn hpos] at hn
  split_ifs at hn
  · cases ho : nodeOf pm desc x with
    | none => simp [ho, dropRefs] at hn
    | some n₀ =>
      simp only [ho, dropRefs, Nat.one_ne_zero, ↓reduceIte] at hn
      split_ifs at hn with h1
      cases hn
      simp only
      push_cast
      omega
  · exact hpos desc x n hn

theorem nodeOf_foldl_releaseOn (networks : List UInt32) (hpos : PosRefs pm)
    (desc : PortDescriptor) (x : Address) :
    nodeOf (networks.foldl (releaseOn transport addr port) pm) desc x =
      if Touches transport addr port desc x then
        dropRefs (nodeOf pm desc x) (networks.count desc.network)
      else nodeOf pm desc x := by
  induction networks generalizing pm with
  | nil => split_ifs <;> simp [dropRefs]
  | cons n ns ih =>
    rw [List.foldl_cons, ih (hpos.releaseOn n), nodeOf_releaseOn hpos, List.count_cons]
    obtain ⟨network, t, p⟩ := desc
    by_cases ht : Touches transport addr port ⟨network, t, p⟩ x
    · obtain ⟨rfl, rfl, rfl⟩ := ht
      by_cases hn : n = network
      · subst hn
        simp [Touches, dropRefs_dropRefs, Nat.add_comm]
      · simp [Touches, Ne.symm hn, hn]
    · have : ¬ ((⟨network, t, p⟩ : PortDescriptor) = ⟨n, transport, port⟩ ∧ x = addr) := by
        rintro ⟨h, rfl⟩
        simp only [PortDescriptor.mk.injEq] at h
        exact ht ⟨h.2.1, h.2.2, rfl⟩
      simp only [if_neg ht, if_neg this]

/-- No port keeps an empty map of addresses. -/
def NoEmpty (pm : PortManager) : Prop := ∀ desc m, pm.lookup desc = some m → m.entries ≠ []

theorem NoEmpty.reserveOn (h : NoEmpty pm) (network : UInt32) :
    NoEmpty (reserveOn transport addr port reuse pm network) := by
  intro desc m hm
  unfold Ports.reserveOn at hm
  by_cases hd : desc = ⟨network, transport, port⟩
  · subst hd
    rw [AList.lookup_insert] at hm
    cases hm
    split <;> simp [AList.entries_insert]
  · rw [AList.lookup_insert_ne hd] at hm
    exact h desc m hm

/-- Storing a map back, or deleting it when it is empty, keeps `NoEmpty`. -/
theorem NoEmpty.store (h : NoEmpty pm) (d : PortDescriptor) (m' : BindAddresses) :
    NoEmpty (if m'.entries = [] then pm.erase d else pm.insert d m') := by
  intro desc m hm
  split_ifs at hm with he
  · by_cases hd : desc = d
    · subst hd
      simp at hm
    · rw [AList.lookup_erase_ne hd] at hm
      exact h desc m hm
  · by_cases hd : desc = d
    · subst hd
      rw [AList.lookup_insert] at hm
      cases hm
      exact he
    · rw [AList.lookup_insert_ne hd] at hm
      exact h desc m hm

theorem NoEmpty.releaseOn (h : NoEmpty pm) (network : UInt32) :
    NoEmpty (releaseOn transport addr port pm network) := by
  intro desc m hm
  unfold Ports.releaseOn at hm
  dsimp only at hm
  split at hm
  · exact h desc m hm
  · split at hm
    · exact h desc m hm
    · exact h.store _ _ desc m hm

theorem NoEmpty.foldl_reserveOn (h : NoEmpty pm) (networks : List UInt32) :
    NoEmpty (networks.foldl (Ports.reserveOn transport addr port reuse) pm) := by
  induction networks generalizing pm with
  | nil => exact h
  | cons n ns ih => exact ih (h.reserveOn n)

theorem NoEmpty.foldl_releaseOn (h : NoEmpty pm) (networks : List UInt32) :
    NoEmpty (networks.foldl (Ports.releaseOn transport addr port) pm) := by
  induction networks generalizing pm with
  | nil => exact h
  | cons n ns ih => exact ih (h.releaseOn n)

end Nodes

section Counts

theorem Reservation.load_eq (r : Reservation) (desc : PortDescriptor) (x : Address) :
    r.load desc x =
      if Touches r.transport r.addr r.port desc x then r.networks.count desc.network else 0 := by
  unfold Reservation.load Reservation.uses
  by_cases hx : r.addr = x
  · by_cases ht : r.transport = desc.transport ∧ r.port = desc.port
    · have hT : Touches r.transport r.addr r.port desc x := ⟨ht.1.symm, ht.2.symm, hx.symm⟩
      rw [if_pos hx, if_pos ht, if_pos hT]
    · have hT : ¬ Touches r.transport r.addr r.port desc x :=
        fun h => ht ⟨h.1.symm, h.2.1.symm⟩
      rw [if_pos hx, if_neg ht, if_neg hT]
  · have hT : ¬ Touches r.transport r.addr r.port desc x := fun h => hx h.2.2.symm
    rw [if_neg hx, if_neg hT]

theorem refCount_append (L : List Reservation) (r : Reservation) (desc : PortDescriptor)
    (x : Address) : refCount (L ++ [r]) desc x = refCount L desc x + r.load desc x := by
  simp [refCount]

/-- Taking a live reservation away takes its references away. -/
theorem refCount_erase (hr : r ∈ L) (desc : PortDescriptor) (x : Address) :
    refCount L desc x = refCount (L.erase r) desc x + r.load desc x := by
  induction L with
  | nil => cases hr
  | cons r' L ih =>
    by_cases h : r' = r
    · subst h
      simp [refCount, List.erase_cons_head, Nat.add_comm]
    · rw [List.erase_cons_tail (by simpa using h)]
      have hr' : r ∈ L := (List.mem_cons.1 hr).resolve_left (Ne.symm h)
      simp only [refCount, List.map_cons, List.sum_cons] at ih ⊢
      rw [ih hr']
      omega

theorem load_le_refCount (hr : r ∈ L) (desc : PortDescriptor) (x : Address) :
    r.load desc x ≤ refCount L desc x := by
  rw [refCount_erase hr]
  omega

/-- When no reservation lists a network twice, each holds at most one
reference on a node, and the count is the number of live reservations. -/
theorem refCount_of_nodup (hnd : ∀ r ∈ L, r.networks.Nodup) (desc : PortDescriptor) (x : Address) :
    refCount L desc x = L.countP fun r => 0 < r.load desc x := by
  induction L with
  | nil => rfl
  | cons r L ih =>
    have hle : r.load desc x ≤ 1 := by
      rw [Reservation.load_eq]
      split_ifs
      · exact List.nodup_iff_count_le_one.1 (hnd r List.mem_cons_self) _
      · omega
    simp only [refCount, List.map_cons, List.sum_cons, List.countP_cons] at ih ⊢
    rw [ih fun r' hr' => hnd r' (List.mem_cons_of_mem _ hr')]
    by_cases h0 : 0 < r.load desc x
    · simp [h0]
      omega
    · simp [h0]
      omega

end Counts

/-- The port manager is what its live reservations make it: no empty map is
kept, a node exists exactly where they hold references and counts them, its
`reuse` is theirs, and any two of them that share a port can. -/
structure Inv (pm : PortManager) (L : List Reservation) : Prop where
  noEmpty : NoEmpty pm
  refs : ∀ desc x, (nodeOf pm desc x).map PortNode.refs =
    if refCount L desc x = 0 then none else some (refCount L desc x : ℤ)
  reuse : ∀ desc x n r, nodeOf pm desc x = some n → r ∈ L → 0 < r.load desc x →
    r.reuse = n.reuse
  compatible : L.Pairwise Compatible

namespace Inv

theorem init : Inv ∅ [] where
  noEmpty desc m hm := by simp at hm
  refs desc x := by simp [nodeOf, refCount]
  reuse desc x n r hn := by simp [nodeOf] at hn
  compatible := List.Pairwise.nil

theorem posRefs (h : Inv pm L) : PosRefs pm := by
  intro desc x n hn
  have := h.refs desc x
  rw [hn, Option.map_some] at this
  split_ifs at this with h0
  have := Option.some.inj this
  omega

theorem node_of_load (h : Inv pm L) (hr : r ∈ L) (hload : 0 < r.load desc x) :
    ∃ n, nodeOf pm desc x = some n := by
  have hpos := load_le_refCount hr desc x
  have := h.refs desc x
  rw [if_neg (by omega)] at this
  obtain ⟨n, hn, -⟩ := Option.map_eq_some_iff.1 this
  exact ⟨n, hn⟩

/-- The check of `ReservePort`, on a network it lists, against a node it
would share the port with. -/
theorem available_node (havail : isPortAvailableLocked pm networks transport addr port reuse = true)
    (hd : desc.transport = transport ∧ desc.port = port) (hn : desc.network ∈ networks)
    {y : Address} {n : PortNode} (hy : nodeOf pm desc y = some n)
    (hshare : y = addr ∨ y = anyIPAddress ∨ addr = anyIPAddress) :
    reuse = true ∧ n.reuse = true := by
  obtain ⟨m, hm, hmy⟩ := Option.bind_eq_some_iff.1 hy
  obtain ⟨network, t, p⟩ := desc
  obtain ⟨rfl, rfl⟩ := hd
  have := isPortAvailableLocked_iff.1 havail network hn m hm
  exact (isAvailable_iff m addr reuse).1 this y n hmy hshare

/-- A successful reservation keeps `Inv`, with one more live reservation. -/
theorem reserve (h : Inv pm L)
    (havail : isPortAvailableLocked pm networks transport addr port reuse = true) :
    Inv (networks.foldl (reserveOn transport addr port reuse) pm)
      (L ++ [⟨networks, transport, addr, port, reuse⟩]) where
  noEmpty := h.noEmpty.foldl_reserveOn networks
  refs desc x := by
    rw [nodeOf_foldl_reserveOn, refCount_append, Reservation.load_eq]
    dsimp only
    by_cases ht : Touches transport addr port desc x
    · rw [if_pos ht, if_pos ht, map_refs_addRefs, h.refs]
      by_cases hc : networks.count desc.network = 0
      · simp [hc]
      · by_cases h0 : refCount L desc x = 0
        · simp [hc, h0]
        · simp [hc, h0]
    · rw [if_neg ht, if_neg ht, h.refs]
      simp
  reuse desc x n r' hn hr' hload := by
    rw [nodeOf_foldl_reserveOn] at hn
    rcases List.mem_append.1 hr' with hr' | hr'
    · -- a reservation already live keeps the `reuse` of its node
      split_ifs at hn with ht
      · unfold addRefs at hn
        split_ifs at hn with hc
        · exact h.reuse desc x n r' hn hr' hload
        · cases ho : nodeOf pm desc x with
          | none =>
            obtain ⟨n₀, hn₀⟩ := h.node_of_load hr' hload
            rw [ho] at hn₀
            cases hn₀
          | some n₀ =>
            rw [ho] at hn
            cases hn
            exact h.reuse desc x n₀ r' ho hr' hload
      · exact h.reuse desc x n r' hn hr' hload
    · -- the new reservation joins a node only if both asked for reuse
      rw [List.mem_singleton] at hr'
      subst hr'
      rw [Reservation.load_eq] at hload
      dsimp only at hload
      split_ifs at hload hn with ht
      · have hc : networks.count desc.network ≠ 0 := by omega
        unfold addRefs at hn
        rw [if_neg hc] at hn
        cases ho : nodeOf pm desc x with
        | none =>
          rw [ho] at hn
          cases hn
          rfl
        | some n₀ =>
          rw [ho] at hn
          cases hn
          obtain ⟨hd₁, hd₂, rfl⟩ := ht
          obtain ⟨hr, hn₀⟩ := available_node havail ⟨hd₁, hd₂⟩
            (List.count_pos_iff.1 (Nat.pos_of_ne_zero hc)) ho (.inl rfl)
          simp [hr, hn₀]
      · omega
  compatible := by
    refine List.pairwise_append.2 ⟨h.compatible, List.pairwise_singleton _ _, ?_⟩
    rintro r' hr' _ hr
    rw [List.mem_singleton] at hr
    subst hr
    intro desc hu' hu hshare
    -- the new reservation shares the port of `desc` with a live one
    have hd : desc.transport = transport ∧ desc.port = port ∧ desc.network ∈ networks := by
      unfold Reservation.uses at hu
      split_ifs at hu with ht
      · exact ⟨ht.1.symm, ht.2.symm, List.count_pos_iff.1 hu⟩
      · omega
    have hload : 0 < r'.load desc r'.addr := by simpa [Reservation.load] using hu'
    obtain ⟨n₀, hn₀⟩ := h.node_of_load hr' hload
    obtain ⟨hr, hreuse⟩ := available_node havail ⟨hd.1, hd.2.1⟩ hd.2.2 hn₀
      (by simpa [eq_comm, or_comm, or_left_comm] using hshare)
    exact ⟨(h.reuse desc _ n₀ r' hn₀ hr' hload).trans hreuse, hr⟩

theorem dropRefs_eq_some {o : Option PortNode} {k : ℕ} {n : PortNode} (h : dropRefs o k = some n) :
    ∃ n₀, o = some n₀ ∧ n.reuse = n₀.reuse := by
  unfold dropRefs at h
  split_ifs at h
  · exact ⟨n, h, rfl⟩
  · rcases o with _ | n₀
    · cases h
    · refine ⟨n₀, rfl, ?_⟩
      dsimp only at h
      split_ifs at h
      cases h
      rfl

/-- Releasing a live reservation keeps `Inv`, without it. -/
theorem release (h : Inv pm L) (hr : r ∈ L) :
    Inv (releasePort pm r.networks r.transport r.addr r.port) (L.erase r) where
  noEmpty := h.noEmpty.foldl_releaseOn r.networks
  refs desc x := by
    have he := refCount_erase hr desc x
    rw [Reservation.load_eq] at he
    rw [releasePort, nodeOf_foldl_releaseOn _ h.posRefs]
    by_cases ht : Touches r.transport r.addr r.port desc x
    · rw [if_pos ht] at he ⊢
      rw [map_refs_dropRefs, h.refs, he]
      by_cases hc : r.networks.count desc.network = 0
      · simp [hc]
      · by_cases h0 : refCount (L.erase r) desc x = 0
        · simp [hc, h0]
        · -- the node keeps the references of the reservations left
          have hle : ¬ ((refCount (L.erase r) desc x + r.networks.count desc.network : ℕ) : ℤ) ≤
              (r.networks.count desc.network : ℤ) := by omega
          rw [if_neg hc, if_neg (by omega), Option.bind_some, if_neg hle, if_neg h0]
          congr 1
          omega
    · rw [if_neg ht] at he ⊢
      rw [h.refs, he]
      simp
  reuse desc x n r' hn hr' hload := by
    rw [releasePort, nodeOf_foldl_releaseOn _ h.posRefs] at hn
    split_ifs at hn
    · obtain ⟨n₀, hn₀, hreuse⟩ := dropRefs_eq_some hn
      rw [hreuse]
      exact h.reuse desc x n₀ r' hn₀ (List.mem_of_mem_erase hr') hload
    · exact h.reuse desc x n r' hn (List.mem_of_mem_erase hr') hload
  compatible := h.compatible.sublist List.erase_sublist

end Inv

section Reserve

/-- `reserveSpecificPort` reserves on every network when the check passes, and
changes nothing when it fails. -/
theorem reserveSpecificPort_cases (pm : PortManager) (networks : List UInt32)
    (transport : UInt32) (addr : Address) (port : UInt16) (reuse : Bool) :
    (isPortAvailableLocked pm networks transport addr port reuse = false ∧
        reserveSpecificPort pm networks transport addr port reuse = (false, pm)) ∨
      (isPortAvailableLocked pm networks transport addr port reuse = true ∧
        reserveSpecificPort pm networks transport addr port reuse =
          (true, networks.foldl (reserveOn transport addr port reuse) pm)) := by
  unfold reserveSpecificPort
  cases isPortAvailableLocked pm networks transport addr port reuse <;> simp

/-- `ReservePort` of a given port is `reserveSpecificPort` there. -/
theorem reservePort_of_ne_zero (hp : port ≠ 0) (offset : UInt16) :
    reservePort pm networks transport addr port reuse offset =
      if isPortAvailableLocked pm networks transport addr port reuse then
        ((port, none), networks.foldl (reserveOn transport addr port reuse) pm)
      else ((0, some .portInUse), pm) := by
  unfold reservePort
  rw [if_pos hp]
  rcases reserveSpecificPort_cases pm networks transport addr port reuse with ⟨hf, h⟩ | ⟨ht, h⟩
  · rw [h, hf]
    rfl
  · rw [h, ht]
    rfl

/-- Every `ReservePort`, of a given port or of an ephemeral one: it fails with
the manager unchanged, or returns a port at which the check passed and the
manager with the reservation made there. -/
theorem reservePort_cases (pm : PortManager) (networks : List UInt32) (transport : UInt32)
    (addr : Address) (port : UInt16) (reuse : Bool) (offset : UInt16) :
    (∃ e, reservePort pm networks transport addr port reuse offset = ((0, some e), pm)) ∨
      ∃ p, isPortAvailableLocked pm networks transport addr p reuse = true ∧
        reservePort pm networks transport addr port reuse offset =
          ((p, none), networks.foldl (reserveOn transport addr p reuse) pm) := by
  by_cases hp : port ≠ 0
  · rw [reservePort_of_ne_zero hp]
    cases havail : isPortAvailableLocked pm networks transport addr port reuse
    · exact .inl ⟨_, rfl⟩
    · exact .inr ⟨port, havail, rfl⟩
  · unfold reservePort
    rw [if_neg hp, pickEphemeralPort_eq_pickList]
    -- each port tried is turned down with the manager unchanged, or reserved
    have key := pickList_of_no_error
      (fun pm p => (((reserveSpecificPort pm networks transport addr p reuse).1, none),
        (reserveSpecificPort pm networks transport addr p reuse).2))
      (fun p pm' => isPortAvailableLocked pm networks transport addr p reuse = true ∧
        pm' = networks.foldl (reserveOn transport addr p reuse) pm) pm ?_ (triedPorts offset)
    · rcases key with h | ⟨p, pm', h, havail, rfl⟩
      · exact .inl ⟨_, h⟩
      · exact .inr ⟨p, havail, h⟩
    · intro p
      rcases reserveSpecificPort_cases pm networks transport addr p reuse with ⟨_, h⟩ | ⟨ht, h⟩
      · left
        rw [h]
      · right
        refine ⟨_, ?_, ht, rfl⟩
        rw [h]

/-- A successful `ReservePort` holds a node on every network it lists. -/
theorem isSome_nodeOf_foldl_reserveOn {network : UInt32} (hn : network ∈ networks) :
    (nodeOf (networks.foldl (reserveOn transport addr port reuse) pm)
      ⟨network, transport, port⟩ addr).isSome := by
  have ht : Touches transport addr port ⟨network, transport, port⟩ addr := ⟨rfl, rfl, rfl⟩
  have hc : networks.count network ≠ 0 := Nat.pos_iff_ne_zero.1 (List.count_pos_iff.2 hn)
  rw [nodeOf_foldl_reserveOn, if_pos ht]
  unfold addRefs
  rw [if_neg hc]
  rfl

/-- A `ReservePort` that returns an error leaves the manager as it was. -/
theorem reservePort_of_error (offset : UInt16)
    (he : (reservePort pm networks transport addr port reuse offset).1.2 ≠ none) :
    (reservePort pm networks transport addr port reuse offset).2 = pm := by
  rcases reservePort_cases pm networks transport addr port reuse offset with ⟨e, h⟩ | ⟨p, _, h⟩
  · rw [h]
  · rw [h] at he
    exact absurd rfl he

/-- The state after a `ReservePort` call that returned `res`: its reservation
is live when it returned no error. -/
def afterReserve (L : List Reservation) (networks : List UInt32) (transport : UInt32)
    (addr : Address) (reuse : Bool) (res : (UInt16 × Option TcpipError) × PortManager) :
    PortManager × List Reservation :=
  (res.2, if res.1.2.isNone then L ++ [⟨networks, transport, addr, res.1.1, reuse⟩] else L)

end Reserve

/-- One call on the port manager: any `ReservePort`, or the `ReleasePort` that
undoes a live reservation. -/
inductive Step : PortManager × List Reservation → PortManager × List Reservation → Prop where
  | reserve (pm : PortManager) (L : List Reservation) (networks : List UInt32)
      (transport : UInt32) (addr : Address) (port : UInt16) (reuse : Bool) (offset : UInt16) :
      Step (pm, L)
        (afterReserve L networks transport addr reuse
          (reservePort pm networks transport addr port reuse offset))
  | release (pm : PortManager) (L : List Reservation) (r : Reservation) (hr : r ∈ L) :
      Step (pm, L) (releasePort pm r.networks r.transport r.addr r.port, L.erase r)

/-- The port manager and its live reservations after any sequence of calls
from an empty manager. -/
def Reachable : PortManager × List Reservation → Prop :=
  Transition.Reachable (· = (∅, [])) Step

theorem Inv.step {s s' : PortManager × List Reservation} (h : Inv s.1 s.2) (hs : Step s s') :
    Inv s'.1 s'.2 := by
  cases hs with
  | reserve pm L networks transport addr port reuse offset =>
    rcases reservePort_cases pm networks transport addr port reuse offset with
      ⟨e, he⟩ | ⟨p, havail, hp⟩
    · -- a failed call: no reservation and no change
      rw [he]
      exact h
    · rw [hp]
      exact h.reserve havail
  | release pm L r hr => exact h.release hr

theorem Reachable.inv {s : PortManager × List Reservation} (h : Reachable s) : Inv s.1 s.2 :=
  Transition.Reachable.invariant (fun s : PortManager × List Reservation => Inv s.1 s.2)
    (by rintro _ rfl; exact Inv.init) (fun _ _ hs hstep => hs.step hstep) h

theorem Inv.node_refs (h : Inv pm L) {n : PortNode} (hn : nodeOf pm desc x = some n) :
    n.refs = refCount L desc x ∧ 1 ≤ n.refs := by
  have href := h.refs desc x
  rw [hn, Option.map_some] at href
  split_ifs at href with h0
  have := Option.some.inj href
  omega

theorem Inv.nodeOf_eq_none_iff (h : Inv pm L) : nodeOf pm desc x = none ↔ refCount L desc x = 0 := by
  have href := h.refs desc x
  constructor
  · intro hn
    rw [hn, Option.map_none] at href
    split_ifs at href with h0
    exact h0
  · intro h0
    rw [if_pos h0, Option.map_eq_none_iff] at href
    exact href

/-- The port manager of any run: its live reservations never conflict, no
empty map is kept, a node exists exactly where they hold references and counts
those references, and when no reservation lists a network twice the count is
the number of live reservations of the address. A `ReservePort` of a given
port succeeds exactly when the check passes on every network, and then
reserves on all of them; a `ReservePort` that fails changes nothing. -/
theorem reachable_reservations_compatible :
    (∀ pm L, Reachable (pm, L) →
      L.Pairwise Compatible ∧ NoEmpty pm ∧
      (∀ desc x, nodeOf pm desc x = none ↔ refCount L desc x = 0) ∧
      (∀ desc x n, nodeOf pm desc x = some n → n.refs = refCount L desc x ∧ 1 ≤ n.refs) ∧
      ((∀ r ∈ L, r.networks.Nodup) → ∀ desc x n, nodeOf pm desc x = some n →
        n.refs = L.countP fun r => 0 < r.load desc x)) ∧
    (∀ pm networks transport addr port reuse offset, port ≠ 0 →
      ((reservePort pm networks transport addr port reuse offset).1.2 = none ↔
        ∀ n ∈ networks, ∀ m, pm.lookup ⟨n, transport, port⟩ = some m →
          isAvailable m addr reuse = true) ∧
      ((reservePort pm networks transport addr port reuse offset).1.2 = none →
        (reservePort pm networks transport addr port reuse offset).1.1 = port ∧
        (reservePort pm networks transport addr port reuse offset).2 =
          networks.foldl (reserveOn transport addr port reuse) pm ∧
        ∀ n ∈ networks, (nodeOf (reservePort pm networks transport addr port reuse offset).2
          ⟨n, transport, port⟩ addr).isSome)) ∧
    (∀ pm networks transport addr port reuse offset,
      (reservePort pm networks transport addr port reuse offset).1.2 ≠ none →
        (reservePort pm networks transport addr port reuse offset).2 = pm) := by
  refine ⟨?_, ?_, fun pm networks transport addr port reuse offset he =>
    reservePort_of_error offset he⟩
  · intro pm L hr
    have h := Reachable.inv hr
    refine ⟨h.compatible, h.noEmpty, fun desc x => h.nodeOf_eq_none_iff,
      fun desc x n hn => h.node_refs hn, ?_⟩
    intro hnd desc x n hn
    rw [(h.node_refs hn).1, refCount_of_nodup hnd]
  · intro pm networks transport addr port reuse offset hp
    rw [reservePort_of_ne_zero hp, ← isPortAvailableLocked_iff]
    cases isPortAvailableLocked pm networks transport addr port reuse
    · simp
    · exact ⟨by simp, fun _ => ⟨rfl, rfl, fun n hn => isSome_nodeOf_foldl_reserveOn hn⟩⟩

/-- Port 80 of network 4 reserved for address "a", then for address "b". -/
theorem reachable_two_addresses :
    Reachable (afterReserve (afterReserve [] [4] 6 "a" false (reservePort ∅ [4] 6 "a" 80 false 0)).2
      [4] 6 "b" false (reservePort (reservePort ∅ [4] 6 "a" 80 false 0).2 [4] 6 "b" 80 false 0)) :=
  Transition.Reachable.tail
    (Transition.Reachable.tail (Transition.Reachable.of_init rfl)
      (Step.reserve ∅ [] [4] 6 "a" 80 false 0))
    (Step.reserve _ _ [4] 6 "b" 80 false 0)

/-- After the two reservations of `reachable_two_addresses`, the live reservations are
compatible, and a third one for "a" is refused exactly because the check fails. -/
theorem reachable_reservations_compatible_two_addresses :
    (afterReserve (afterReserve [] [4] 6 "a" false (reservePort ∅ [4] 6 "a" 80 false 0)).2
      [4] 6 "b" false (reservePort (reservePort ∅ [4] 6 "a" 80 false 0).2 [4] 6 "b" 80 false
        0)).2.Pairwise Compatible ∧
    (80 : UInt16) ≠ 0 ∧
    ((reservePort (reservePort (reservePort ∅ [4] 6 "a" 80 false 0).2 [4] 6 "b" 80 false 0).2
        [4] 6 "a" 80 false 0).1.2 = none ↔
      ∀ n ∈ [4], ∀ m, (reservePort (reservePort ∅ [4] 6 "a" 80 false 0).2 [4] 6 "b" 80 false
        0).2.lookup ⟨n, 6, 80⟩ = some m → isAvailable m "a" false = true) :=
  ⟨(reachable_reservations_compatible.1 _ _ reachable_two_addresses).1, by decide,
    (reachable_reservations_compatible.2.1 _ [4] 6 "a" 80 false 0 (by decide)).1⟩

/-- A `ReservePort` that lists network 4 twice is one live reservation, and
its node counts two references. -/
theorem reservePort_duplicate_network_holds_two_refs :
    Reachable (afterReserve [] [4, 4] 6 "a" false (reservePort ∅ [4, 4] 6 "a" 80 false 0)) ∧
      (afterReserve [] [4, 4] 6 "a" false (reservePort ∅ [4, 4] 6 "a" 80 false 0)).2 =
        [⟨[4, 4], 6, "a", 80, false⟩] ∧
      nodeOf (reservePort ∅ [4, 4] 6 "a" 80 false 0).2 ⟨4, 6, 80⟩ "a" = some ⟨false, 2⟩ :=
  ⟨Transition.Reachable.tail (Transition.Reachable.of_init rfl)
    (Step.reserve ∅ [] [4, 4] 6 "a" 80 false 0), by decide, by decide⟩

end Ports
