import Mathlib.Data.List.AList

/-! `PortManager` (pkg/tcpip/ports/ports.go): the ports reserved by each
network and transport protocol, and for each the addresses bound to it with a
reference count. Go's maps are association lists with distinct keys. The
random starting offset of `PickEphemeralPort`, `rand.Int31n(count)`, is a
parameter, and its `testPort` callback is a function of a state it threads,
which for `ReservePort` is the port manager itself. -/

namespace Ports

/-- `FirstEphemeral`. -/
def firstEphemeral : UInt16 := 16000

/-- `count` in `PickEphemeralPort`: `uint16(math.MaxUint16 - FirstEphemeral + 1)`. -/
def count : UInt16 := 65535 - firstEphemeral + 1

/-- `tcpip.Address`, a string of bytes; `anyIPAddress` is the empty one. -/
abbrev Address := String

def anyIPAddress : Address := ""

/-- The `*tcpip.Error` values the port manager returns, and those of a callback. -/
inductive TcpipError where
  | noPortAvailable
  | portInUse
  | other (msg : String)
  deriving DecidableEq, Repr

structure PortDescriptor where
  network : UInt32
  transport : UInt32
  port : UInt16
  deriving DecidableEq, Repr

structure PortNode where
  reuse : Bool
  refs : Int
  deriving DecidableEq, Repr

/-- `bindAddresses`: the addresses bound to one port. -/
abbrev BindAddresses := AList fun _ : Address => PortNode

/-- `PortManager.allocatedPorts`. -/
abbrev PortManager := AList fun _ : PortDescriptor => BindAddresses

/-- `bindAddresses.isAvailable`. -/
def isAvailable (b : BindAddresses) (addr : Address) (reuse : Bool) : Bool :=
  if addr = anyIPAddress then
    if b.entries = [] then true
    else if !reuse then false
    else b.entries.all fun n => n.2.reuse
  else
    let specific : Bool :=
      match b.lookup addr with
      | some n => if !reuse then false else n.reuse
      | none => true
    -- an address bound to every address of the port
    match b.lookup anyIPAddress with
    | some n => if !reuse then false else if !n.reuse then false else specific
    | none => specific

/-- `isPortAvailableLocked`. -/
def isPortAvailableLocked (pm : PortManager) (networks : List UInt32) (transport : UInt32)
    (addr : Address) (port : UInt16) (reuse : Bool) : Bool :=
  networks.all fun network =>
    match pm.lookup ⟨network, transport, port⟩ with
    | some addrs => isAvailable addrs addr reuse
    | none => true

/-- One turn of `reserveSpecificPort`'s loop: one more reference to `addr` on
the port of `network`. -/
def reserveOn (transport : UInt32) (addr : Address) (port : UInt16) (reuse : Bool) (pm : PortManager)
    (network : UInt32) : PortManager :=
  let desc : PortDescriptor := ⟨network, transport, port⟩
  let m := (pm.lookup desc).getD ∅
  let m := match m.lookup addr with
    | some n => m.insert addr { n with refs := n.refs + 1 }
    | none => m.insert addr ⟨reuse, 1⟩
  pm.insert desc m

/-- `reserveSpecificPort`. -/
def reserveSpecificPort (pm : PortManager) (networks : List UInt32) (transport : UInt32)
    (addr : Address) (port : UInt16) (reuse : Bool) : Bool × PortManager :=
  if !isPortAvailableLocked pm networks transport addr port reuse then (false, pm)
  else (true, networks.foldl (reserveOn transport addr port reuse) pm)

/-- One turn of `ReleasePort`'s loop. -/
def releaseOn (transport : UInt32) (addr : Address) (port : UInt16) (pm : PortManager)
    (network : UInt32) : PortManager :=
  let desc : PortDescriptor := ⟨network, transport, port⟩
  match pm.lookup desc with
  | none => pm
  | some m =>
    match m.lookup addr with
    | none => pm
    | some n =>
      let n := { n with refs := n.refs - 1 }
      let m := if n.refs = 0 then m.erase addr else m.insert addr n
      if m.entries = [] then pm.erase desc else pm.insert desc m

/-- `ReleasePort`. -/
def releasePort (pm : PortManager) (networks : List UInt32) (transport : UInt32) (addr : Address)
    (port : UInt16) : PortManager :=
  networks.foldl (releaseOn transport addr port) pm

section Pick

variable {σ : Type}

/-- The loop of `PickEphemeralPort` from turn `i`, with `n` turns of fuel;
a count of `count` turns is all it takes. -/
def pickLoop (testPort : σ → UInt16 → (Bool × Option TcpipError) × σ) (offset : UInt16) :
    ℕ → UInt16 → σ → (UInt16 × Option TcpipError) × σ
  | 0, _, st => ((0, some .noPortAvailable), st)
  | n + 1, i, st =>
    if i < count then
      let port := firstEphemeral + (offset + i) % count
      match testPort st port with
      | ((_, some e), st) => ((0, some e), st)
      | ((ok, none), st) => if ok then ((port, none), st) else pickLoop testPort offset n (i + 1) st
    else ((0, some .noPortAvailable), st)

/-- `PickEphemeralPort` from the starting offset `offset`. -/
def pickEphemeralPort (testPort : σ → UInt16 → (Bool × Option TcpipError) × σ) (offset : UInt16)
    (st : σ) : (UInt16 × Option TcpipError) × σ :=
  pickLoop testPort offset count.toNat 0 st

end Pick

/-- `ReservePort`: a port of `0` asks for an ephemeral one. -/
def reservePort (pm : PortManager) (networks : List UInt32) (transport : UInt32) (addr : Address)
    (port : UInt16) (reuse : Bool) (offset : UInt16) : (UInt16 × Option TcpipError) × PortManager :=
  if port ≠ 0 then
    match reserveSpecificPort pm networks transport addr port reuse with
    | (false, pm) => ((0, some .portInUse), pm)
    | (true, pm) => ((port, none), pm)
  else
    pickEphemeralPort (fun pm p =>
      let (ok, pm) := reserveSpecificPort pm networks transport addr p reuse
      ((ok, none), pm)) offset pm

section PickSpec

variable {σ : Type} (testPort : σ → UInt16 → (Bool × Option TcpipError) × σ)

/-- The ports of a list tried in order, as the loop of `PickEphemeralPort`
tries its candidates: the first port the callback accepts, the first error,
or `ErrNoPortAvailable`. -/
def pickList : List UInt16 → σ → (UInt16 × Option TcpipError) × σ
  | [], st => ((0, some .noPortAvailable), st)
  | p :: ps, st =>
    match testPort st p with
    | ((_, some e), st) => ((0, some e), st)
    | ((ok, none), st) => if ok then ((p, none), st) else pickList ps st

/-- The port tried at turn `i`; `offset + i` is a `uint16` sum. -/
def candidate (offset i : UInt16) : UInt16 := firstEphemeral + (offset + i) % count

/-- The ports tried from turn `i` on, for `n` turns. -/
def candidates (offset i : UInt16) (n : ℕ) : List UInt16 :=
  (List.range n).map fun j => candidate offset (i + UInt16.ofNat j)

/-- The ports `PickEphemeralPort` tries, in order, until one is accepted. -/
def triedPorts (offset : UInt16) : List UInt16 := candidates offset 0 count.toNat

theorem candidates_succ (offset i : UInt16) (n : ℕ) :
    candidates offset i (n + 1) = candidate offset i :: candidates offset (i + 1) n := by
  simp only [candidates, List.range_succ_eq_map, List.map_cons, List.map_map]
  congr 1
  · simp
  · apply List.map_congr_left
    intro j _
    simp only [Function.comp_apply, Nat.succ_eq_add_one, UInt16.ofNat_add, UInt16.add_assoc, UInt16.add_comm 1]
    rfl

theorem pickLoop_eq_pickList (offset : UInt16) :
    ∀ (n : ℕ) (i : UInt16) (st : σ), i.toNat + n ≤ count.toNat →
      pickLoop testPort offset n i st = pickList testPort (candidates offset i n) st := by
  intro n
  induction n with
  | zero => intro i st _; rfl
  | succ n ih =>
    intro i st h
    have hi : i < count := UInt16.lt_iff_toNat_lt.2 (by omega)
    have hi1 : (i + 1).toNat = i.toNat + 1 := by
      rw [UInt16.toNat_add, UInt16.toNat_one]
      have : count.toNat = 49536 := by decide
      omega
    rw [pickLoop, if_pos hi, candidates_succ, pickList]
    change (match testPort st (candidate offset i) with
      | ((_, some e), st) => ((0, some e), st)
      | ((ok, none), st) => if ok then ((candidate offset i, none), st) else pickLoop testPort offset n (i + 1) st) = _
    rcases testPort st (candidate offset i) with ⟨⟨ok, _ | e⟩, st'⟩
    · cases ok
      · exact ih (i + 1) st' (by omega)
      · rfl
    · rfl

/-- `PickEphemeralPort` is `pickList` of its candidates, for every callback. -/
theorem pickEphemeralPort_eq_pickList (offset : UInt16) (st : σ) :
    pickEphemeralPort testPort offset st = pickList testPort (triedPorts offset) st :=
  pickLoop_eq_pickList testPort offset count.toNat 0 st (by simp)

/-- A callback that turns every port down, and leaves its state alone, makes
`pickList` fail. -/
theorem pickList_of_forall (st : σ) :
    ∀ ps : List UInt16, (∀ p ∈ ps, testPort st p = ((false, none), st)) →
      pickList testPort ps st = ((0, some .noPortAvailable), st) := by
  intro ps
  induction ps with
  | nil => intro _; rfl
  | cons p ps ih =>
    intro h
    rw [pickList, h p List.mem_cons_self]
    exact ih fun q hq => h q (List.mem_cons_of_mem p hq)

/-- A callback that never returns an error, and leaves its state alone when it
turns a port down: `pickList` returns a port it accepted with the state of
that call, or fails with the state unchanged. -/
theorem pickList_of_no_error (Q : UInt16 → σ → Prop) (st : σ)
    (h : ∀ p, testPort st p = ((false, none), st) ∨
      ∃ st', testPort st p = ((true, none), st') ∧ Q p st') :
    ∀ ps : List UInt16, pickList testPort ps st = ((0, some .noPortAvailable), st) ∨
      ∃ p st', pickList testPort ps st = ((p, none), st') ∧ Q p st' := by
  intro ps
  induction ps with
  | nil => exact .inl rfl
  | cons p ps ih =>
    rcases h p with hp | ⟨st', hp, hq⟩
    · rw [pickList, hp]
      exact ih
    · rw [pickList, hp]
      exact .inr ⟨p, st', rfl, hq⟩

end PickSpec

theorem toNat_candidate (offset : UInt16) (j : ℕ) :
    (candidate offset (UInt16.ofNat j)).toNat = 16000 + (offset.toNat + j % 65536) % 65536 % 49536 := by
  have hc : count.toNat = 49536 := by decide
  have hf : firstEphemeral.toNat = 16000 := by decide
  rw [candidate, UInt16.toNat_add, UInt16.toNat_mod, UInt16.toNat_add, hc, hf, UInt16.toNat_ofNat']
  omega

theorem mem_triedPorts {offset p : UInt16} :
    p ∈ triedPorts offset ↔ ∃ j < 49536, candidate offset (UInt16.ofNat j) = p := by
  have hc : count.toNat = 49536 := by decide
  simp [triedPorts, candidates, hc]

section Wrap

variable {offset : UInt16} (h1 : 16000 < offset.toNat) (h2 : offset.toNat < count.toNat)
include h1 h2

/-- Past an offset of 16000, `offset + i` wraps before the last turn, and
`FirstEphemeral + offset - 1` is never tried. -/
theorem not_mem_triedPorts : firstEphemeral + offset - 1 ∉ triedPorts offset := by
  have hc : count.toNat = 49536 := by decide
  intro hmem
  obtain ⟨j, hj, heq⟩ := mem_triedPorts.1 hmem
  have hp : (firstEphemeral + offset - 1).toNat = 16000 + offset.toNat - 1 := by
    have hf : firstEphemeral.toNat = 16000 := by decide
    rw [UInt16.toNat_sub, UInt16.toNat_add, hf, UInt16.toNat_one]
    omega
  have := congrArg UInt16.toNat heq
  rw [toNat_candidate, hp] at this
  omega

/-- Past an offset of 16000, port `FirstEphemeral` is tried twice: at the
turns where `offset + i` is `count` and where it wraps to 0. -/
theorem triedPorts_not_nodup : ¬ (triedPorts offset).Nodup := by
  have hc : count.toNat = 49536 := by decide
  intro hnd
  have hinj := List.inj_on_of_nodup_map hnd
  have hx : 49536 - offset.toNat ∈ List.range count.toNat := List.mem_range.2 (by omega)
  have hy : 65536 - offset.toNat ∈ List.range count.toNat := List.mem_range.2 (by omega)
  have heq : candidate offset (0 + UInt16.ofNat (49536 - offset.toNat)) =
      candidate offset (0 + UInt16.ofNat (65536 - offset.toNat)) := by
    rw [UInt16.zero_add, UInt16.zero_add]
    apply UInt16.toNat_inj.1
    rw [toNat_candidate, toNat_candidate]
    omega
  have := hinj hx hy heq
  omega

end Wrap

/-- For a starting offset past 16000, a callback that accepts only the port
`FirstEphemeral + offset - 1` gets `ErrNoPortAvailable`: that port is never
tried, although it is an ephemeral port. -/
theorem pickEphemeralPort_misses_port (offset : UInt16) (h1 : 16000 < offset.toNat)
    (h2 : offset.toNat < count.toNat) :
    pickEphemeralPort (fun (_ : Unit) p => ((p == firstEphemeral + offset - 1, none), ())) offset () =
      ((0, some .noPortAvailable), ()) := by
  rw [pickEphemeralPort_eq_pickList]
  apply pickList_of_forall
  intro p hp
  have hne : p ≠ firstEphemeral + offset - 1 := fun h => not_mem_triedPorts h1 h2 (h ▸ hp)
  simp [hne]

theorem pickEphemeralPort_misses_port_16001 :
    16000 < (16001 : UInt16).toNat ∧ (16001 : UInt16).toNat < count.toNat ∧
      pickEphemeralPort (fun (_ : Unit) p => ((p == firstEphemeral + 16001 - 1, none), ())) 16001 () =
        ((0, some .noPortAvailable), ()) :=
  ⟨by decide, by decide, pickEphemeralPort_misses_port 16001 (by decide) (by decide)⟩

end Ports
