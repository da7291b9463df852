import Mathlib
import Gvisor.Fragmentation.Process
import Gvisor.Buffer.View

/-! The receive path of the IPv4 endpoint (pkg/tcpip/network/ipv4/ipv4.go,
pkg/tcpip/header/ipv4.go): `HandlePacket` checks the header of the first view
of a packet with `IsValid`, trims the packet to its payload, hands a fragment
to the endpoint's `Fragmentation`, and passes what is whole to `handleICMP`
or to the transport dispatcher, which are not modelled beyond what they are
given. A `VectorisedView` is its list of views, its size their total length;
the header fields are read from the first 20 bytes of the first view, which
`IsValid` checks are there. `hash.IPv4FragmentHash`, seeded at random, is a
parameter. -/

namespace Ipv4

open Fragmentation

def ipv4MinimumSize : ℕ := 20

def ipv4Version : Int := 4

/-- `IPv4FlagMoreFragments`. -/
def ipv4FlagMoreFragments : UInt8 := 1

/-- `header.ICMPv4ProtocolNumber`. -/
def icmpv4ProtocolNumber : UInt8 := 1

/-- `header.IPv4`: the bytes of a header. -/
abbrev IPv4 := List UInt8

/-- `binary.BigEndian.Uint16(b[i:])`. -/
def uint16At (b : IPv4) (i : ℕ) : UInt16 := (b.getD i 0).toUInt16 <<< 8 ||| (b.getD (i + 1) 0).toUInt16

/-- `IPVersion`. -/
def ipVersion (b : IPv4) : Int := if b.length < 1 then -1 else ((b.getD 0 0) >>> 4).toNat

/-- `HeaderLength`: `IHL * 4`. -/
def headerLength (b : IPv4) : UInt8 := (b.getD 0 0 &&& 0xf) * 4

def totalLength (b : IPv4) : UInt16 := uint16At b 2

def flags (b : IPv4) : UInt8 := (uint16At b 6 >>> 13).toUInt8

/-- `FragmentOffset`: the 13-bit field in units of 8 bytes, a `uint16` shift. -/
def fragmentOffset (b : IPv4) : UInt16 := uint16At b 6 <<< 3

def protocol (b : IPv4) : UInt8 := b.getD 9 0

/-- `IsValid`. -/
def isValid (b : IPv4) (pktSize : ℕ) : Bool :=
  if b.length < ipv4MinimumSize then false
  else
    let hlen := (headerLength b).toNat
    let tlen := (totalLength b).toNat
    if hlen > tlen || tlen > pktSize then false
    else ipVersion b == ipv4Version

/-- `buffer.VectorisedView`, by its views. -/
abbrev VectorisedView := List (List UInt8)

namespace VectorisedView

def size (vv : VectorisedView) : ℕ := (vv.map List.length).sum

/-- `First`: the first view, `nil` for none. -/
def first (vv : VectorisedView) : List UInt8 := vv.headD []

/-- `TrimFront`: drop `count` bytes, a whole view at a time while it fits. -/
def trimFront : ℕ → VectorisedView → VectorisedView
  | _, [] => []
  | count, v :: rest =>
    if count = 0 then v :: rest
    else if count < v.length then v.drop count :: rest
    else trimFront (count - v.length) rest

/-- The loop of `CapLength` over the views. -/
def capViews : ℕ → VectorisedView → VectorisedView
  | _, [] => []
  | length, v :: rest =>
    if v.length ≥ length then (if length = 0 then [] else [v.take length])
    else v :: capViews (length - v.length) rest

/-- `CapLength`: nothing happens to a view shorter than `length`. -/
def capLength (length : Int) (vv : VectorisedView) : VectorisedView :=
  let length := if length < 0 then 0 else length.toNat
  if vv.size < length then vv else capViews length vv

end VectorisedView

/-- Where `HandlePacket` sends a packet: nowhere, to the reassembler that
keeps it, or on with the header view and the payload it is given. -/
inductive Delivery where
  | dropped
  | reassembling
  | icmp (header : List UInt8) (payload : List UInt8)
  | transport (protocol : UInt8) (header : List UInt8) (payload : List UInt8)
  deriving DecidableEq, Repr

/-- The end of `HandlePacket`, once the payload is whole. `View.CapLength`
panics beyond the view, taken here as its capacity. -/
def deliver (headerView : List UInt8) (hlen : ℕ) (payload : List UInt8) : Outcome Unit Delivery :=
  let p := protocol headerView
  if p = icmpv4ProtocolNumber then
    if headerView.length < hlen then .panic else .ok (.icmp (headerView.take hlen) payload)
  else .ok (.transport p headerView payload)

/-- `HandlePacket`, with the endpoint's `Fragmentation` and the time of the
call. -/
def handlePacket (hash : IPv4 → UInt32) (f : Fragmentation) (vv : VectorisedView) (now : Int) :
    Outcome Unit (Delivery × Fragmentation) :=
  let headerView := vv.first
  let h := headerView
  if !isValid h vv.size then .ok (.dropped, f)
  else
    let hlen := (headerLength h).toNat
    let tlen := (totalLength h).toNat
    let vv := (vv.trimFront hlen).capLength ((tlen : Int) - hlen)
    let more := flags h &&& ipv4FlagMoreFragments != 0
    if more || fragmentOffset h != 0 then
      -- the last byte of the fragment, a `uint16` sum
      let last := fragmentOffset h + UInt16.ofNat vv.size - 1
      do
        let ((res, ready), f) ← f.process (hash h) (fragmentOffset h) last more vv.flatten now
        if !ready then pure (.reassembling, f)
        else
          let d ← deliver headerView hlen res
          pure (d, f)
    else do
      let d ← deliver headerView hlen vv.flatten
      pure (d, f)

namespace VectorisedView

theorem size_eq_length_flatten (vv : VectorisedView) : vv.size = vv.flatten.length := by
  rw [size, List.length_flatten]

theorem flatten_trimFront : ∀ (count : ℕ) (vv : VectorisedView), (vv.trimFront count).flatten = vv.flatten.drop count
  | _, [] => by simp [trimFront]
  | count, v :: rest => by
    rw [trimFront]
    split_ifs with h0 hlt
    · rw [h0, List.drop_zero]
    · rw [List.flatten_cons, List.flatten_cons, List.drop_append_of_le_length (Nat.le_of_lt hlt)]
    · rw [flatten_trimFront (count - v.length) rest, List.flatten_cons, List.drop_append,
        List.drop_eq_nil_of_le (show v.length ≤ count by omega), List.nil_append]

theorem flatten_capViews : ∀ (length : ℕ) (vv : VectorisedView), (capViews length vv).flatten = vv.flatten.take length
  | _, [] => by simp [capViews]
  | length, v :: rest => by
    rw [capViews, List.flatten_cons]
    split_ifs with hle h0
    · rw [h0, List.take_zero, List.flatten_nil]
    · rw [List.flatten_cons, List.flatten_nil, List.append_nil, List.take_append_of_le_length hle]
    · rw [List.flatten_cons, flatten_capViews (length - v.length) rest, List.take_append,
        List.take_of_length_le (show v.length ≤ length by omega)]

/-- `CapLength` keeps the first `length` bytes, all of them when there are fewer. -/
theorem flatten_capLength (length : Int) (vv : VectorisedView) :
    (vv.capLength length).flatten = vv.flatten.take length.toNat := by
  have hl : (if length < 0 then 0 else length.toNat) = length.toNat := by
    split_ifs with h
    · omega
    · rfl
  rw [capLength, hl]
  split_ifs with hsize
  · rw [List.take_of_length_le (by rw [← size_eq_length_flatten]; omega)]
  · exact flatten_capViews length.toNat vv

/-! This model keeps the views of a `buffer.VectorisedView` and computes its size from them.
`TrimFront` and `CapLength` of `Buffer.VectorisedView` act on the views as here. -/

theorem views_trimFront (views : List (List UInt8)) (size : ℤ) (count : ℕ) :
    (Buffer.VectorisedView.trimFront count ⟨views, size⟩).views = trimFront count views := by
  induction views generalizing count size with
  | nil =>
    rw [Buffer.VectorisedView.trimFront]
    split_ifs <;> rfl
  | cons v rest ih =>
    rw [trimFront]
    by_cases h0 : count = 0
    · rw [if_pos h0, h0, Buffer.VectorisedView.trimFront_of_nonpos (by simp)]
    rw [if_neg h0, Buffer.VectorisedView.trimFront_cons (by omega)]
    by_cases hlt : count < v.length
    · rw [if_pos (by exact_mod_cast hlt), if_pos hlt]
      rfl
    · rw [if_neg (by exact_mod_cast hlt), if_neg hlt, ← ih (size - v.length)]
      congr 2
      omega

theorem capViews_natCast (length : ℕ) (views : List (List UInt8)) :
    Buffer.VectorisedView.capViews length views = capViews length views := by
  induction views generalizing length with
  | nil => rfl
  | cons v rest ih =>
    rw [Buffer.VectorisedView.capViews, capViews]
    by_cases hle : v.length ≥ length
    · rw [if_pos (by exact_mod_cast hle), if_pos hle]
      by_cases h0 : length = 0
      · rw [if_pos (by exact_mod_cast h0), if_pos h0]
      · rw [if_neg (by exact_mod_cast h0), if_neg h0]
        rfl
    · rw [if_neg (by exact_mod_cast hle), if_neg hle, ← ih]
      congr 2
      omega

theorem views_capLength {vv : Buffer.VectorisedView} (h : vv.WellSized) (length : ℤ) :
    (vv.capLength length).views = capLength length vv.views := by
  have hsize : vv.size = (size vv.views : ℤ) := h
  have hl : (if length < 0 then 0 else length) = ((if length < 0 then 0 else length.toNat : ℕ) : ℤ) := by
    split_ifs <;> omega
  rw [Buffer.VectorisedView.capLength, capLength, hl, hsize]
  by_cases hlt : size vv.views < (if length < 0 then 0 else length.toNat)
  · rw [if_pos (by exact_mod_cast hlt), if_pos hlt]
  · rw [if_neg (by exact_mod_cast hlt), if_neg hlt, capViews_natCast]

end VectorisedView

/-- A valid packet that is not a fragment is handed on with bytes `[hlen,
tlen)` of the packet as its payload: its header view is the first view, the
bytes past the total length are cut, and nothing is checked of `hlen` beyond
`hlen ≤ tlen`. -/
theorem handlePacket_whole (hash : IPv4 → UInt32) (f : Fragmentation) (vv : VectorisedView) (now : Int)
    (hv : isValid vv.first vv.size = true)
    (hfrag : (flags vv.first &&& ipv4FlagMoreFragments != 0 || fragmentOffset vv.first != 0) = false) :
    (fun r => r.1) <$> handlePacket hash f vv now =
      deliver vv.first (headerLength vv.first).toNat
        ((vv.flatten.drop (headerLength vv.first).toNat).take
          ((totalLength vv.first).toNat - (headerLength vv.first).toNat)) := by
  have hpayload : ((vv.trimFront (headerLength vv.first).toNat).capLength
      ((totalLength vv.first).toNat - (headerLength vv.first).toNat : Int)).flatten =
      (vv.flatten.drop (headerLength vv.first).toNat).take
        ((totalLength vv.first).toNat - (headerLength vv.first).toNat) := by
    rw [VectorisedView.flatten_capLength, VectorisedView.flatten_trimFront]
    congr 1
    omega
  rw [handlePacket]
  simp only [hv, Bool.not_true, Bool.false_eq_true, if_false, hfrag, hpayload]
  cases deliver vv.first (headerLength vv.first).toNat _ <;> rfl

/-- Two packets that `IsValid` lets through. A header with IHL 0 goes to the
transport dispatcher with a header length of 0, so its payload starts with
the header. A last fragment at offset 65528 with 16 bytes, whose last byte
`65528 + 16 - 1` wraps to 7, deletes the first hole; a fragment with more
fragments to come at offset 0 and no payload, whose last byte `0 + 0 - 1`
wraps to 65535, deletes the other, and the reassembler finds the gap between
them and panics. -/
theorem handlePacket_passes_malformed :
    (fun r => r.1) <$> handlePacket (fun h => (uint16At h 4).toUInt32)
        (newFragmentation (4 * 2 ^ 20) (3 * 2 ^ 20) (30 * 10 ^ 9))
        [[0x40, 0, 0, 20, 0, 1, 0, 0, 64, 17, 0, 0, 10, 0, 0, 1, 10, 0, 0, 2]] 0 =
      .ok (.transport 17 [0x40, 0, 0, 20, 0, 1, 0, 0, 64, 17, 0, 0, 10, 0, 0, 1, 10, 0, 0, 2]
        [0x40, 0, 0, 20, 0, 1, 0, 0, 64, 17, 0, 0, 10, 0, 0, 1, 10, 0, 0, 2]) ∧
    (handlePacket (fun h => (uint16At h 4).toUInt32) (newFragmentation (4 * 2 ^ 20) (3 * 2 ^ 20) (30 * 10 ^ 9))
        [[0x45, 0, 0, 36, 0, 1, 0x1f, 0xff, 64, 17, 0, 0, 10, 0, 0, 1, 10, 0, 0, 2] ++ List.replicate 16 0] 0 >>=
      fun r => handlePacket (fun h => (uint16At h 4).toUInt32) r.2
        [[0x45, 0, 0, 20, 0, 1, 0x20, 0, 64, 17, 0, 0, 10, 0, 0, 1, 10, 0, 0, 2]] 0) = .panic := by
  refine ⟨by decide, ?_⟩
  -- the states hold functions, so `decide` runs on the outcome with its value forgotten
  exact (@Outcome.map_eq_panic _ _ _ (fun _ => ()) _).1 (by decide)

end Ipv4
