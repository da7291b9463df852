import Mathlib
import Gvisor.Tcp.Receiver
import Gvisor.Lib.Reachable

/-! The window a TCP receiver offers (pkg/tcpip/transport/tcp/rcv.go).
`rcvAcc` is one beyond the last sequence number the peer may send; the window
is `rcvAcc - rcvNxt`. `getSendParams`, run for every segment the endpoint
sends, moves `rcvAcc` up to `rcvNxt` plus the free space of the receive
buffer, and `consumeSegment` moves it up to `rcvNxt` when a peer overran the
window.

The receive path of `Receiver.lean` leaves out the acknowledgements it sends.
Here it is parametrised by what a `sendAck` does to the receiver: with the
identity it is the path of `Receiver.lean` (`handleRcvdSegmentWith_id`), and
with `sendAck`, which runs `getSendParams`, it is the path of the source. A
FIN moves `rcvNxt` one past the clamp, which only the acknowledgement of the
FIN then covers.

The window stays under `2^31` when the free space does: a consumed segment
leaves it under `2^31` whatever it was, and `getSendParams` makes it the
larger of what it was and the free space. Counted without wrapping, from
`irs + 1`, the right edge of the window is the sequence numbers consumed plus
the window, and it never moves back (`Offered`, kept by every `Step`). With a
free space of `2^31` or more the window opens past `2^31`, and `rcvNxt` is no
longer at or before `rcvAcc` (`getSendParams_opens_past_half`). -/

namespace Tcp

open SeqNum

namespace Receiver

/-- `getSendParams`, with `avail` the free space of the receive buffer as a
`seqnum.Size` and the receiver's window scale: the acknowledgement number and
the window to announce, and the receiver after it. -/
def getSendParams (r : Receiver) (avail : Size) (rcvWndScale : UInt8) :
    (Value × Size) × Receiver :=
  let acc := r.rcvNxt.add avail
  let r := if r.rcvAcc.lessThan acc then { r with rcvAcc := acc } else r
  let r := { r with rcvWnd := r.rcvNxt.size r.rcvAcc }
  -- a Go shift by the width or more gives zero
  ((r.rcvNxt, if rcvWndScale < 32 then r.rcvWnd >>> rcvWndScale.toUInt32 else 0), r)

/-- What `sendAck` does to the receiver: the segment it sends carries the
parameters of `getSendParams`, and the scale changes only the value
returned. -/
def sendAck (r : Receiver) (avail : Size) : Receiver := (r.getSendParams avail 0).2

/-- `consumeSegment` with the acknowledgement `ack` it sends on a FIN, once
`rcvNxt` has moved past the FIN; the state changes and the flush that follow
it in the source touch nothing the acknowledgement reads. -/
def consumeSegmentWith (ack : Receiver → Receiver) (r : Receiver) (s : Segment) (segSeq : Value)
    (segLen : Size) (first : Bool) : Bool × Receiver × Segment :=
  let (ok, r, s) := r.consumeSegment s segSeq segLen first
  (ok, if ok && s.flagIsSet tcpFlagFin then ack r else r, s)

/-- `replayLoop` with the acknowledgements of `consumeSegmentWith`. -/
def replayLoopWith (ack : Receiver → Receiver) : ℕ → Receiver → Receiver
  | 0, r => r
  | fuel + 1, r =>
    if r.closed then r
    else
      match r.pendingRcvdSegments with
      | [] => r
      | s :: _ =>
        let segLen : Size := s.data.length.toUInt32
        let segSeq := s.sequenceNumber
        let (cont, r, s) :=
          if (segSeq.add (segLen - 1)).lessThan r.rcvNxt then (true, r, s)
          else consumeSegmentWith ack r s segSeq segLen true
        if !cont then r
        else
          match Heap.pop segmentLess r.pendingRcvdSegments with
          | none => r
          | some (_, h) =>
            replayLoopWith ack fuel
              { r with pendingRcvdSegments := h, pendingBufUsed := r.pendingBufUsed - s.logicalLen }

/-- `handleRcvdSegment` with the acknowledgements it sends: for a segment out
of the window, for one that cannot be consumed yet, and for a FIN. -/
def handleRcvdSegmentWith (ack : Receiver → Receiver) (r : Receiver) (s : Segment) : Receiver :=
  if r.closed then r
  else
    let segLen : Size := s.data.length.toUInt32
    let segSeq := s.sequenceNumber
    if !r.acceptable segSeq segLen then ack r
    else
      match consumeSegmentWith ack r s segSeq segLen false with
      | (false, r, _) =>
        if 0 < segLen || s.flagIsSet tcpFlagFin then
          ack (if r.pendingBufUsed < r.pendingBufSize then
            { r with
              pendingBufUsed := r.pendingBufUsed + s.logicalLen
              pendingRcvdSegments := Heap.push segmentLess r.pendingRcvdSegments s }
          else r)
        else r
      | (true, r, _) => replayLoopWith ack r.pendingRcvdSegments.length r

section Arith

variable (A N : Value)

/-- The clamp of `consumeSegment`: once `rcvNxt` has moved from `N` to `N'`
the window is under `2^31`, and when `rcvNxt` moved no further than a window
under `2^31` reached, the window has shrunk by as much as `rcvNxt` moved. -/
theorem clamp_window (N' : Value) :
    (N'.size (if A.lessThan N' then N' else A)).toNat < 2 ^ 31 ∧
      ((N.size A).toNat < 2 ^ 31 → (N.size N').toNat ≤ (N.size A).toNat →
        (N'.size (if A.lessThan N' then N' else A)).toNat =
          (N.size A).toNat - (N.size N').toNat) := by
  have hA := A.toNat_lt
  have hN := N.toNat_lt
  have hN' := N'.toNat_lt
  by_cases hl : A.lessThan N' = true
  · have h := (Value.lessThan_iff A N').1 hl
    rw [if_pos hl]
    simp only [Value.size, UInt32.toNat_sub] at h ⊢
    omega
  · have h : ¬(0 < (A.size N').toNat ∧ (A.size N').toNat ≤ 2 ^ 31) :=
      fun h => hl ((Value.lessThan_iff A N').2 h)
    rw [if_neg hl]
    simp only [Value.size, UInt32.toNat_sub] at h ⊢
    omega

/-- `getSendParams` once `rcvNxt` has moved `e ≤ 1` from `N`, where the window
was under `2^31`: a free space under `2^31` makes the window the larger of
the free space and what is left of the window. -/
theorem ack_window (N' : Value) (avail : Size) (e : ℕ) (he : e ≤ 1) (hN : N' = N + e.toUInt32)
    (hw : (N.size A).toNat < 2 ^ 31) (ha : avail.toNat < 2 ^ 31) :
    (N'.size (if A.lessThan (N'.add avail) then N'.add avail else A)).toNat =
      max ((N.size A).toNat - e) avail.toNat := by
  have hA := A.toNat_lt
  have hN0 := N.toNat_lt
  have he' : e.toUInt32.toNat = e := by
    simp only [Nat.toUInt32, UInt32.toNat_ofNat']
    omega
  by_cases hl : A.lessThan (N'.add avail) = true
  · have h := (Value.lessThan_iff A (N'.add avail)).1 hl
    rw [if_pos hl]
    simp only [hN, Value.size, Value.add, UInt32.toNat_sub, UInt32.toNat_add, he'] at h hw ⊢
    omega
  · have h : ¬(0 < (A.size (N'.add avail)).toNat ∧ (A.size (N'.add avail)).toNat ≤ 2 ^ 31) :=
      fun h => hl ((Value.lessThan_iff A (N'.add avail)).2 h)
    rw [if_neg hl]
    simp only [hN, Value.size, Value.add, UInt32.toNat_sub, UInt32.toNat_add, he'] at h hw ⊢
    omega

end Arith

theorem consumeSegmentWith_id : consumeSegmentWith id = consumeSegment := by
  funext r s segSeq segLen first
  simp only [consumeSegmentWith, id, ite_self]

theorem replayLoopWith_id : ∀ fuel : ℕ, replayLoopWith id fuel = replayLoop fuel
  | 0 => rfl
  | fuel + 1 => by
    funext r
    -- only the left side is unfolded, so that the sides are equal by unfolding
    -- `replayLoop` whether or not the two bodies share their match functions
    rw [replayLoopWith, consumeSegmentWith_id, replayLoopWith_id fuel]
    rfl

/-- Without acknowledgements the receive path is that of `Receiver.lean`. -/
theorem handleRcvdSegmentWith_id (r : Receiver) (s : Segment) :
    handleRcvdSegmentWith id r s = r.handleRcvdSegment s := by
  rw [handleRcvdSegmentWith, handleRcvdSegment, consumeSegmentWith_id]
  simp only [replayLoopWith_id, id]
  rcases r.consumeSegment s s.sequenceNumber s.data.length.toUInt32 false with
    ⟨_ | _, r', s'⟩
  · -- the segment waits when there is room, and the acknowledgement goes out either way
    by_cases hb : r'.pendingBufUsed < r'.pendingBufSize <;> simp [hb]
  · rfl

/-- The window offered, `rcvAcc - rcvNxt`. -/
def window (r : Receiver) : ℕ := (r.rcvNxt.size r.rcvAcc).toNat

/-- The sequence numbers consumed: the bytes handed to the readers, and the
FIN. -/
def consumed (r : Receiver) : ℕ := (r.ready.map List.length).sum + if r.closed then 1 else 0

/-- The right edge of the window, counted from `irs + 1` without wrapping. -/
def edge (r : Receiver) : ℕ := r.consumed + r.window

section GetSendParams

variable (r : Receiver) (avail : Size) (rcvWndScale : UInt8)

@[simp] theorem getSendParams_rcvNxt : (r.getSendParams avail rcvWndScale).2.rcvNxt = r.rcvNxt := by
  by_cases hl : r.rcvAcc.lessThan (r.rcvNxt.add avail) = true <;> simp [getSendParams, hl]

@[simp] theorem getSendParams_consumed :
    (r.getSendParams avail rcvWndScale).2.consumed = r.consumed := by
  by_cases hl : r.rcvAcc.lessThan (r.rcvNxt.add avail) = true <;> simp [getSendParams, hl, consumed]

@[simp] theorem getSendParams_pendingRcvdSegments :
    (r.getSendParams avail rcvWndScale).2.pendingRcvdSegments = r.pendingRcvdSegments := by
  by_cases hl : r.rcvAcc.lessThan (r.rcvNxt.add avail) = true <;> simp [getSendParams, hl]

theorem getSendParams_rcvAcc : (r.getSendParams avail rcvWndScale).2.rcvAcc =
    if r.rcvAcc.lessThan (r.rcvNxt.add avail) then r.rcvNxt.add avail else r.rcvAcc := by
  by_cases hl : r.rcvAcc.lessThan (r.rcvNxt.add avail) = true <;> simp [getSendParams, hl]

/-- `getSendParams` once `rcvNxt` has moved `e ≤ 1` past `N`, where the
window was under `2^31`: a free space under `2^31` makes the window the larger
of the free space and what is left of the window. -/
theorem getSendParams_window (N : Value) (e : ℕ) (he : e ≤ 1) (hN : r.rcvNxt = N + e.toUInt32)
    (hw : (N.size r.rcvAcc).toNat < 2 ^ 31) (ha : avail.toNat < 2 ^ 31) :
    (r.getSendParams avail rcvWndScale).2.window = max ((N.size r.rcvAcc).toNat - e) avail.toNat := by
  rw [window, getSendParams_rcvNxt, getSendParams_rcvAcc]
  exact ack_window r.rcvAcc N r.rcvNxt avail e he hN hw ha

end GetSendParams

theorem toNat_toUInt32 {n : ℕ} (h : n < 2 ^ 32) : n.toUInt32.toNat = n := by
  simp only [Nat.toUInt32, UInt32.toNat_ofNat']
  omega

theorem toUInt32_add (a b : ℕ) : (a + b).toUInt32 = a.toUInt32 + b.toUInt32 :=
  UInt32.ofNat_add a b

/-- The clamp does not move the right edge back: when `rcvNxt` moves `D` on,
the new window is at least what is left of the old one. -/
theorem clamp_edge (A N : Value) (D : ℕ) (hw : (N.size A).toNat < 2 ^ 31) :
    (N.size A).toNat ≤ D + ((N + D.toUInt32).size
      (if A.lessThan (N + D.toUInt32) then N + D.toUInt32 else A)).toNat := by
  by_cases hD : (N.size A).toNat ≤ D
  · omega
  · have hD' : D.toUInt32.toNat = D := toNat_toUInt32 (by omega)
    have hd : (N.size (N + D.toUInt32)).toNat = D := by
      have := N.toNat_lt
      simp only [Value.size, UInt32.toNat_sub, UInt32.toNat_add, hD']
      omega
    rw [(clamp_window A N (N + D.toUInt32)).2 hw (by omega), hd]
    omega

section ConsumeData

variable {r r₁ : Receiver} {s s₁ : Segment} {segSeq segSeq₁ : Value} {segLen segLen₁ : Size}

/-- `consumeData` hands data to the readers and touches nothing else. -/
theorem consumeData_some (h : r.consumeData s segSeq segLen = some (s₁, segSeq₁, segLen₁, r₁)) :
    r₁.rcvNxt = r.rcvNxt ∧ r₁.rcvAcc = r.rcvAcc ∧ r₁.closed = r.closed ∧
      r₁.pendingRcvdSegments = r.pendingRcvdSegments ∧ s₁.flags = s.flags := by
  unfold consumeData at h
  split_ifs at h <;> cases h <;> exact ⟨rfl, rfl, rfl, rfl, rfl⟩

/-- For a segment of at most `2^31` bytes, `consumeData` hands over the
bytes from `rcvNxt` on, and the segment then ends as many bytes past
`rcvNxt`. -/
theorem consumeData_counted (hs : s.data.length ≤ 2 ^ 31)
    (h : r.consumeData s s.sequenceNumber s.data.length.toUInt32 = some (s₁, segSeq₁, segLen₁, r₁)) :
    (r₁.ready.map List.length).sum = (r.ready.map List.length).sum + s₁.data.length ∧
      segSeq₁.add segLen₁ = r.rcvNxt + s₁.data.length.toUInt32 := by
  have hlen : s.data.length.toUInt32.toNat = s.data.length := toNat_toUInt32 (by omega)
  have hN := r.rcvNxt.toNat_lt
  have hS := s.sequenceNumber.toNat_lt
  have hw : r.rcvNxt.inWindow s.sequenceNumber s.data.length.toUInt32 = true →
      (r.rcvNxt - s.sequenceNumber).toNat < s.data.length := by
    intro h1
    simp only [Value.inWindow, Value.inRange, Value.add, decide_eq_true_eq,
      UInt32.lt_iff_toNat_lt, UInt32.toNat_sub, UInt32.toNat_add, hlen] at h1 ⊢
    omega
  unfold consumeData at h
  split_ifs at h with hpos hwin hlt hne
  · -- the segment starts before `rcvNxt` and is trimmed to start there
    have hd : (s.sequenceNumber.size r.rcvNxt).toNat < s.data.length := hw (by simpa using hwin)
    have hsz : (s.sequenceNumber.size r.rcvNxt).toNat =
        (2 ^ 32 - s.sequenceNumber.toNat + r.rcvNxt.toNat) % 2 ^ 32 := UInt32.toNat_sub _ _
    have hk : (s.data.length - (s.sequenceNumber.size r.rcvNxt).toNat).toUInt32.toNat =
        s.data.length - (s.sequenceNumber.size r.rcvNxt).toNat := toNat_toUInt32 (by omega)
    cases h
    refine ⟨by simp, ?_⟩
    apply UInt32.toNat_inj.1
    simp only [Value.add, UInt32.toNat_add, UInt32.toNat_sub, List.length_drop, hk, hlen]
    omega
  · -- a segment that holds `rcvNxt` and does not start before it starts there
    have hd := hw (by simpa using hwin)
    have h0 : (r.rcvNxt - s.sequenceNumber).toNat = 0 := by
      have hn := mt (Value.lessThan_iff s.sequenceNumber r.rcvNxt).2 hlt
      simp only [Value.size] at hn
      omega
    have heq : s.sequenceNumber = r.rcvNxt := by
      apply UInt32.toNat_inj.1
      rw [UInt32.toNat_sub] at h0
      omega
    simp only [Option.some.injEq, Prod.mk.injEq] at h
    obtain ⟨rfl, rfl, rfl, rfl⟩ := h
    simp [heq, Value.add]
  · -- an empty segment at `rcvNxt`
    have h0 : s.data.length = 0 := by
      rw [UInt32.lt_iff_toNat_lt, hlen] at hpos
      simp only [UInt32.toNat_zero] at hpos
      omega
    simp only [ne_eq, not_not] at hne
    simp only [Option.some.injEq, Prod.mk.injEq] at h
    obtain ⟨rfl, rfl, rfl, rfl⟩ := h
    simp [hne, h0, Value.add]

end ConsumeData

/-- What `consumeSegment` can do: nothing, or consume the data as
`consumeData` says, move `rcvNxt` to the end of the segment and `rcvAcc` with
it if the segment overran the window, and on a FIN move `rcvNxt` one further
and close, flushing pending segments. -/
theorem consumeSegment_cases (r : Receiver) (s : Segment) (segSeq : Value) (segLen : Size)
    (first : Bool) :
    r.consumeSegment s segSeq segLen first = (false, r, s) ∨
      ∃ s₁ segSeq₁ segLen₁ r₁, r.consumeData s segSeq segLen = some (s₁, segSeq₁, segLen₁, r₁) ∧
        (r.consumeSegment s segSeq segLen first).1 = true ∧
        (r.consumeSegment s segSeq segLen first).2.2 = s₁ ∧
        (r.consumeSegment s segSeq segLen first).2.1.rcvNxt =
          (if s₁.flagIsSet tcpFlagFin then segSeq₁.add segLen₁ + 1 else segSeq₁.add segLen₁) ∧
        (r.consumeSegment s segSeq segLen first).2.1.rcvAcc =
          (if r₁.rcvAcc.lessThan (segSeq₁.add segLen₁) then segSeq₁.add segLen₁ else r₁.rcvAcc) ∧
        (r.consumeSegment s segSeq segLen first).2.1.ready = r₁.ready ∧
        (r.consumeSegment s segSeq segLen first).2.1.closed =
          (r₁.closed || s₁.flagIsSet tcpFlagFin) ∧
        (r.consumeSegment s segSeq segLen first).2.1.pendingRcvdSegments.Sublist
          r₁.pendingRcvdSegments := by
  unfold consumeSegment
  rcases h : r.consumeData s segSeq segLen with _ | ⟨s₁, segSeq₁, segLen₁, r₁⟩
  · exact .inl rfl
  · right
    refine ⟨s₁, segSeq₁, segLen₁, r₁, rfl, ?_⟩
    by_cases hf : s₁.flagIsSet tcpFlagFin = true
    · simp only [hf, ↓reduceIte, Bool.or_true, true_and]
      exact List.take_sublist _ _
    · simp only [hf, Bool.false_eq_true, ↓reduceIte, Bool.or_false, true_and]
      exact List.Sublist.refl _

/-- The receiver counts what it has consumed: `rcvNxt` is `irs + 1` plus the
sequence numbers consumed, and no pending segment holds more than `2^31`
bytes. -/
structure Counted (irs : Value) (r : Receiver) : Prop where
  next : r.rcvNxt = irs + 1 + r.consumed.toUInt32
  short : ∀ p ∈ r.pendingRcvdSegments, p.data.length ≤ 2 ^ 31

/-- `ack` sends an acknowledgement, with a free space under `2^31` that may
depend on the receiver it is sent from. -/
def AckBounded (ack : Receiver → Receiver) : Prop :=
  ∀ r, ∃ avail : Size, avail.toNat < 2 ^ 31 ∧ ack r = r.sendAck avail

section Counted

variable {irs : Value} {r : Receiver} {avail : Size} {rcvWndScale : UInt8}

/-- Counted from `irs + 1`, `rcvAcc` is the right edge of the window. -/
theorem Counted.rcvAcc_eq (h : Counted irs r) : r.rcvAcc = irs + 1 + r.edge.toUInt32 := by
  have hn := congrArg UInt32.toNat h.next
  have := r.rcvAcc.toNat_lt
  have := r.rcvNxt.toNat_lt
  apply UInt32.toNat_inj.1
  simp only [edge, window, Value.size, UInt32.toNat_add, UInt32.toNat_sub, Nat.toUInt32,
    UInt32.toNat_ofNat', UInt32.toNat_one] at hn ⊢
  omega

theorem Counted.getSendParams (h : Counted irs r) :
    Counted irs (r.getSendParams avail rcvWndScale).2 where
  next := by simp only [getSendParams_rcvNxt, getSendParams_consumed, h.next]
  short := by simpa only [getSendParams_pendingRcvdSegments] using h.short

/-- `getSendParams` makes the window the larger of the window and the free
space. -/
theorem window_getSendParams (hw : r.window < 2 ^ 31) (ha : avail.toNat < 2 ^ 31) :
    (r.getSendParams avail rcvWndScale).2.window = max r.window avail.toNat := by
  have h := getSendParams_window r avail rcvWndScale r.rcvNxt 0 (Nat.zero_le 1) (by simp) hw ha
  rwa [Nat.sub_zero] at h

theorem edge_le_getSendParams (hw : r.window < 2 ^ 31) (ha : avail.toNat < 2 ^ 31) :
    r.edge ≤ (r.getSendParams avail rcvWndScale).2.edge := by
  rw [edge, edge, getSendParams_consumed, window_getSendParams hw ha]
  omega

end Counted

section Consume

variable {r : Receiver} {ack : Receiver → Receiver}

/-- A segment consumed with the acknowledgement of its FIN leaves the window
under `2^31`. -/
theorem consumeSegmentWith_window (hack : AckBounded ack) (s : Segment) (segSeq : Value)
    (segLen : Size) (first : Bool) (hw : r.window < 2 ^ 31) :
    (consumeSegmentWith ack r s segSeq segLen first).2.1.window < 2 ^ 31 := by
  rcases consumeSegment_cases r s segSeq segLen first with
    h | ⟨s₁, segSeq₁, segLen₁, r₁, -, hok, hs, hN, hA, -, -, -⟩
  · simpa [consumeSegmentWith, h] using hw
  have hc := (clamp_window r₁.rcvAcc r.rcvNxt (segSeq₁.add segLen₁)).1
  by_cases hf : s₁.flagIsSet tcpFlagFin = true
  · -- the FIN moves `rcvNxt` one past the clamp, and its acknowledgement
    -- restores the window
    obtain ⟨avail, ha, hsend⟩ := hack (r.consumeSegment s segSeq segLen first).2.1
    simp only [consumeSegmentWith, hok, hs, hf, Bool.and_self, ↓reduceIte, hsend]
    rw [sendAck, getSendParams_window _ avail 0 (segSeq₁.add segLen₁) 1 (Nat.le_refl 1)
      (by rw [hN, if_pos hf]; rfl) (by rw [hA]; exact hc) ha, hA]
    omega
  · simp only [consumeSegmentWith, hok, hs, hf, Bool.and_false, Bool.false_eq_true, ↓reduceIte]
    rw [window, hN, hA, if_neg hf]
    exact hc

/-- A consumed segment of at most `2^31` bytes keeps the count and does not
move the right edge back: the clamp leaves the window short by no more than
`rcvNxt` moved, and the acknowledgement of a FIN takes back the one it moved
past the clamp. -/
theorem consumeSegmentWith_counted {irs : Value} (hack : AckBounded ack) (s : Segment)
    (first : Bool) (hs : s.data.length ≤ 2 ^ 31) (hc : r.closed = false)
    (hw : r.window < 2 ^ 31) (hC : Counted irs r) :
    Counted irs (consumeSegmentWith ack r s s.sequenceNumber s.data.length.toUInt32 first).2.1 ∧
      r.edge ≤ (consumeSegmentWith ack r s s.sequenceNumber s.data.length.toUInt32 first).2.1.edge := by
  rcases consumeSegment_cases r s s.sequenceNumber s.data.length.toUInt32 first with
    h | ⟨s₁, segSeq₁, segLen₁, r₁, hd, hok, hs₁, hN, hA, hR, hcl, hP⟩
  · simp only [consumeSegmentWith, h, Bool.false_and, Bool.false_eq_true, ↓reduceIte]
    exact ⟨hC, Nat.le_refl _⟩
  obtain ⟨hn₁, ha₁, hc₁, hp₁, -⟩ := consumeData_some hd
  obtain ⟨hsum, hend⟩ := consumeData_counted hs hd
  set r₂ := (r.consumeSegment s s.sequenceNumber s.data.length.toUInt32 first).2.1 with hr₂
  set D := s₁.data.length
  have hshort : ∀ p ∈ r₂.pendingRcvdSegments, p.data.length ≤ 2 ^ 31 :=
    fun p hp => hC.short p (hp₁ ▸ hP.subset hp)
  have hcons : r₂.consumed = r.consumed + D + if s₁.flagIsSet tcpFlagFin then 1 else 0 := by
    simp only [consumed, hR, hcl, hc₁, hsum, hc, Bool.false_or, Bool.false_eq_true, ↓reduceIte]
    omega
  -- the window `rcvNxt` reaches at the end of the data, after the clamp
  have hedge : r.window ≤ D + _ := clamp_edge r.rcvAcc r.rcvNxt D hw
  have hclamp := (clamp_window r.rcvAcc r.rcvNxt (r.rcvNxt + D.toUInt32)).1
  rw [hend, ha₁] at hA
  by_cases hf : s₁.flagIsSet tcpFlagFin = true
  · -- the FIN is acknowledged
    rw [if_pos hf, hend] at hN
    rw [if_pos hf] at hcons
    obtain ⟨avail, ha, hsend⟩ := hack r₂
    have hwin := getSendParams_window r₂ avail 0 (r.rcvNxt + D.toUInt32) 1 (Nat.le_refl 1) hN
      (by rw [hA]; exact hclamp) ha
    rw [hA] at hwin
    simp only [consumeSegmentWith, hok, hs₁, hf, Bool.and_self, ↓reduceIte, ← hr₂, hsend]
    refine ⟨⟨?_, by simpa only [sendAck, getSendParams_pendingRcvdSegments] using hshort⟩, ?_⟩
    · rw [sendAck, getSendParams_rcvNxt, getSendParams_consumed, hN, hcons, hC.next,
        toUInt32_add, toUInt32_add]
      ac_rfl
    · rw [edge, edge, sendAck, getSendParams_consumed, hcons, hwin]
      omega
  · rw [if_neg hf, hend] at hN
    rw [if_neg hf] at hcons
    simp only [consumeSegmentWith, hok, hs₁, hf, Bool.and_false, Bool.false_eq_true, ↓reduceIte,
      ← hr₂]
    refine ⟨⟨?_, hshort⟩, ?_⟩
    · rw [hN, hcons, hC.next, Nat.add_zero, toUInt32_add]
      ac_rfl
    · have hw₂ : r₂.window = ((r.rcvNxt + D.toUInt32).size
          (if r.rcvAcc.lessThan (r.rcvNxt + D.toUInt32) then r.rcvNxt + D.toUInt32
            else r.rcvAcc)).toNat := by rw [window, hN, hA]
      rw [edge, edge, hcons, hw₂]
      omega

end Consume

section Loop

variable (ack : Receiver → Receiver) (I : Receiver → Prop)
variable (hcons : ∀ r s, I r → r.closed = false → s ∈ r.pendingRcvdSegments →
  I (consumeSegmentWith ack r s s.sequenceNumber s.data.length.toUInt32 true).2.1)
include hcons

/-- The receiver a turn of the replay loop goes on with keeps what every
consume of a pending segment keeps: it is the receiver the turn started from
when the head segment was acknowledged already. -/
theorem replay_turn {r r' : Receiver} {s s' : Segment} {tail : List Segment} {ok : Bool}
    (hr : I r) (hc : ¬r.closed = true) (hp : r.pendingRcvdSegments = s :: tail)
    (hq : (if (s.sequenceNumber.add (s.data.length.toUInt32 - 1)).lessThan r.rcvNxt then
        (true, r, s) else consumeSegmentWith ack r s s.sequenceNumber s.data.length.toUInt32 true) =
      (ok, r', s')) : I r' := by
  split_ifs at hq
  · cases hq
    exact hr
  · have h' : (consumeSegmentWith ack r s s.sequenceNumber s.data.length.toUInt32 true).2.1 = r' := by
      rw [hq]
    rw [← h']
    exact hcons r s hr (by simpa using hc) (by simp [hp])

/-- An invariant of the replay loop: one that every consume of a pending
segment and every pop keep. -/
theorem replayLoopWith_invariant
    (hpop : ∀ r x h u, I r → Heap.pop segmentLess r.pendingRcvdSegments = some (x, h) →
      I { r with pendingRcvdSegments := h, pendingBufUsed := u })
    (fuel : ℕ) (r : Receiver) (hr : I r) : I (replayLoopWith ack fuel r) := by
  -- one case per exit of a turn; only the last goes on, after a pop
  fun_induction replayLoopWith ack fuel r with
  | case1 r => exact hr
  | case2 fuel r hc => exact hr
  | case3 fuel r hc hp => exact hr
  | case4 fuel r hc s tail hp segLen segSeq ok r' s' hq hok =>
    exact replay_turn ack I hcons hr hc hp hq
  | case5 fuel r hc s tail hp segLen segSeq ok r' s' hq hok hnone =>
    exact replay_turn ack I hcons hr hc hp hq
  | case6 fuel r hc s tail hp segLen segSeq ok r' s' hq hok x h hsome ih =>
    exact ih (hpop _ _ _ _ (replay_turn ack I hcons hr hc hp hq) hsome)

/-- An invariant of `handleRcvdSegmentWith` for the segment `s`: one that the
acknowledgement, the first consume of `s`, the push of `s` and the replay loop
keep. -/
theorem handleRcvdSegmentWith_invariant (s : Segment) (hack : ∀ r, I r → I (ack r))
    (hfirst : ∀ r, I r → r.closed = false →
      I (consumeSegmentWith ack r s s.sequenceNumber s.data.length.toUInt32 false).2.1)
    (hpush : ∀ r u, I r →
      I { r with pendingBufUsed := u, pendingRcvdSegments := Heap.push segmentLess r.pendingRcvdSegments s })
    (hpop : ∀ r x h u, I r → Heap.pop segmentLess r.pendingRcvdSegments = some (x, h) →
      I { r with pendingRcvdSegments := h, pendingBufUsed := u })
    (r : Receiver) (hr : I r) : I (handleRcvdSegmentWith ack r s) := by
  unfold handleRcvdSegmentWith
  split
  · exact hr
  rename_i hc
  dsimp only
  split
  · exact hack r hr
  have h1 := hfirst r hr (by simpa using hc)
  rcases hq : consumeSegmentWith ack r s s.sequenceNumber s.data.length.toUInt32 false with
    ⟨_ | _, r', s'⟩ <;> rw [hq] at h1 <;> dsimp only
  · -- not consumed yet: pushed when there is room, and acknowledged
    split_ifs
    · exact hack _ (hpush r' _ h1)
    · exact hack r' h1
    · exact h1
  · exact replayLoopWith_invariant ack I hcons hpop _ r' h1

end Loop

/-- What the receive path keeps: a window under `2^31`, the count of what was
consumed, and a right edge at `e` or beyond. -/
structure Offered (irs : Value) (e : ℕ) (r : Receiver) : Prop where
  window_lt : r.window < 2 ^ 31
  counted : Counted irs r
  edge_ge : e ≤ r.edge

section Offered

variable {irs : Value} {e : ℕ} {r : Receiver} {ack : Receiver → Receiver}

theorem Offered.getSendParams (h : Offered irs e r) {avail : Size} (rcvWndScale : UInt8)
    (ha : avail.toNat < 2 ^ 31) : Offered irs e (r.getSendParams avail rcvWndScale).2 where
  window_lt := by
    rw [window_getSendParams h.window_lt ha]
    exact Nat.max_lt.2 ⟨h.window_lt, ha⟩
  counted := h.counted.getSendParams
  edge_ge := Nat.le_trans h.edge_ge (edge_le_getSendParams h.window_lt ha)

theorem Offered.acked (hack : AckBounded ack) (h : Offered irs e r) : Offered irs e (ack r) := by
  obtain ⟨avail, ha, hsend⟩ := hack r
  rw [hsend]
  exact h.getSendParams 0 ha

theorem Offered.consume (hack : AckBounded ack) (h : Offered irs e r) (s : Segment) (first : Bool)
    (hs : s.data.length ≤ 2 ^ 31) (hc : r.closed = false) :
    Offered irs e (consumeSegmentWith ack r s s.sequenceNumber s.data.length.toUInt32 first).2.1 :=
  have hC := consumeSegmentWith_counted hack s first hs hc h.window_lt h.counted
  ⟨consumeSegmentWith_window hack s _ _ first h.window_lt, hC.1, Nat.le_trans h.edge_ge hC.2⟩

/-- A segment of at most `2^31` bytes pushed to wait. -/
theorem Offered.push (h : Offered irs e r) {s : Segment} (hs : s.data.length ≤ 2 ^ 31) (u : Size) :
    Offered irs e { r with pendingBufUsed := u
                           pendingRcvdSegments := Heap.push segmentLess r.pendingRcvdSegments s } where
  window_lt := h.window_lt
  counted := by
    refine ⟨h.counted.next, fun p hp => ?_⟩
    rcases List.mem_append.1 ((Heap.push_perm _ _).subset hp) with hp | hp
    · exact h.counted.short p hp
    · rw [List.mem_singleton.1 hp]
      exact hs
  edge_ge := h.edge_ge

theorem Offered.pop (h : Offered irs e r) {x : Segment} {h' : List Segment}
    (hp : Heap.pop segmentLess r.pendingRcvdSegments = some (x, h')) (u : Size) :
    Offered irs e { r with pendingRcvdSegments := h', pendingBufUsed := u } where
  window_lt := h.window_lt
  counted := ⟨h.counted.next,
    fun p hm => h.counted.short p ((Heap.pop_perm hp).subset (List.mem_cons_of_mem x hm))⟩
  edge_ge := h.edge_ge

/-- A segment of at most `2^31` bytes handled as it arrives, with the
replay of the pending segments it lets through. -/
theorem Offered.handle (hack : AckBounded ack) (h : Offered irs e r) (s : Segment)
    (hs : s.data.length ≤ 2 ^ 31) : Offered irs e (handleRcvdSegmentWith ack r s) :=
  handleRcvdSegmentWith_invariant ack (Offered irs e)
    (fun _ p hr hc hp => hr.consume hack p true (hr.counted.short p hp) hc) s
    (fun _ hr => hr.acked hack) (fun _ hr hc => hr.consume hack s false hs hc)
    (fun _ u hr => hr.push hs u) (fun _ _ _ u hr hp => hr.pop hp u) r h

end Offered

/-- The calls that change the receiver, each acknowledgement with a free
space under `2^31` and each segment of at most `2^31` bytes: a segment handled
as it arrives, a segment consumed while the receiver is open, and the
parameters taken for a segment sent. -/
inductive Step : Receiver → Receiver → Prop
  | handle (r : Receiver) (s : Segment) (ack : Receiver → Receiver) (hack : AckBounded ack)
      (hs : s.data.length ≤ 2 ^ 31) : Step r (handleRcvdSegmentWith ack r s)
  | consume (r : Receiver) (s : Segment) (ack : Receiver → Receiver) (first : Bool)
      (hack : AckBounded ack) (hs : s.data.length ≤ 2 ^ 31) (hc : r.closed = false) :
      Step r (consumeSegmentWith ack r s s.sequenceNumber s.data.length.toUInt32 first).2.1
  | getSendParams (r : Receiver) (avail : Size) (rcvWndScale : UInt8)
      (ha : avail.toNat < 2 ^ 31) : Step r (r.getSendParams avail rcvWndScale).2

/-- The receivers reached from `newReceiver`. -/
def Reachable (irs : Value) (rcvWnd pendingBufSize : Size) : Receiver → Prop :=
  Transition.Reachable (· = newReceiver irs rcvWnd pendingBufSize) Step

theorem Offered.step {irs : Value} {e : ℕ} {r r' : Receiver} (h : Offered irs e r)
    (hst : Step r r') : Offered irs e r' := by
  cases hst with
  | handle s ack hack hs => exact h.handle hack s hs
  | consume s ack first hack hs hc => exact h.consume hack s first hs hc
  | getSendParams avail rcvWndScale ha => exact h.getSendParams rcvWndScale ha

theorem window_newReceiver (irs : Value) (rcvWnd pendingBufSize : Size) :
    (newReceiver irs rcvWnd pendingBufSize).window = rcvWnd.toNat := by
  have h : irs.add (rcvWnd + 1) - (irs + 1) = rcvWnd := by
    simp only [Value.add]
    grind
  simp only [window, newReceiver, Value.size, h]

/-- Every reachable receiver offers a window under `2^31` and counts what it
consumed, when the first window is under `2^31`. -/
theorem Reachable.offered {irs : Value} {rcvWnd pendingBufSize : Size}
    (hw : rcvWnd.toNat < 2 ^ 31) {r : Receiver} (h : Reachable irs rcvWnd pendingBufSize r) :
    Offered irs r.edge r := by
  refine Transition.Reachable.invariant (fun r => Offered irs r.edge r) ?_ ?_ h
  · rintro _ rfl
    refine ⟨by rw [window_newReceiver]; exact hw, ⟨?_, ?_⟩, Nat.le_refl _⟩
    · simp [newReceiver, consumed]
    · simp [newReceiver]
  · intro r r' hr hst
    have h' := hr.step hst
    exact ⟨h'.window_lt, h'.counted, Nat.le_refl _⟩

/-- With every acknowledgement's free space under `2^31`, every segment of at
most `2^31` bytes and a first window under `2^31`: in every reachable receiver
`rcvNxt` is at or before `rcvAcc`, the window `acceptable` tests against is
under `2^31`, `rcvNxt` and `rcvAcc` are `irs + 1` plus what was consumed and
plus the right edge, and no step moves that edge back. -/
theorem reachable_window_edge (irs : Value) (rcvWnd pendingBufSize : Size)
    (hw : rcvWnd.toNat < 2 ^ 31) (r : Receiver) (hr : Reachable irs rcvWnd pendingBufSize r) :
    r.rcvNxt.lessThanEq r.rcvAcc = true ∧ (r.rcvNxt.size r.rcvAcc).toNat < 2 ^ 31 ∧
      r.rcvNxt = irs + 1 + r.consumed.toUInt32 ∧ r.rcvAcc = irs + 1 + r.edge.toUInt32 ∧
      ∀ r', Step r r' → r.edge ≤ r'.edge := by
  have h := hr.offered hw
  refine ⟨(Value.lessThanEq_iff _ _).2 (Nat.le_of_lt h.window_lt), h.window_lt, h.counted.next,
    h.counted.rcvAcc_eq, fun r' hst => (h.step hst).edge_ge⟩

/-- A receiver with a window of 1000 bytes takes a 100-byte segment at its `rcvNxt`,
acknowledging with 1000 bytes free. -/
theorem reachable_window_edge_after_segment :
    (1000 : Size).toNat < 2 ^ 31 ∧
    (handleRcvdSegmentWith (·.sendAck 1000) (newReceiver 0 1000 0)
        ⟨1, List.replicate 100 5, 0x10⟩).rcvNxt.lessThanEq
      (handleRcvdSegmentWith (·.sendAck 1000) (newReceiver 0 1000 0)
        ⟨1, List.replicate 100 5, 0x10⟩).rcvAcc = true ∧
    ((handleRcvdSegmentWith (·.sendAck 1000) (newReceiver 0 1000 0)
        ⟨1, List.replicate 100 5, 0x10⟩).rcvNxt.size
      (handleRcvdSegmentWith (·.sendAck 1000) (newReceiver 0 1000 0)
        ⟨1, List.replicate 100 5, 0x10⟩).rcvAcc).toNat < 2 ^ 31 :=
  have hack : AckBounded (·.sendAck 1000) := fun _ => ⟨1000, by decide, rfl⟩
  have h := reachable_window_edge 0 1000 0 (by decide) _
    (Transition.Reachable.tail (Transition.Reachable.of_init rfl)
      (Step.handle _ ⟨1, List.replicate 100 5, 0x10⟩ _ hack (by decide)))
  ⟨by decide, h.1, h.2.1⟩

/-- A free space of more than `2^31` opens the window past `2^31`, after
which `rcvNxt` is no longer at or before `rcvAcc`. -/
theorem getSendParams_opens_past_half :
    ((newReceiver 0 1 0).getSendParams (2 ^ 31 + 1) 0).2.window = 2 ^ 31 + 1 ∧
      ((newReceiver 0 1 0).getSendParams (2 ^ 31 + 1) 0).2.rcvNxt.lessThanEq
        ((newReceiver 0 1 0).getSendParams (2 ^ 31 + 1) 0).2.rcvAcc = false := by
  decide

end Receiver

end Tcp
