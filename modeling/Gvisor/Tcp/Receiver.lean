import Gvisor.Lib.Heap
import Gvisor.Tcp.SeqNum

/-! The receive side of a TCP endpoint (pkg/tcpip/transport/tcp/rcv.go): the
segments that arrive are accepted against the receive window, consumed when
they hold the next sequence number, and otherwise kept in `segmentHeap`, a
heap ordered by sequence number, and replayed after each segment that is
consumed. The data of a consumed segment is what `readyToRead` hands to the
endpoint's readers; the acknowledgements, the SACK blocks, the RTT estimate and
the endpoint state changes on a FIN are not modelled, as nothing here reads
them. A segment's in-place trim by `consumeSegment` is returned with the
result, since the replay loop then reads the trimmed length. -/

namespace Tcp

open SeqNum

def tcpFlagFin : UInt8 := 1
def tcpFlagSyn : UInt8 := 2
def tcpFlagAck : UInt8 := 16

/-- The fields of `segment` that the receiver reads. -/
structure Segment where
  sequenceNumber : Value
  data : List UInt8
  flags : UInt8
  deriving DecidableEq, Repr

namespace Segment

def flagIsSet (s : Segment) (flag : UInt8) : Bool := s.flags &&& flag != 0

def logicalLen (s : Segment) : Size :=
  s.data.length.toUInt32 + (if s.flagIsSet tcpFlagSyn then 1 else 0) +
    (if s.flagIsSet tcpFlagFin then 1 else 0)

end Segment

/-- `segmentHeap.Less`. -/
def segmentLess (a b : Segment) : Bool := a.sequenceNumber.lessThan b.sequenceNumber

/-- The fields of `receiver` that the receive path reads, and the data handed
to `ep.readyToRead`, in order. -/
structure Receiver where
  rcvNxt : Value
  rcvAcc : Value
  rcvWnd : Size
  closed : Bool
  pendingRcvdSegments : List Segment
  pendingBufUsed : Size
  pendingBufSize : Size
  ready : List (List UInt8)
  deriving DecidableEq, Repr

def newReceiver (irs : Value) (rcvWnd pendingBufSize : Size) : Receiver where
  rcvNxt := irs + 1
  rcvAcc := irs.add (rcvWnd + 1)
  rcvWnd := rcvWnd
  closed := false
  pendingRcvdSegments := []
  pendingBufUsed := 0
  pendingBufSize := pendingBufSize
  ready := []

namespace Receiver

def acceptable (r : Receiver) (segSeq : Value) (segLen : Size) : Bool :=
  let rcvWnd := r.rcvNxt.size r.rcvAcc
  if rcvWnd = 0 then segLen == 0 && segSeq == r.rcvNxt
  else segSeq.inWindow r.rcvNxt rcvWnd || overlap r.rcvNxt rcvWnd segSeq segLen

/-- The first part of `consumeSegment`: `none` where the segment does not
hold `rcvNxt`, else the segment trimmed to start there, and the receiver after
`readyToRead` of its data. -/
def consumeData (r : Receiver) (s : Segment) (segSeq : Value) (segLen : Size) :
    Option (Segment × Value × Size × Receiver) :=
  if 0 < segLen then
    if !r.rcvNxt.inWindow segSeq segLen then none
    else
      let (s, segSeq, segLen) :=
        if segSeq.lessThan r.rcvNxt then
          let diff := segSeq.size r.rcvNxt
          ({ s with sequenceNumber := s.sequenceNumber.add diff, data := s.data.drop diff.toNat },
            segSeq.add diff, segLen - diff)
        else (s, segSeq, segLen)
      some (s, segSeq, segLen, { r with ready := r.ready ++ [s.data] })
  else if segSeq ≠ r.rcvNxt then none
  else some (s, segSeq, segLen, r)

/-- `consumeSegment`: whether the segment was consumed, the receiver, and the
segment after its trim. `first` says that the segment is
`pendingRcvdSegments[0]`, which the flush on a FIN keeps. -/
def consumeSegment (r : Receiver) (s : Segment) (segSeq : Value) (segLen : Size) (first : Bool) :
    Bool × Receiver × Segment :=
  match consumeData r s segSeq segLen with
  | none => (false, r, s)
  | some (s, segSeq, segLen, r) =>
    let rcvNxt := segSeq.add segLen
    let r := { r with rcvNxt, rcvAcc := if r.rcvAcc.lessThan rcvNxt then rcvNxt else r.rcvAcc }
    if s.flagIsSet tcpFlagFin then
      (true, { r with
        rcvNxt := r.rcvNxt + 1
        closed := true
        pendingRcvdSegments := r.pendingRcvdSegments.take (if first then 1 else 0) }, s)
    else (true, r, s)

/-- The loop of `handleRcvdSegment` over the pending segments. Each turn that
goes on pops one, so as many turns as there are pending segments are all the
loop takes. -/
def replayLoop : ℕ → Receiver → Receiver
  | 0, r => r
  | fuel + 1, r =>
    if r.closed then r
    else
      match r.pendingRcvdSegments with
      | [] => r
      | s :: _ =>
        let segLen : Size := s.data.length.toUInt32
        let segSeq := s.sequenceNumber
        let (cont, r, s) :=
          if (segSeq.add (segLen - 1)).lessThan r.rcvNxt then (true, r, s)
          else consumeSegment r s segSeq segLen true
        if !cont then r
        else
          match Heap.pop segmentLess r.pendingRcvdSegments with
          | none => r
          | some (_, h) =>
            replayLoop fuel
              { r with pendingRcvdSegments := h, pendingBufUsed := r.pendingBufUsed - s.logicalLen }

def handleRcvdSegment (r : Receiver) (s : Segment) : Receiver :=
  if r.closed then r
  else
    let segLen : Size := s.data.length.toUInt32
    let segSeq := s.sequenceNumber
    if !r.acceptable segSeq segLen then r
    else
      match consumeSegment r s segSeq segLen false with
      | (false, r, _) =>
        if (0 < segLen || s.flagIsSet tcpFlagFin) && r.pendingBufUsed < r.pendingBufSize then
          { r with
            pendingBufUsed := r.pendingBufUsed + s.logicalLen
            pendingRcvdSegments := Heap.push segmentLess r.pendingRcvdSegments s }
        else r
      | (true, r, _) => replayLoop r.pendingRcvdSegments.length r

/-- A turn of the replay loop never consumes a pending segment without data,
such as a FIN that arrived out of order: it stops at the segment, or it pops
it and leaves `rcvNxt`, `closed` and the data handed to the readers as they
were. -/
theorem replayLoop_data_nil {r : Receiver} {s : Segment} {rest : List Segment} {fuel : ℕ}
    (hc : r.closed = false) (hs : r.pendingRcvdSegments = s :: rest) (hd : s.data = []) :
    replayLoop (fuel + 1) r = r ∨ ∃ x h, Heap.pop segmentLess (s :: rest) = some (x, h) ∧
      replayLoop (fuel + 1) r =
        replayLoop fuel { r with pendingRcvdSegments := h, pendingBufUsed := r.pendingBufUsed - s.logicalLen } := by
  rw [replayLoop, if_neg (by simp [hc]), hs]
  dsimp only
  rw [hd, List.length_nil, show (0 : ℕ).toUInt32 = 0 from rfl]
  by_cases hskip : (s.sequenceNumber.add (0 - 1)).lessThan r.rcvNxt = true
  · rw [if_pos hskip]
    right
    obtain ⟨⟨x, h⟩, hp⟩ :=
      Option.isSome_iff_exists.1 (@Heap.isSome_pop _ segmentLess _ (List.cons_ne_nil s rest))
    refine ⟨x, h, hp, ?_⟩
    simp only [Bool.not_true, Bool.false_eq_true, if_false, hs, hp]
  · rw [if_neg hskip]
    left
    have hne : s.sequenceNumber ≠ r.rcvNxt := fun h => by
      rw [h] at hskip
      exact hskip (Value.add_zero_sub_one_lessThan r.rcvNxt)
    simp [consumeSegment, consumeData, hne]

/-- A FIN without data that arrives before the last byte of the stream waits
in the heap; when that byte arrives, the replay loop takes the FIN for a
segment already acknowledged, since `segLen - 1` wraps to `2^32 - 1` and
`segSeq.Add(segLen - 1)` is `rcvNxt - 1`, and drops it unconsumed: the
receiver is left open, with nothing pending, as if no FIN had come. -/
theorem handleRcvdSegment_drops_early_fin :
    ((newReceiver 0 65535 65535).handleRcvdSegment ⟨2, [], tcpFlagFin ||| tcpFlagAck⟩
      |>.handleRcvdSegment ⟨1, [97], tcpFlagAck⟩) =
      { newReceiver 0 65535 65535 with rcvNxt := 2, ready := [[97]] } := by
  decide

/-- A segment that starts before `rcvNxt` and holds it is consumed trimmed
to start at `rcvNxt`: the segment handed back, whose length the replay loop
then takes off `pendingBufUsed`, has lost the bytes already received. -/
theorem consumeSegment_trims {r : Receiver} {s : Segment} {segSeq : Value} {segLen : Size} {first : Bool}
    (hlen : 0 < segLen) (hin : r.rcvNxt.inWindow segSeq segLen = true)
    (hlt : segSeq.lessThan r.rcvNxt = true) :
    (consumeSegment r s segSeq segLen first).1 = true ∧
      (consumeSegment r s segSeq segLen first).2.2.data = s.data.drop (segSeq.size r.rcvNxt).toNat := by
  unfold consumeSegment consumeData
  simp only [hlen, if_true, hin, Bool.not_true, Bool.false_eq_true, if_false, hlt]
  split_ifs <;> exact ⟨rfl, rfl⟩

/-- The stream `abcd`: `cd` at 3 arrives first and waits in the heap, counted
as 2 bytes; `abc` at 1 moves `rcvNxt` to 4, and the replay consumes the
waiting segment trimmed to `d` and takes 1 off the count. The heap is empty
and `pendingBufUsed` is 1. -/
theorem handleRcvdSegment_leaks_pendingBufUsed :
    ((newReceiver 0 65535 65535).handleRcvdSegment ⟨3, [99, 100], tcpFlagAck⟩
      |>.handleRcvdSegment ⟨1, [97, 98, 99], tcpFlagAck⟩) =
      { newReceiver 0 65535 65535 with rcvNxt := 5, pendingBufUsed := 1, ready := [[97, 98, 99], [100]] } := by
  decide

end Receiver

end Tcp
