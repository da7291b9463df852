import Mathlib
import Gvisor.Lib.List
import Gvisor.Tcp.Reno

/-! What the write list of the sender should hold: the application's bytes
from `sndUna` on, each segment at the sequence numbers of its bytes. The
operations that rework the list keep its bytes and keep `writeNext` on its
segment; but a segment can get a sequence number without being sent, and
`sendData` can then step over it. The payload size that splits the list is the
peer's MSS less the options, which nothing keeps positive. -/

namespace Tcp

open SeqNum

variable {T : Type}

/-- A segment carries, at each of its sequence numbers, the byte of the stream
at that offset from `iss + 1`. -/
def carriesStream (iss : Value) (stream : List UInt8) (seg : Segment) : Bool :=
  seg.data == (stream.drop (seg.sequenceNumber - (iss + 1)).toNat).take seg.data.length

namespace Sender

variable {s : Sender T} {i j : ℕ}

/-- `writeNext` stays on its segment when another is removed. -/
theorem getElem?_writeNext_removeSegment (hj : j ≠ s.writeNext) :
    (s.removeSegment j).writeList[(s.removeSegment j).writeNext]? = s.writeList[s.writeNext]? := by
  unfold removeSegment
  dsimp only
  split_ifs with h
  · rw [List.getElem?_eraseIdx_of_ge (by omega)]
    congr 1
    omega
  · rw [List.getElem?_eraseIdx_of_lt (by omega)]

/-- `writeNext` stays on its segment when another is split. -/
theorem getElem?_writeNext_splitSeg {size : Int} (hi : i ≠ s.writeNext) :
    (s.splitSeg i size).writeList[(s.splitSeg i size).writeNext]? = s.writeList[s.writeNext]? := by
  unfold splitSeg
  split
  · rfl
  · split_ifs with hle h
    · rfl
    · -- the clone goes in before `writeNext`, which moves up one
      dsimp only
      rw [List.getElem?_insertIdx_of_gt (by omega), Nat.add_sub_cancel, List.getElem?_set_ne hi]
    · dsimp only
      rw [List.getElem?_insertIdx_of_lt (by omega), List.getElem?_set_ne hi]

/-- Splitting a segment keeps the bytes of the write list, in order. -/
theorem flatMap_splitSeg (s : Sender T) (i : ℕ) (size : Int) :
    (s.splitSeg i size).writeList.flatMap Segment.data = s.writeList.flatMap Segment.data := by
  unfold splitSeg
  split
  · rfl
  · rename_i seg h
    by_cases hle : (seg.data.length : Int) ≤ size
    · rw [if_pos hle]
    · rw [if_neg hle]
      dsimp only
      rw [List.insertIdx_succ_set h]
      conv_rhs => rw [List.eq_take_cons_drop h]
      simp only [List.flatMap_append, List.flatMap_cons, ← List.append_assoc, List.take_append_drop]

theorem maxOptionSize_eq {options : List UInt8}
    (h : makeOptions s.sendTSOk s.sackPermitted 0 0 (List.replicate tcpMaxSACKBlocks ⟨0, 0⟩) = .ok options) :
    s.maxOptionSize = .ok options.length := by
  rw [maxOptionSize, h, Outcome.ok_bind]
  rfl

/-- `updateMaxPayloadSize` never raises the payload size: an MTU that leaves
room for the current one changes nothing. -/
theorem updateMaxPayloadSize_of_le [OrderedSet T SACKBlock] {mtu count now o : Int} (ho : s.maxOptionSize = .ok o)
    (hle : s.maxPayloadSize ≤ mtu - tcpMinimumSize - o) :
    s.updateMaxPayloadSize mtu count now = .ok s := by
  rw [updateMaxPayloadSize, ho, Outcome.ok_bind]
  exact if_pos hle

end Sender

/-- `newSender` takes the payload size to be the peer's MSS less the options'
size, with no lower bound, and `updateMaxPayloadSize` only ever lowers it: on
a route whose MTU leaves room for the MSS, the payload size stays
`mss - maxOptionSize`, zero or negative for an MSS no larger than the
options. -/
theorem newSender_maxPayloadSize [OrderedSet T SACKBlock] (sackPermitted sendTSOk delay cork gso : Bool) (gsoMaxSize : UInt32)
    (iss : Value) (sndWnd : Size) (mss : UInt16) (mtu now : Int) (options : List UInt8)
    (hopt : makeOptions sendTSOk sackPermitted 0 0 (List.replicate tcpMaxSACKBlocks ⟨0, 0⟩) = .ok options)
    (hmtu : (mss.toNat : Int) + tcpMinimumSize ≤ mtu) :
    ∃ s : Sender T,
      newSender sackPermitted sendTSOk delay cork gso gsoMaxSize iss sndWnd mss mtu now = .ok s ∧
      s.maxPayloadSize = mss.toNat - options.length := by
  rw [newSender, Sender.maxOptionSize_eq hopt, Outcome.ok_bind]
  dsimp only
  rw [Sender.updateMaxPayloadSize_of_le (Sender.maxOptionSize_eq hopt) (by dsimp only; omega),
    Outcome.ok_bind]
  exact ⟨_, rfl, rfl⟩

/-- An MSS of 12 with timestamps, whose option takes 12 bytes: the payload
size is 0, and a one-byte write is split at 0 over and over, which sends ten
empty segments, a congestion window of them, and leaves the byte unsent. -/
theorem newSender_maxPayloadSize_mss12 :
    (∃ s : Sender (List SACKBlock),
      newSender false true false false false 0 0 65535 12 1500 0 = .ok s ∧ s.maxPayloadSize = 0) ∧
      (fun s : Sender (List SACKBlock) => (s.sent.map fun seg => seg.data.length, s.writeList.getLast?.map Segment.data)) <$>
        (newSender false true false false false 0 0 65535 12 1500 0 >>= fun s =>
          s.run reno [.write [newOutgoingSegment [97]] 1]) = .ok (List.replicate 10 0, some [97]) := by
  refine ⟨?_, by decide⟩
  have h := @newSender_maxPayloadSize (List SACKBlock) _ false true false false false 0 0 65535 12 1500 0
    [1, 1, 8, 10, 0, 0, 0, 0, 0, 0, 0, 0] (by decide) (by decide)
  simpa using h

/-- A segment given its sequence number in a closed window is not sent, and a
SACK block whose end is a half-turn of sequence space past `sndNxt` passes the
in-flight check, since that end compares as before `sndNxt`. Once `sndNxt` has
moved on, the block covers the segment; `sendData` steps over it as SACKed and
gives the next write the same sequence number. After the timeout, which drops
the block, both are sent from sequence number 16: the four bytes `d` of the
last write where the stream has `c`. -/
theorem sendData_skips_unsent_segment :
    (fun s : Sender (List SACKBlock) => (s.writeList.map Segment.sequenceNumber,
        s.sent.filter fun seg => !carriesStream 0
          (List.replicate 10 97 ++ List.replicate 5 98 ++ List.replicate 7 99 ++ List.replicate 4 100) seg)) <$>
      (newSender true false false false false 0 0 65535 1460 1500 0 >>= fun s => s.run reno
        [.write [newOutgoingSegment (List.replicate 10 97)] 1,
         .rcvd ⟨⟨0, [], tcpFlagAck⟩, 1, 65535, [⟨2, 2 ^ 31 + 12⟩]⟩ 2,
         .write [newOutgoingSegment (List.replicate 5 98)] 3,
         .rcvd ⟨⟨0, [], tcpFlagAck⟩, 1, 0, []⟩ 4,
         .write [newOutgoingSegment (List.replicate 7 99)] 5,
         .write [newOutgoingSegment (List.replicate 4 100)] 6,
         .rcvd ⟨⟨0, [], tcpFlagAck⟩, 1, 65535, []⟩ 7,
         .timeout (2 * 10 ^ 9),
         .rcvd ⟨⟨0, [], tcpFlagAck⟩, 16, 65535, []⟩ (3 * 10 ^ 9)]) =
      .ok ([16, 16], [⟨16, [100, 100, 100, 100], tcpFlagAck ||| tcpFlagPsh⟩]) := by
  decide

end Tcp
