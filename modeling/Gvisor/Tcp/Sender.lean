import Mathlib
import Gvisor.Tcp.Receiver
import Gvisor.Tcp.Scoreboard

/-! The send side of a TCP endpoint (pkg/tcpip/transport/tcp/snd.go). The
application's writes wait in `writeList`, one segment per write and an empty
one for the FIN; a segment gets its sequence number and flags when it is
first sent (`isAssignedSequenceNumber`), is merged with the segments after it
or split to fit, is trimmed from the front as acknowledgements arrive, and is
sent again by the retransmit timer, by fast retransmit and by SACK recovery.

`writeNext` is a pointer into the list; here it is an index, the length of the
list standing for `nil`, and each insertion or removal before it moves it so
that it keeps pointing at the same segment. What `sendSegment` hands to the
wire is kept in `sent`. The time is the argument `now` (nanoseconds); the RTT
estimate, the timers, the keepalives, the timestamps and the endpoint's state
changes are not modelled, as nothing here reads them. The congestion control
algorithm is a parameter: its four hooks act on the sender, as they do in Go. -/

namespace Tcp

open SeqNum

def tcpFlagPsh : UInt8 := 8
def tcpMinimumSize : Int := 20
def tcpHeaderMaximumSize : UInt32 := 60
def initialCwnd : Int := 10

inductive CcState where
  | Open
  | RTORecovery
  | FastRecovery
  | SACKRecovery
  | Disorder
  deriving DecidableEq, Repr

structure FastRecovery where
  active : Bool
  first : Value
  last : Value
  maxCwnd : Int
  highRxt : Value
  rescueRxt : Value
  deriving DecidableEq, Repr

/-- The fields of `sender`, and of its endpoint, that the send path reads. -/
structure Sender (T : Type) where
  sackPermitted : Bool
  sendTSOk : Bool
  delay : Bool
  cork : Bool
  gso : Bool
  gsoMaxSize : UInt32
  scoreboard : SACKScoreboard T
  lastSendTime : Int
  dupAckCount : Int
  fr : FastRecovery
  sndCwnd : Int
  sndSsthresh : Int
  sndCAAckCount : Int
  outstanding : Int
  sndWnd : Size
  sndUna : Value
  sndNxt : Value
  writeNext : ℕ
  writeList : List Segment
  rto : Int
  maxPayloadSize : Int
  state : CcState
  sent : List Segment
  deriving DecidableEq, Repr

/-- The fields of an arriving segment that the sender reads; its window is
already scaled by `sndWndScale`. -/
structure AckSegment where
  segment : Segment
  ackNumber : Value
  window : Size
  sackBlocks : List SACKBlock
  deriving DecidableEq, Repr

/-- `congestionControl`. -/
structure CongestionControl (T : Type) where
  handleNDupAcks : Sender T → Sender T
  handleRTOExpired : Sender T → Sender T
  update : Int → Sender T → Sender T
  postRecovery : Sender T → Sender T

variable {T : Type} [OrderedSet T SACKBlock]

def isAssignedSequenceNumber (seg : Segment) : Bool := seg.flags != 0

/-- `segment.sackBlock`. -/
def sackBlock (seg : Segment) : SACKBlock := ⟨seg.sequenceNumber, seg.sequenceNumber.add seg.logicalLen⟩

namespace Sender

/-- `endpoint.maxOptionSize`: the length of the options with every SACK block. -/
def maxOptionSize (s : Sender T) : Outcome Unit Int := do
  let options ← makeOptions s.sendTSOk s.sackPermitted 0 0 (List.replicate tcpMaxSACKBlocks ⟨0, 0⟩)
  pure options.length

/-- `writeList.Remove` of the segment at index `j`. -/
def removeSegment (s : Sender T) (j : ℕ) : Sender T :=
  { s with
    writeList := s.writeList.eraseIdx j
    writeNext := if j < s.writeNext then s.writeNext - 1 else s.writeNext }

/-- `pCount`: the packets of a segment; Go's `/` truncates, and panics on a
zero divisor. -/
def pCount (s : Sender T) (seg : Segment) : Outcome Unit Int :=
  let size : Int := seg.data.length
  if size = 0 then .ok 1
  else if s.maxPayloadSize = 0 then .panic
  else .ok ((size - 1).tdiv s.maxPayloadSize + 1)

/-- `splitSeg` of the segment at index `i`: its data past `size` goes to a
clone inserted after it. `TrimFront` of a negative count does nothing,
`CapLength` of a negative length empties, and `seqnum.Size(size)` wraps. -/
def splitSeg (s : Sender T) (i : ℕ) (size : Int) : Sender T :=
  match s.writeList[i]? with
  | none => s
  | some seg =>
    if (seg.data.length : Int) ≤ size then s
    else
      let nSeg := { seg with
        data := seg.data.drop size.toNat
        sequenceNumber := seg.sequenceNumber.add (UInt32.ofInt size) }
      let seg := { seg with data := seg.data.take size.toNat }
      { s with
        writeList := (s.writeList.set i seg).insertIdx (i + 1) nSeg
        writeNext := if i < s.writeNext then s.writeNext + 1 else s.writeNext }

/-- `sendSegment`. -/
def sendSegment (s : Sender T) (seg : Segment) (now : Int) : Sender T :=
  { s with lastSendTime := now, sent := s.sent ++ [seg] }

/-- The merge loop of `maybeSendSegment`: the data of the segments that follow,
while they have data and fit in `available`, with how many were merged, and
whether the next one was too big. -/
def mergeNext (available : Int) (data : List UInt8) : List Segment → Bool × List UInt8 × ℕ
  | [] => (false, data, 0)
  | next :: rest =>
    if next.data.length = 0 then (false, data, 0)
    else if ((data.length + next.data.length : ℕ) : Int) > available then (true, data, 0)
    else
      let (nextTooBig, data, m) := mergeNext available (data ++ next.data) rest
      (nextTooBig, data, m + 1)

/-- `m` removals of the segment after index `i`. -/
def removeNext (i : ℕ) : ℕ → Sender T → Sender T
  | 0, s => s
  | m + 1, s => removeNext i m (s.removeSegment (i + 1))

/-- The first part of `maybeSendSegment`, on a segment with no sequence number
yet: the merge, Nagle's algorithm and cork, then the sequence number and the
flags. `false` is its `return false`. -/
def assignSegment (s : Sender T) (i : ℕ) (limit : Int) (end_ : Value) : Bool × Sender T :=
  match s.writeList[i]? with
  | none => (false, s)
  | some seg =>
    if isAssignedSequenceNumber seg then (true, s)
    else
      let (hold, s) :=
        if seg.data.length ≠ 0 then
          let available : Int := (seg.sequenceNumber.size end_).toNat
          let available := if available > limit then limit else available
          let (nextTooBig, data, m) := mergeNext available seg.data (s.writeList.drop (i + 1))
          let s := removeNext i m s
          let s := { s with writeList := s.writeList.set i { seg with data } }
          (!nextTooBig && (data.length : Int) < available && ((s.outstanding > 0 && s.delay) || s.cork), s)
        else (false, s)
      if hold then (false, s)
      else
        (true, { s with
          writeList := s.writeList.modify i fun seg =>
            { seg with sequenceNumber := s.sndNxt, flags := tcpFlagAck ||| tcpFlagPsh } })

/-- `maybeSendSegment` of the segment at index `i`. -/
def maybeSendSegment (s : Sender T) (i : ℕ) (limit : Int) (end_ : Value) (now : Int) :
    Outcome Unit (Bool × Sender T) := do
  let (ok, s) := s.assignSegment i limit end_
  if !ok then return (false, s)
  let seg ← Outcome.ofOption s.writeList[i]?
  if seg.data.length = 0 then
    -- the FIN
    if i + 1 ≠ s.writeList.length then Outcome.panic
    else
      let seg := { seg with flags := tcpFlagAck ||| tcpFlagFin }
      let s := { s with writeList := s.writeList.set i seg }
      let segEnd := seg.sequenceNumber.add 1
      let s := s.sendSegment seg now
      pure (true, if s.sndNxt.lessThan segEnd then { s with sndNxt := segEnd } else s)
  else if seg.flags &&& tcpFlagFin ≠ 0 then Outcome.panic
  else if !seg.sequenceNumber.lessThan end_ then pure (false, s)
  else
    let available : Int := (seg.sequenceNumber.size end_).toNat
    if available = 0 then pure (false, s)
    else
      let available := if available > limit then limit else available
      let s := if (seg.data.length : Int) > available then s.splitSeg i available else s
      let seg ← Outcome.ofOption s.writeList[i]?
      let segEnd := seg.sequenceNumber.add seg.data.length.toUInt32
      let s := s.sendSegment seg now
      pure (true, if s.sndNxt.lessThan segEnd then { s with sndNxt := segEnd } else s)

/-! ### `SetPipe` -/

/-- The inner loop of `SetPipe`, over the sequence range of `s1` in steps of
`smss`. -/
def setPipeRange (s : Sender T) (s1 : Segment) (segEnd : Value) (smss : Size) :
    ℕ → Value → Int → Outcome Unit Int
  | 0, startSeq, pipe =>
    if startSeq.lessThan segEnd && s1.sequenceNumber.lessThan s.sndNxt then .hang else .ok pipe
  | fuel + 1, startSeq, pipe =>
    if startSeq.lessThan segEnd then
      let endSeq := startSeq.add smss
      let endSeq := if segEnd.lessThan endSeq then segEnd else endSeq
      let sb : SACKBlock := ⟨startSeq, endSeq⟩
      if !s1.sequenceNumber.lessThan s.sndNxt then .ok pipe
      else if s.scoreboard.isSACKED sb then setPipeRange s s1 segEnd smss fuel (startSeq.add smss) pipe
      else
        let pipe := if !s.scoreboard.isRangeLost sb then pipe + 1 else pipe
        let pipe := if s1.sequenceNumber.lessThanEq s.fr.highRxt then pipe + 1 else pipe
        setPipeRange s s1 segEnd smss fuel (startSeq.add smss) pipe
    else .ok pipe

/-- The outer loop of `SetPipe`, over the segments with data and a sequence
number at the front of the write list. -/
def setPipeLoop (s : Sender T) (smss : Size) : List Segment → Int → Outcome Unit Int
  | [], pipe => .ok pipe
  | s1 :: rest, pipe =>
    if s1.data.length ≠ 0 ∧ isAssignedSequenceNumber s1 then do
      let segEnd := s1.sequenceNumber.add s1.data.length.toUInt32
      let pipe ← setPipeRange s s1 segEnd smss (s1.data.length + 1) s1.sequenceNumber pipe
      setPipeLoop s smss rest pipe
    else .ok pipe

/-- `SetPipe`: in SACK recovery, the packets in flight. -/
def setPipe (s : Sender T) : Outcome Unit (Sender T) :=
  if !s.sackPermitted || !s.fr.active then .ok s
  else do
    let pipe ← s.setPipeLoop s.scoreboard.smss.toUInt32 s.writeList 0
    pure { s with outstanding := pipe }

/-! ### SACK recovery -/

/-- The loop of `NextSeg` from index `i`, with the candidates of rules 3 and 4
so far. -/
def nextSegLoop (smss : ℕ) :
    ℕ → ℕ → Option ℕ → Option ℕ → Sender T → Outcome Unit (Option ℕ × Option ℕ × Option ℕ × Sender T)
  | 0, i, s3, s4, s =>
    match s.writeList[i]? with
    | none => .ok (none, s3, s4, s)
    | some seg => if isAssignedSequenceNumber seg then .hang else .ok (none, s3, s4, s)
  | fuel + 1, i, s3, s4, s =>
    match s.writeList[i]? with
    | none => .ok (none, s3, s4, s)
    | some seg =>
      if !isAssignedSequenceNumber seg then .ok (none, s3, s4, s)
      else do
        let segSeq := seg.sequenceNumber
        let s := if seg.data.length > smss then s.splitSeg i smss else s
        if s.scoreboard.isSACKED ⟨segSeq, segSeq.add 1⟩ then nextSegLoop smss fuel (i + 1) s3 s4 s
        else
          let rule1 := s.fr.highRxt.lessThan segSeq && segSeq.lessThan s.scoreboard.maxSACKED
          if rule1 && s.scoreboard.isLost segSeq then pure (some i, s3, s4, s)
          else
            let s3 := if rule1 && s3.isNone then some i else s3
            if s.fr.rescueRxt.lessThan (s.sndUna - 1) then
              let s4 ← match s4 with
                | none => pure (some i)
                | some j => do
                  let seg4 ← Outcome.ofOption s.writeList[j]?
                  pure (if seg4.sequenceNumber.lessThan segSeq then some i else some j)
              nextSegLoop smss fuel (i + 1) s3 s4 { s with fr := { s.fr with rescueRxt := s.fr.last } }
            else nextSegLoop smss fuel (i + 1) s3 s4 s

/-- `NextSeg`: the segments of rules 1, 3 and 4 of RFC 6675, as indices. -/
def nextSeg (s : Sender T) : Outcome Unit (Option ℕ × Option ℕ × Option ℕ × Sender T) :=
  nextSegLoop s.scoreboard.smss.toNat
    (s.writeList.length + (s.writeList.map fun seg => seg.data.length).sum + 1) 0 none none s

/-- Rule 2 of `NextSeg` inside `handleSACKRecovery`: from `writeNext`, the first
segment not below `sndNxt`, sent if it can be. -/
def rule2Loop (limit : Int) (end_ : Value) (now : Int) : ℕ → ℕ → Sender T → Outcome Unit (Option ℕ × Sender T)
  | 0, j, s =>
    match s.writeList[j]? with
    | none => .ok (none, s)
    | some _ => .hang
  | fuel + 1, j, s =>
    match s.writeList[j]? with
    | none => .ok (none, s)
    | some seg =>
      if isAssignedSequenceNumber seg && seg.sequenceNumber.lessThan s.sndNxt then
        rule2Loop limit end_ now fuel (j + 1) s
      else do
        let (sent, s) ← s.maybeSendSegment j limit end_ now
        if !sent then pure (none, s)
        else pure (some j, { s with outstanding := s.outstanding + 1, writeNext := j + 1 })

/-- What a turn of `handleSACKRecovery` does: rule 2 sent new data, there is
nothing to send, or the segment at an index is sent again (by rule 4 when
`rescueRtx`). -/
inductive RecoveryTurn (T : Type) where
  | sentNew (s : Sender T)
  | stop (s : Sender T)
  | resend (i : ℕ) (rescueRtx : Bool) (s : Sender T)

/-- One turn of `handleSACKRecovery`: rule 1, then rule 2, then rules 3 and 4. -/
def recoveryTurn (s : Sender T) (limit : Int) (end_ : Value) (now : Int) : Outcome Unit (RecoveryTurn T) := do
  let (next, s3, s4, s) ← s.nextSeg
  match next with
  | some i => pure (.resend i false s)
  | none => do
    let (sent, s) ← rule2Loop limit end_ now (s.writeList.length + 1) s.writeNext s
    pure (match sent, s3, s4 with
      | some _, _, _ => .sentNew s
      | none, some i, _ => .resend i false s
      | none, none, some i => .resend i true s
      | none, none, none => .stop s)

/-- The loop of `handleSACKRecovery`: a segment a turn while the congestion
window has room. -/
def sackRecoveryLoop (limit : Int) (end_ : Value) (now : Int) : ℕ → Sender T → Outcome Unit (Sender T)
  | 0, s => if s.outstanding < s.sndCwnd then .hang else .ok s
  | fuel + 1, s =>
    if !(s.outstanding < s.sndCwnd) then .ok s
    else do
      match ← s.recoveryTurn limit end_ now with
      | .sentNew s => sackRecoveryLoop limit end_ now fuel s
      | .stop s => pure s
      | .resend i rescueRtx s => do
        let seg ← Outcome.ofOption s.writeList[i]?
        let segEnd := seg.sequenceNumber.add seg.logicalLen
        let s := if !rescueRtx && seg.sequenceNumber.lessThan s.sndNxt then
            { s with fr := { s.fr with highRxt := segEnd - 1 } }
          else s
        let s := { s with outstanding := s.outstanding + 1 }
        sackRecoveryLoop limit end_ now fuel (s.sendSegment seg now)

/-- `handleSACKRecovery`. A turn adds one to `outstanding`, so the loop has
one turn for each packet of room. -/
def handleSACKRecovery (s : Sender T) (limit : Int) (end_ : Value) (now : Int) : Outcome Unit (Sender T) := do
  let s ← s.setPipe
  sackRecoveryLoop limit end_ now ((s.sndCwnd - s.outstanding).toNat + 1) s

/-! ### `sendData` -/

/-- The loop of `sendData` outside SACK recovery, from the segment at index
`i`. -/
def sendLoop (end_ : Value) (now : Int) : ℕ → ℕ → Int → Sender T → Outcome Unit (Sender T)
  | 0, i, _, s => if i < s.writeList.length ∧ s.outstanding < s.sndCwnd then .hang else .ok s
  | fuel + 1, i, limit, s =>
    match s.writeList[i]? with
    | none => .ok s
    | some seg =>
      if !(s.outstanding < s.sndCwnd) then .ok s
      else
        let cwndLimit := (s.sndCwnd - s.outstanding) * s.maxPayloadSize
        let limit := if cwndLimit < limit then cwndLimit else limit
        if isAssignedSequenceNumber seg && s.sackPermitted && s.scoreboard.isSACKED (sackBlock seg) then
          sendLoop end_ now fuel (i + 1) limit s
        else do
          let (sent, s) ← s.maybeSendSegment i limit end_ now
          if !sent then pure s
          else
            let seg ← Outcome.ofOption s.writeList[i]?
            let pc ← s.pCount seg
            sendLoop end_ now fuel (i + 1) limit { s with outstanding := s.outstanding + pc, writeNext := i + 1 }

/-- `sendData`. A turn of its loop moves to the next segment, and one that
splits a segment also sends it, adding to `outstanding`: the loop has one turn
for each segment and each packet of room. -/
def sendData (s : Sender T) (now : Int) : Outcome Unit (Sender T) :=
  let limit : Int := if s.gso then ((s.gsoMaxSize - tcpHeaderMaximumSize).toNat : Int) else s.maxPayloadSize
  let end_ := s.sndUna.add s.sndWnd
  let s := if !s.fr.active && now - s.lastSendTime > s.rto && s.sndCwnd > initialCwnd then
      { s with sndCwnd := initialCwnd }
    else s
  if s.fr.active && s.sackPermitted then s.handleSACKRecovery s.maxPayloadSize end_ now
  else sendLoop end_ now (s.writeList.length + (s.sndCwnd - s.outstanding).toNat + 1) s.writeNext limit s

/-! ### Acknowledgements -/

def enterFastRecovery (s : Sender T) : Sender T :=
  let s := { s with sndCwnd := s.sndSsthresh + 3 }
  let s := { s with
    fr := { s.fr with
      active := true
      first := s.sndUna
      last := s.sndNxt - 1
      maxCwnd := s.sndCwnd + s.outstanding } }
  { s with state := if s.sackPermitted then .SACKRecovery else .FastRecovery }

def leaveFastRecovery (cc : CongestionControl T) (s : Sender T) : Sender T :=
  cc.postRecovery { s with
    fr := { s.fr with active := false, maxCwnd := 0 }
    dupAckCount := 0
    sndCwnd := s.sndSsthresh }

/-- `handleFastRecovery`: whether to retransmit. -/
def handleFastRecovery (cc : CongestionControl T) (s : Sender T) (seg : AckSegment) : Bool × Sender T :=
  let ack := seg.ackNumber
  if !ack.inRange s.sndUna (s.sndNxt + 1) then (false, s)
  else if s.fr.last.lessThan ack then (false, s.leaveFastRecovery cc)
  else if s.sackPermitted then (false, s)
  else if seg.segment.logicalLen ≠ 0 || s.sndWnd ≠ seg.window then (false, s)
  else if ack = s.fr.first then
    (false, if s.sndCwnd < s.fr.maxCwnd then { s with sndCwnd := s.sndCwnd + 1 } else s)
  else (true, { s with fr := { s.fr with first := ack }, dupAckCount := 0 })

/-- `checkDuplicateAck`: whether to retransmit. -/
def checkDuplicateAck (cc : CongestionControl T) (s : Sender T) (seg : AckSegment) (hasNewSACKInfo : Bool) :
    Outcome Unit (Bool × Sender T) :=
  let ack := seg.ackNumber
  if s.fr.active then .ok (s.handleFastRecovery cc seg)
  else if (ack ≠ s.sndUna || seg.segment.logicalLen ≠ 0 || s.sndWnd ≠ seg.window || ack = s.sndNxt) &&
      (!s.sackPermitted || !hasNewSACKInfo) then
    .ok (false, { s with dupAckCount := 0 })
  else
    let s := { s with dupAckCount := s.dupAckCount + 1 }
    if s.dupAckCount < (nDupAckThreshold : Int) || (s.sackPermitted && !s.scoreboard.isLost s.sndUna) then do
      let s ← { s with fr := { s.fr with highRxt := s.sndUna - 1 } }.setPipe
      pure (false, { s with state := .Disorder })
    else if !s.fr.last.lessThan ack then .ok (false, { s with dupAckCount := 0 })
    else .ok (true, { (cc.handleNDupAcks s).enterFastRecovery with dupAckCount := 0 })

/-- The SACK blocks of an arriving segment that `handleRcvdSegment` inserts:
after the acknowledgement, in flight and not already SACKed; and whether
there was one. -/
def insertSACKBlocks (ack : Value) : List SACKBlock → Sender T × Bool → Sender T × Bool
  | [], st => st
  | sb :: rest, (s, hasNewSACKInfo) =>
    if ack.lessThan sb.Start && s.sndUna.lessThan sb.Start && sb.End.lessThanEq s.sndNxt &&
        !s.scoreboard.isSACKED sb then
      insertSACKBlocks ack rest ({ s with scoreboard := s.scoreboard.insert sb }, true)
    else insertSACKBlocks ack rest (s, hasNewSACKInfo)

/-- The loop of `handleRcvdSegment` that takes `ackLeft` acknowledged bytes
off the front of the write list; a front that is `nil` is a panic. -/
def ackLoop : ℕ → Size → Sender T → Outcome Unit (Sender T)
  | 0, ackLeft, s => if ackLeft > 0 then .hang else .ok s
  | fuel + 1, ackLeft, s =>
    if ackLeft > 0 then do
      let seg ← Outcome.ofOption s.writeList.head?
      let datalen := seg.logicalLen
      if datalen > ackLeft then
        let prevCount ← s.pCount seg
        let seg := { seg with
          data := seg.data.drop ackLeft.toNat
          sequenceNumber := seg.sequenceNumber.add ackLeft }
        let count ← s.pCount seg
        pure { s with
          writeList := s.writeList.set 0 seg
          outstanding := s.outstanding - (prevCount - count) }
      else
        let s := if s.writeNext = 0 then { s with writeNext := 1 } else s
        let s := s.removeSegment 0
        let s ← if !s.sackPermitted || !s.scoreboard.isSACKED (sackBlock seg) then do
            let pc ← s.pCount seg
            pure { s with outstanding := s.outstanding - pc }
          else pure s
        ackLoop fuel (ackLeft - datalen) s
    else .ok s

/-- `resendSegment`: the first unacknowledged segment, again. -/
def resendSegment (s : Sender T) (now : Int) : Outcome Unit (Sender T) :=
  match s.writeList.head? with
  | none => .ok s
  | some seg => do
    let s := if (seg.data.length : Int) > s.maxPayloadSize then s.splitSeg 0 s.maxPayloadSize else s
    let seg ← Outcome.ofOption s.writeList.head?
    let highRxt := seg.sequenceNumber.add seg.data.length.toUInt32 - 1
    let s := { s with fr := { s.fr with highRxt, rescueRxt := highRxt } }
    (s.sendSegment seg now).setPipe

/-- `handleRcvdSegment`. -/
def handleRcvdSegment (cc : CongestionControl T) (s : Sender T) (seg : AckSegment) (now : Int) :
    Outcome Unit (Sender T) := do
  let (s, hasNewSACKInfo) :=
    if s.sackPermitted then insertSACKBlocks seg.ackNumber seg.sackBlocks (s, false) else (s, false)
  let s ← if s.sackPermitted then s.setPipe else pure s
  let (rtx, s) ← s.checkDuplicateAck cc seg hasNewSACKInfo
  let s := { s with sndWnd := seg.window }
  let ack := seg.ackNumber
  let s ← if (ack - 1).inRange s.sndUna s.sndNxt then do
      let acked := s.sndUna.size ack
      let s := { s with dupAckCount := 0, sndUna := ack }
      let originalOutstanding := s.outstanding
      let s ← ackLoop (s.writeList.length + 1) acked s
      let s := { s with scoreboard := s.scoreboard.delete s.sndUna }
      let s := if !s.fr.active then
          let s := cc.update (originalOutstanding - s.outstanding) s
          if s.fr.last.lessThan s.sndUna then { s with state := .Open } else s
        else s
      let s := if s.outstanding < 0 then { s with outstanding := 0 } else s
      let s ← s.setPipe
      pure (if s.sndUna = s.sndNxt then { s with outstanding := 0 } else s)
    else pure s
  let s ← if rtx then s.resendSegment now else pure s
  if !s.sackPermitted || s.fr.active || s.dupAckCount = 0 || hasNewSACKInfo then s.sendData now
  else pure s

/-! ### Timeouts, the MTU, and the application -/

/-- `retransmitTimerExpired`, when the timer has expired: `false` when the
connection is given up. -/
def retransmitTimerExpired (cc : CongestionControl T) (s : Sender T) (now : Int) : Outcome Unit (Bool × Sender T) :=
  if s.rto ≥ 60 * 10 ^ 9 then .ok (false, s)
  else do
    let s := { s with rto := s.rto * 2 }
    let s := { s with fr := { s.fr with last := s.sndNxt - 1 } }
    let s := if s.fr.active then s.leaveFastRecovery cc else s
    let s := cc.handleRTOExpired { s with state := .RTORecovery }
    let s := { s with outstanding := 0, scoreboard := s.scoreboard.reset, writeNext := 0 }
    let s ← s.sendData now
    pure (true, s)

/-- The rewind of `updateMaxPayloadSize`: the first segment before `writeNext`
that is longer than `m`, or `writeNext`. -/
def rewindWriteNext (m : Int) (writeNext : ℕ) : List Segment → ℕ → ℕ
  | [], _ => writeNext
  | seg :: rest, j =>
    if j = writeNext then writeNext
    else if (seg.data.length : Int) > m then j
    else rewindWriteNext m writeNext rest (j + 1)

/-- `updateMaxPayloadSize`. -/
def updateMaxPayloadSize (s : Sender T) (mtu count : Int) (now : Int) : Outcome Unit (Sender T) := do
  let m := mtu - tcpMinimumSize - (← s.maxOptionSize)
  if m ≥ s.maxPayloadSize then pure s
  else
    let m := if m ≤ 0 then 1 else m
    let s := { s with maxPayloadSize := m }
    if count = 0 then pure s
    else
      let s := { s with scoreboard := { s.scoreboard with smss := m.toNat.toUInt16 } }
      let s := { s with outstanding := if s.outstanding - count < 0 then 0 else s.outstanding - count }
      let s := { s with writeNext := rewindWriteNext m s.writeNext s.writeList 0 }
      s.sendData now

/-- `handleWrite`: the segments queued by `Write` and `Shutdown` join the write
list, and `sendData` sends what it can. As an index, a `writeNext` at the end of
the list already points at the first of them. -/
def handleWrite (s : Sender T) (sndQueue : List Segment) (now : Int) : Outcome Unit (Sender T) :=
  { s with writeList := s.writeList ++ sndQueue }.sendData now

end Sender

/-- The segment `Write` queues for a payload, and the empty one `Shutdown`
queues for the FIN. -/
def newOutgoingSegment (v : List UInt8) : Segment := ⟨0, v, 0⟩

/-- What drives the sender: the application's writes, arriving
acknowledgements, the retransmit timer, and an ICMP "packet too big". -/
inductive SenderEvent where
  | write (sndQueue : List Segment) (now : Int)
  | rcvd (seg : AckSegment) (now : Int)
  | timeout (now : Int)
  | packetTooBig (mtu count : Int) (now : Int)
  deriving DecidableEq, Repr

namespace Sender

/-- The sender after one event; a connection given up on a timeout stays as it
was. -/
def step (cc : CongestionControl T) (s : Sender T) : SenderEvent → Outcome Unit (Sender T)
  | .write sndQueue now => s.handleWrite sndQueue now
  | .rcvd seg now => s.handleRcvdSegment cc seg now
  | .timeout now => Prod.snd <$> s.retransmitTimerExpired cc now
  | .packetTooBig mtu count now => s.updateMaxPayloadSize mtu count now

def run (cc : CongestionControl T) (s : Sender T) (events : List SenderEvent) : Outcome Unit (Sender T) :=
  events.foldlM (step cc) s

end Sender

/-- `newSender`, with the options and the offload of its endpoint. -/
def newSender (sackPermitted sendTSOk delay cork gso : Bool) (gsoMaxSize : UInt32)
    (iss : Value) (sndWnd : Size) (mss : UInt16) (mtu : Int) (now : Int) : Outcome Unit (Sender T) := do
  let s : Sender T :=
    { sackPermitted, sendTSOk, delay, cork, gso, gsoMaxSize
      scoreboard := newSACKScoreboard 0 iss
      lastSendTime := now
      dupAckCount := 0
      fr := { active := false, first := 0, last := iss, maxCwnd := 0, highRxt := iss, rescueRxt := iss }
      sndCwnd := initialCwnd
      sndSsthresh := 9223372036854775807
      sndCAAckCount := 0
      outstanding := 0
      sndWnd
      sndUna := iss + 1
      sndNxt := iss + 1
      writeNext := 0
      writeList := []
      rto := 10 ^ 9
      maxPayloadSize := 0
      state := .Open
      sent := [] }
  let s := { s with maxPayloadSize := mss.toNat - (← s.maxOptionSize) }
  let s ← s.updateMaxPayloadSize mtu 0 now
  pure { s with scoreboard := newSACKScoreboard (UInt16.ofInt s.maxPayloadSize) iss }

end Tcp
