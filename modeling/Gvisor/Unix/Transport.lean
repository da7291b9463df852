import Mathlib

/-! The transport of a connected unix socket
(pkg/sentry/socket/unix/transport): the `queue` of messages from one end to
the other, `connectedEndpoint.Send` that writes into it, and the
`streamQueueReceiver` that reads a stream of bytes out of it.

A message's `Data` is its list of bytes. A set of rights
(`RightsControlMessage`) is named by an identity, so that each set can be
followed: a `Clone` carries the name of the set it copies, and each `Release`
is reported, as the list of the sets released. Credentials are compared by
equality, which is what `scmCredentials.Equals` does. The data vectors a
receive is given (`[][]byte`) are the lengths of its slices, and the bytes
copied into them are returned in order. The waiter queues are left out; the
notifications are returned, as the source returns them. `used`, `limit` and
the counts are `int64`s that stay far from overflow, so they are `ℤ`. -/

namespace Unix

/-- A `RightsControlMessage`, by the identity of the set of descriptors. -/
abbrev Rights := ℕ

/-- An `scmCredentials`: the sending task and its user and group. -/
structure Credentials where
  task : ℕ
  uid : ℕ
  gid : ℕ
  deriving DecidableEq, Repr

structure ControlMessages where
  rights : Option Rights
  credentials : Option Credentials
  deriving DecidableEq, Repr

/-- The bound address of the sending endpoint, empty when it is not bound. -/
abbrev Address := String

structure Message where
  data : List UInt8
  control : ControlMessages
  address : Address
  deriving DecidableEq, Repr

namespace Message

def length (m : Message) : ℤ := m.data.length

/-- `Truncate`: `Data.CapLength(n)`. -/
def truncate (m : Message) (n : ℤ) : Message := { m with data := m.data.take n.toNat }

theorem length_truncate (m : Message) {n : ℤ} (hn : 0 ≤ n) :
    (m.truncate n).length = min m.length n := by
  simp only [truncate, length, List.length_take]
  omega

theorem truncate_length (m : Message) : m.truncate m.length = m := by
  simp [truncate, length]

end Message

/-- The `syserr` errors of the queue. -/
inductive Error where
  | closedForSend
  | closedForReceive
  | wouldBlock
  | messageTooLong
  deriving DecidableEq, Repr

/-- The fields of `queue` that `Enqueue` and `Dequeue` read and write. -/
structure Queue where
  closed : Bool
  used : ℤ
  limit : ℤ
  dataList : List Message
  deriving Repr

namespace Queue

/-- `bufWritable`: more than three quarters of the buffer is free. -/
def bufWritable (q : Queue) : Bool := 4 * q.used < q.limit

/-- The end of `Enqueue`, once the message is cut to what it may write: the
count written, whether readers are to be notified, and the error. -/
def enqueueFit (q : Queue) (e : Message) (free : ℤ) (err : Option Error) :
    (ℤ × Bool × Option Error) × Queue :=
  let l := e.length
  if l > q.limit then ((0, false, some .messageTooLong), q)
  else if l > free then ((0, false, some .wouldBlock), q)
  else ((l, q.dataList.isEmpty, err), { q with used := q.used + l, dataList := q.dataList ++ [e] })

/-- `Enqueue`: with `truncate`, a message longer than the free space is cut to
it, and the count written comes with `ErrWouldBlock`. -/
def enqueue (q : Queue) (e : Message) (truncate : Bool) : (ℤ × Bool × Option Error) × Queue :=
  if q.closed then ((0, false, some .closedForSend), q)
  else
    let free := q.limit - q.used
    if e.length > free ∧ truncate then
      if free = 0 then ((0, false, some .wouldBlock), q)
      else q.enqueueFit (e.truncate free) free (some .wouldBlock)
    else q.enqueueFit e free none

/-- `Dequeue`: the first message, and whether writers are to be notified. -/
def dequeue (q : Queue) : Except Error (Message × Bool × Queue) :=
  match q.dataList with
  | [] => .error (if q.closed then .closedForReceive else .wouldBlock)
  | e :: rest =>
    let notify := !q.bufWritable
    let q := { q with dataList := rest, used := q.used - e.length }
    .ok (e, notify && q.bufWritable, q)

end Queue

inductive SockType where
  | stream
  | dgram
  | seqpacket
  deriving DecidableEq, Repr

/-- `connectedEndpoint.Send` from an endpoint of type `t` into its write
queue `q`, with `fromAddr` the source's `from`: the count written, whether
readers are to be notified and the error, the rights released, and the queue
after it. A stream socket drops an empty write, releasing its control
messages, and writes as much of a longer one as fits. -/
def send (q : Queue) (t : SockType) (data : List (List UInt8)) (control : ControlMessages)
    (fromAddr : Address) : (ℤ × Bool × Option Error) × List Rights × Queue :=
  let l : ℤ := (data.map List.length).sum
  if t = .stream ∧ l = 0 then ((0, false, none), control.rights.toList, q)
  else
    let (res, q) := q.enqueue ⟨data.flatten, control, fromAddr⟩ (t = .stream)
    (res, [], q)

/-- The state of a `streamQueueReceiver`: its read queue, and the bytes,
control messages and address of the message it is part way through. -/
structure Receiver where
  readQueue : Queue
  buffer : List UInt8
  control : ControlMessages
  addr : Address
  deriving Repr

/-- `vecCopy`: the count copied from `buf` into slices of the lengths `data`,
the lengths left of the slices not yet full, and the bytes not copied. -/
def vecCopy : List ℕ → List UInt8 → ℕ × List ℕ × List UInt8
  | [], buf => (0, [], buf)
  | d :: ds, buf =>
    if buf = [] then (0, d :: ds, [])
    else
      let n := min d buf.length
      if d - n = 0 then
        let (copied, ds, buf) := vecCopy ds (buf.drop n)
        (n + copied, ds, buf)
      else (n, (d - n) :: ds, buf.drop n)

/-- What `Recv` returns beside its error: the bytes copied into `data`, the
counts, the control messages, whether some were dropped, the source address,
and whether writers are to be notified. -/
structure RecvResult where
  bytes : List UInt8
  recvLen : ℤ
  msgLen : ℤ
  control : ControlMessages
  cmTruncated : Bool
  source : Address
  notify : Bool
  deriving Repr

/-- The three assignments that follow each `Dequeue` of `Recv`: the buffer
holds the message taken off the queue `q`. -/
def Receiver.fill (r : Receiver) (q : Queue) (m : Message) : Receiver :=
  { r with readQueue := q, buffer := m.data, control := m.control, addr := m.address }

/-- The variables of the loop of `Recv`; `r` holds `q.buffer`, `q.control`
and `q.addr`, and `released` the rights it has released. -/
structure RecvState where
  data : List ℕ
  r : Receiver
  copied : ℕ
  bytes : List UInt8
  c : ControlMessages
  cmTruncated : Bool
  haveRights : Bool
  notify : Bool
  released : List Rights

/-- The breaks of the loop of `Recv` once it has taken the next message, with
control messages `next`, `c` being those it returns: one has credentials and
the other does not, or both have and they differ, or both have rights. -/
def joinBreaks (wantCreds : Bool) (numRights : ℤ) (c next : ControlMessages) : Bool :=
  wantCreds && next.credentials.isNone != c.credentials.isNone ||
    wantCreds && next.credentials.isSome && c.credentials.isSome &&
      next.credentials != c.credentials ||
    numRights != 0 && c.rights.isSome && next.rights.isSome

/-- `cpd, data, q.buffer = vecCopy(data, q.buffer)` and `copied += cpd`, with
the bytes copied kept in order. -/
def RecvState.copy (st : RecvState) : RecvState × ℕ :=
  let (cpd, data, buffer) := vecCopy st.data st.r.buffer
  ({ st with
    data, copied := st.copied + cpd, bytes := st.bytes ++ st.r.buffer.take cpd,
    r := { st.r with buffer } }, cpd)

/-- The rights of the message in the buffer are consumed: released when
`numRights` is zero, returned otherwise. -/
def RecvState.takeRights (numRights : ℤ) (st : RecvState) : RecvState :=
  match st.r.control.rights with
  | none => st
  | some x =>
    let r := { st.r with control := { st.r.control with rights := none } }
    if numRights = 0 then { st with r, cmTruncated := true, released := st.released ++ [x] }
    else { st with r, c := { st.c with rights := some x }, haveRights := true }

/-- The loop of `Recv` that joins more messages while there is room and no
rights have been taken; each turn takes a message off the queue, so as many
turns as the queue has messages, and one more, are all it takes. -/
def recvLoop (wantCreds : Bool) (numRights : ℤ) : ℕ → RecvState → RecvState
  | 0, st => st
  | fuel + 1, st =>
    if st.haveRights ∨ st.data = [] then st
    else
      match st.r.readQueue.dequeue with
      | .error _ => st
      | .ok (m, n, q) =>
        let st := { st with notify := st.notify || n, r := st.r.fill q m }
        if joinBreaks wantCreds numRights st.c m.control then st
        else
          let (st, cpd) := st.copy
          -- the slices left are all empty
          if cpd = 0 then st
          else recvLoop wantCreds numRights fuel (st.takeRights numRights)

/-- The start of `Recv`: a message is loaded into the buffer when it is
empty, even to peek. -/
def Receiver.load (r : Receiver) : Except Error (Bool × Receiver) :=
  if r.buffer = [] then
    match r.readQueue.dequeue with
    | .error e => .error e
    | .ok (m, n, q) => .ok (n, r.fill q m)
  else .ok (false, r)

/-- The first copy of a receive that does not peek, from the buffer of `r`,
and what it does with the buffer's control messages: the state the loop of
`Recv` starts from. -/
def recvStart (r : Receiver) (data : List ℕ) (wantCreds : Bool) (numRights : ℤ)
    (notify : Bool) : RecvState :=
  let (copied, data, buffer) := vecCopy data r.buffer
  let c := r.control
  -- the rights leave the buffer's control messages, the credentials stay
  let r' := { r with buffer, control := { r.control with rights := none } }
  let c := if wantCreds then c else { c with credentials := none }
  let (c, cmTruncated, released) :=
    match c.rights with
    | some x => if numRights = 0 then ({ c with rights := none }, true, [x]) else (c, false, [])
    | none => (c, false, [])
  ⟨data, r', copied, r.buffer.take copied, c, cmTruncated, c.rights.isSome, notify, released⟩

/-- `streamQueueReceiver.Recv`: what it returns, the rights it released, and
the receiver after it. A peek copies from the buffer and keeps it; a receive
consumes what it copies, takes the rights of the buffer's message, and joins
further messages. -/
def Receiver.recv (r : Receiver) (data : List ℕ) (wantCreds : Bool) (numRights : ℤ)
    (peek : Bool) : Except Error (RecvResult × List Rights × Receiver) :=
  match r.load with
  | .error e => .error e
  | .ok (notify, r) =>
    if peek then
      let (copied, _, _) := vecCopy data r.buffer
      .ok (⟨r.buffer.take copied, copied, copied, r.control, false, r.addr, notify⟩, [], r)
    else
      let st := recvStart r data wantCreds numRights notify
      let st := recvLoop wantCreds numRights (st.r.readQueue.dataList.length + 1) st
      .ok (⟨st.bytes, st.copied, st.copied, st.c, st.cmTruncated, st.r.addr, st.notify⟩,
        st.released, st.r)

section Spec

theorem dequeue_eq_ok {q q' : Queue} {m : Message} {n : Bool}
    (h : q.dequeue = .ok (m, n, q')) :
    ∃ rest, q.dataList = m :: rest ∧ q' = { q with dataList := rest, used := q.used - m.length } := by
  unfold Queue.dequeue at h
  split at h
  · cases h
  · rename_i e rest hq
    cases h
    exact ⟨rest, hq, rfl⟩

/-- `vecCopy` copies as many bytes as both the slices and the buffer hold. -/
theorem vecCopy_fst : ∀ (ds : List ℕ) (buf : List UInt8),
    (vecCopy ds buf).1 = min ds.sum buf.length
  | [], buf => by simp [vecCopy]
  | d :: ds, buf => by
    by_cases hb : buf = []
    · simp [vecCopy, hb]
    · have ih := vecCopy_fst ds (buf.drop (min d buf.length))
      simp only [vecCopy, hb, ↓reduceIte, List.sum_cons]
      split_ifs with hd
      · rw [ih, List.length_drop]
        omega
      · omega

/-- What `vecCopy` leaves of the buffer is what it did not copy. -/
theorem vecCopy_snd_snd : ∀ (ds : List ℕ) (buf : List UInt8),
    (vecCopy ds buf).2.2 = buf.drop (vecCopy ds buf).1
  | [], buf => by simp [vecCopy]
  | d :: ds, buf => by
    by_cases hb : buf = []
    · simp [vecCopy, hb]
    · have ih := vecCopy_snd_snd ds (buf.drop (min d buf.length))
      simp only [vecCopy, hb, ↓reduceIte]
      split_ifs with hd
      · rw [ih, List.drop_drop, Nat.add_comm]
      · rfl

/-- `vecCopy` stops with slices left only once the buffer is used up. -/
theorem vecCopy_drained : ∀ (ds : List ℕ) (buf : List UInt8),
    (vecCopy ds buf).2.1 ≠ [] → (vecCopy ds buf).2.2 = []
  | [], buf => by simp [vecCopy]
  | d :: ds, buf => by
    by_cases hb : buf = []
    · simp [vecCopy, hb]
    · have ih := vecCopy_drained ds (buf.drop (min d buf.length))
      simp only [vecCopy, hb, ↓reduceIte]
      split_ifs with hd
      · exact ih
      · intro _
        rw [List.drop_eq_nil_iff]
        omega

theorem copy_eq (st : RecvState) : st.copy = ({ st with
    data := (vecCopy st.data st.r.buffer).2.1
    copied := st.copied + (vecCopy st.data st.r.buffer).1
    bytes := st.bytes ++ st.r.buffer.take (vecCopy st.data st.r.buffer).1
    r := { st.r with buffer := st.r.buffer.drop (vecCopy st.data st.r.buffer).1 } },
    (vecCopy st.data st.r.buffer).1) := by
  have hb := vecCopy_snd_snd st.data st.r.buffer
  rcases h : vecCopy st.data st.r.buffer with ⟨cpd, data, buffer⟩
  rw [h] at hb
  simp only [RecvState.copy, h]
  rw [← hb]

theorem copy_of_zero (st : RecvState) (h : st.copy.2 = 0) :
    st.copy.1 = { st with data := (vecCopy st.data st.r.buffer).2.1 } := by
  rw [copy_eq] at h ⊢
  simp only at h
  simp [h]

section Copy

variable (st : RecvState)

@[simp] theorem copy_data : st.copy.1.data = (vecCopy st.data st.r.buffer).2.1 := by
  rw [copy_eq]

@[simp] theorem copy_bytes :
    st.copy.1.bytes = st.bytes ++ st.r.buffer.take (vecCopy st.data st.r.buffer).1 := by
  rw [copy_eq]

@[simp] theorem copy_buffer :
    st.copy.1.r.buffer = st.r.buffer.drop (vecCopy st.data st.r.buffer).1 := by
  rw [copy_eq]

@[simp] theorem copy_snd : st.copy.2 = (vecCopy st.data st.r.buffer).1 := by
  rw [copy_eq]

@[simp] theorem copy_control : st.copy.1.r.control = st.r.control := by
  rw [copy_eq]

@[simp] theorem copy_c : st.copy.1.c = st.c := by
  rw [copy_eq]

@[simp] theorem copy_released : st.copy.1.released = st.released := by
  rw [copy_eq]

@[simp] theorem copy_cmTruncated : st.copy.1.cmTruncated = st.cmTruncated := by
  rw [copy_eq]

@[simp] theorem copy_haveRights : st.copy.1.haveRights = st.haveRights := by
  rw [copy_eq]

@[simp] theorem copy_readQueue : st.copy.1.r.readQueue = st.r.readQueue := by
  rw [copy_eq]

end Copy

section TakeRights

variable (numRights : ℤ) (st : RecvState)

@[simp] theorem takeRights_data : (st.takeRights numRights).data = st.data := by
  unfold RecvState.takeRights
  split <;> (try split_ifs) <;> rfl

@[simp] theorem takeRights_bytes : (st.takeRights numRights).bytes = st.bytes := by
  unfold RecvState.takeRights
  split <;> (try split_ifs) <;> rfl

@[simp] theorem takeRights_buffer : (st.takeRights numRights).r.buffer = st.r.buffer := by
  unfold RecvState.takeRights
  split <;> (try split_ifs) <;> rfl

@[simp] theorem takeRights_readQueue :
    (st.takeRights numRights).r.readQueue = st.r.readQueue := by
  unfold RecvState.takeRights
  split <;> (try split_ifs) <;> rfl

@[simp] theorem takeRights_credentials :
    (st.takeRights numRights).c.credentials = st.c.credentials := by
  unfold RecvState.takeRights
  split <;> (try split_ifs) <;> rfl

/-- What taking the rights of the buffer's message can do. -/
theorem takeRights_cases :
    (st.r.control.rights = none ∧ st.takeRights numRights = st) ∨
      ∃ x, st.r.control.rights = some x ∧
        (numRights = 0 ∧ (st.takeRights numRights).released = st.released ++ [x] ∧
            (st.takeRights numRights).cmTruncated = true ∧
            (st.takeRights numRights).c = st.c ∧
            (st.takeRights numRights).haveRights = st.haveRights ∨
          numRights ≠ 0 ∧ (st.takeRights numRights).released = st.released ∧
            (st.takeRights numRights).cmTruncated = st.cmTruncated ∧
            (st.takeRights numRights).c.rights = some x ∧
            (st.takeRights numRights).haveRights = true) := by
  unfold RecvState.takeRights
  split
  · rename_i h
    exact .inl ⟨h, rfl⟩
  · rename_i x h
    right
    refine ⟨x, h, ?_⟩
    split_ifs with h0
    · exact .inl ⟨h0, rfl, rfl, rfl, rfl⟩
    · exact .inr ⟨h0, rfl, rfl, rfl, rfl⟩

end TakeRights

/-- The first copy of a receive is a turn of its loop from a state that has
taken nothing, with the buffer's credentials when they are wanted. -/
theorem recvStart_eq (r : Receiver) (data : List ℕ) (wantCreds : Bool) (numRights : ℤ)
    (notify : Bool) :
    recvStart r data wantCreds numRights notify =
      (RecvState.copy ⟨data, r, 0, [], ⟨none, if wantCreds then r.control.credentials else none⟩,
        false, false, notify, []⟩).1.takeRights numRights := by
  rcases r with ⟨rq, buf, ⟨rights, creds⟩, addr⟩
  rw [copy_eq]
  cases rights with
  | none => cases wantCreds <;> simp [recvStart, RecvState.takeRights, vecCopy_snd_snd]
  | some x =>
    by_cases h0 : numRights = 0 <;> cases wantCreds <;>
      simp [recvStart, RecvState.takeRights, h0, vecCopy_snd_snd]

theorem load_eq_ok {r r' : Receiver} {n : Bool} (h : r.load = .ok (n, r')) :
    (r.buffer ≠ [] ∧ n = false ∧ r' = r) ∨
      (r.buffer = [] ∧ ∃ m q, r.readQueue.dequeue = .ok (m, n, q) ∧ r' = r.fill q m) := by
  unfold Receiver.load at h
  split_ifs at h with hb
  · right
    split at h
    · cases h
    · rename_i m n' q hq
      cases h
      exact ⟨hb, m, q, hq, rfl⟩
  · cases h
    exact .inl ⟨hb, rfl, rfl⟩

/-- `Enqueue` with `truncate` either writes nothing, or queues as much of the
message as the free space holds. -/
theorem enqueue_truncate_cases (q : Queue) (e : Message) :
    ((q.enqueue e true).1.1 = 0 ∧ (q.enqueue e true).2 = q) ∨
      ∃ k : ℕ, (k : ℤ) = min e.length (q.limit - q.used) ∧ (0 < e.length → 0 < k) ∧
        (q.enqueue e true).1.1 = k ∧ q.used + k ≤ q.limit ∧
        (q.enqueue e true).2 = { q with
          used := q.used + k
          dataList := q.dataList ++ [e.truncate k] } := by
  have hlen : (0 : ℤ) ≤ e.length := Int.natCast_nonneg _
  by_cases hc : q.closed = true
  · left
    simp [Queue.enqueue, hc]
  unfold Queue.enqueue Queue.enqueueFit
  simp only [hc, Bool.false_eq_true, ↓reduceIte, and_true]
  split_ifs with hfit hz h1 h2 h1
  · exact .inl ⟨rfl, rfl⟩
  · exact .inl ⟨rfl, rfl⟩
  · exact .inl ⟨rfl, rfl⟩
  · -- the message is cut to the free space, which is then positive
    right
    have h0 : (0 : ℤ) ≤ (e.truncate (q.limit - q.used)).length := Int.natCast_nonneg _
    have hfree : 0 < q.limit - q.used := by omega
    have hk : ((q.limit - q.used).toNat : ℤ) = q.limit - q.used := by omega
    have hmin : min e.length (q.limit - q.used) = q.limit - q.used := by omega
    have hl := Message.length_truncate e (n := q.limit - q.used) (by omega)
    refine ⟨(q.limit - q.used).toNat, by omega, fun _ => by omega, ?_, by omega, ?_⟩
    · simp only [hl, hmin, hk]
    · simp only [hl, hmin, hk]
  · exact .inl ⟨rfl, rfl⟩
  · -- the whole message fits
    right
    have hmin : min e.length (q.limit - q.used) = e.length := by omega
    refine ⟨e.data.length, hmin.symm, fun h => by simpa [Message.length] using h, rfl,
      by simp only [Message.length] at hfit ⊢; omega, ?_⟩
    simp only [Message.truncate, Int.toNat_natCast, List.take_length]
    rfl

/-- A stream send either writes nothing, or queues the first `k` bytes of its
data with its control messages, `k` being the free space when the data does
not fit. -/
theorem send_stream_cases (q : Queue) (data : List (List UInt8))
    (control : ControlMessages) (fromAddr : Address) :
    ((send q .stream data control fromAddr).1.1 = 0 ∧
        (send q .stream data control fromAddr).2.2 = q) ∨
      ∃ k : ℕ, 0 < k ∧ (k : ℤ) = min (data.flatten.length : ℤ) (q.limit - q.used) ∧
        (send q .stream data control fromAddr).1.1 = k ∧ q.used + k ≤ q.limit ∧
        (send q .stream data control fromAddr).2.2 = { q with
          used := q.used + k
          dataList := q.dataList ++ [⟨data.flatten.take k, control, fromAddr⟩] } := by
  have hlen : ((data.map List.length).sum : ℤ) = (data.flatten.length : ℤ) := by
    rw [List.length_flatten]
  by_cases hz : data.flatten.length = 0
  · left
    simp [send, hlen, hz]
  have hsend : send q .stream data control fromAddr =
      ((q.enqueue ⟨data.flatten, control, fromAddr⟩ true).1, [],
        (q.enqueue ⟨data.flatten, control, fromAddr⟩ true).2) := by
    have hl0 : ((data.map List.length).sum : ℤ) ≠ 0 := by omega
    simp only [send, true_and, hl0, ↓reduceIte, decide_true]
  rw [hsend]
  rcases enqueue_truncate_cases q ⟨data.flatten, control, fromAddr⟩ with h | ⟨k, hk, hpos, h1, h2, h3⟩
  · exact .inl h
  · right
    refine ⟨k, hpos (by simp only [Message.length]; omega), hk, h1, h2, ?_⟩
    rw [h3]
    simp [Message.truncate]

/-- The loop of `Recv` only adds bytes to those already taken. -/
theorem bytes_prefix_recvLoop (wantCreds : Bool) (numRights : ℤ) :
    ∀ (fuel : ℕ) (st : RecvState), st.bytes <+: (recvLoop wantCreds numRights fuel st).bytes
  | 0, st => List.prefix_refl _
  | fuel + 1, st => by
    unfold recvLoop
    split_ifs
    · exact List.prefix_refl _
    split
    · exact List.prefix_refl _
    dsimp only
    split_ifs
    · exact List.prefix_refl _
    · rw [copy_bytes]
      exact List.prefix_append _ _
    · refine List.IsPrefix.trans ?_ (bytes_prefix_recvLoop wantCreds numRights fuel _)
      rw [takeRights_bytes, copy_bytes]
      exact List.prefix_append _ _

/-- The fuel `Recv` gives its loop is enough: each turn that goes on takes a
message off the queue, so more fuel changes nothing. -/
theorem recvLoop_succ_fuel (wantCreds : Bool) (numRights : ℤ) :
    ∀ (fuel : ℕ) (st : RecvState), st.r.readQueue.dataList.length < fuel →
      recvLoop wantCreds numRights (fuel + 1) st = recvLoop wantCreds numRights fuel st
  | 0, st, h => absurd h (Nat.not_lt_zero _)
  | fuel + 1, st, h => by
    conv_lhs => rw [recvLoop]
    conv_rhs => rw [recvLoop]
    split_ifs
    · rfl
    split
    · rfl
    rename_i m n q hq
    obtain ⟨rest, hd, rfl⟩ := dequeue_eq_ok hq
    dsimp only
    split_ifs
    · rfl
    · rfl
    · apply recvLoop_succ_fuel
      simp only [takeRights_readQueue, copy_readQueue, Receiver.fill]
      rw [hd] at h
      simp only [List.length_cons] at h
      omega

theorem recv_peek_eq_ok {r r' : Receiver} {data : List ℕ} {wantCreds : Bool} {numRights : ℤ}
    {res : RecvResult} {rel : List Rights}
    (h : r.recv data wantCreds numRights true = .ok (res, rel, r')) :
    (∃ n, r.load = .ok (n, r')) ∧ rel = [] ∧
      res.bytes = r'.buffer.take (vecCopy data r'.buffer).1 := by
  unfold Receiver.recv at h
  split at h
  · cases h
  rename_i n r₀ hl
  simp only [↓reduceIte, Except.ok.injEq, Prod.mk.injEq] at h
  obtain ⟨rfl, rfl, rfl⟩ := h
  exact ⟨⟨n, hl⟩, rfl, rfl⟩

/-- A receive that finds bytes in the buffer returns, and starts with the
bytes a peek of the same slices returns. -/
theorem recv_of_buffer_ne_nil {r : Receiver} (hb : r.buffer ≠ []) (data : List ℕ)
    (wantCreds : Bool) (numRights : ℤ) :
    ∃ res rel r', r.recv data wantCreds numRights false = .ok (res, rel, r') ∧
      r.buffer.take (vecCopy data r.buffer).1 <+: res.bytes := by
  have hl : r.load = .ok (false, r) := by simp [Receiver.load, hb]
  refine ⟨_, _, _, by simp only [Receiver.recv, hl, Bool.false_eq_true, ↓reduceIte]; rfl, ?_⟩
  refine List.IsPrefix.trans ?_ (bytes_prefix_recvLoop wantCreds numRights _ _)
  rw [recvStart_eq, takeRights_bytes, copy_bytes]
  exact List.prefix_refl _

end Spec

end Unix
