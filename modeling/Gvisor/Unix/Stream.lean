import Mathlib
import Gvisor.Unix.Transport
import Gvisor.Lib.Reachable

/-! One direction of a connected `SOCK_STREAM` unix socket: stream sends into
the queue, and receives, peeking or not, out of it through the
`streamQueueReceiver`. A run is any interleaving of such calls that return.

Beside the receiver the state keeps what went through it: the messages the
queue accepted, the bytes receives returned, and the sets of rights handed to
a receiver or released. The invariant `Inv` says the receiver holds exactly
what has not been read: what receives returned, then the rest of the buffer,
then the queue, is the accepted stream; each accepted set of rights was
handed out once or is still held, and a set still held in the buffer's
control messages belongs to a message none of whose bytes has been returned.
A receive is built from two moves, the load of a message into the empty
buffer and the taking of bytes with the rights of their message, and keeps
`Inv` because each move does. -/

namespace Unix

/-- The bytes of a message, each with the credentials it was sent with. -/
def Message.tagged (m : Message) : List (UInt8 × Option Credentials) :=
  m.data.map (·, m.control.credentials)

/-- The bytes not yet read, with their credentials: the rest of the buffer,
then the queue. -/
def Receiver.pending (r : Receiver) : List (UInt8 × Option Credentials) :=
  r.buffer.map (·, r.control.credentials) ++ r.readQueue.dataList.flatMap Message.tagged

/-- The sets of rights not yet handed out: the buffer's, then the queue's. -/
def Receiver.held (r : Receiver) : List Rights :=
  r.control.rights.toList ++ r.readQueue.dataList.filterMap (·.control.rights)

/-- The receiving end of a connection, and what has gone through it. -/
structure Conn where
  rcv : Receiver
  accepted : List Message
  returned : List UInt8
  delivered : List Rights
  released : List Rights

/-- A connection whose queue holds at most `limit` bytes, before any call. -/
def newConn (limit : ℤ) : Conn :=
  ⟨⟨⟨false, 0, limit, []⟩, [], ⟨none, none⟩, ""⟩, [], [], [], []⟩

/-- The connection once a send has left the queue `q`: what it added to the
queue is what was accepted. -/
def Conn.afterSend (c : Conn) (q : Queue) : Conn :=
  { c with
    rcv := { c.rcv with readQueue := q }
    accepted := c.accepted ++ q.dataList.drop c.rcv.readQueue.dataList.length }

/-- The connection once a receive has returned `res`, released `released`,
and left the receiver `r`. -/
def Conn.afterRecv (c : Conn) (res : RecvResult) (released : List Rights) (r : Receiver) :
    Conn :=
  ⟨r, c.accepted, c.returned ++ res.bytes, c.delivered ++ res.control.rights.toList,
    c.released ++ released⟩

inductive Step : Conn → Conn → Prop
  | send (c : Conn) (data : List (List UInt8)) (control : ControlMessages) (fromAddr : Address) :
      Step c (c.afterSend (send c.rcv.readQueue .stream data control fromAddr).2.2)
  | recv (c : Conn) (data : List ℕ) (wantCreds : Bool) (numRights : ℤ) (res : RecvResult)
      (released : List Rights) (r : Receiver)
      (h : c.rcv.recv data wantCreds numRights false = .ok (res, released, r)) :
      Step c (c.afterRecv res released r)
  | peek (c : Conn) (data : List ℕ) (wantCreds : Bool) (numRights : ℤ) (res : RecvResult)
      (released : List Rights) (r : Receiver)
      (h : c.rcv.recv data wantCreds numRights true = .ok (res, released, r)) :
      Step c { c with rcv := r }

def Reachable (limit : ℤ) : Conn → Prop := Transition.Reachable (· = newConn limit) Step

/-- A move of a receive: `k` bytes of the buffer are handed out, and the
rights of its message with them, to the caller when `deliver` holds and
released otherwise. -/
def Conn.take (c : Conn) (k : ℕ) (deliver : Bool) : Conn where
  rcv := { c.rcv with
    buffer := c.rcv.buffer.drop k
    control := { c.rcv.control with rights := none } }
  accepted := c.accepted
  returned := c.returned ++ c.rcv.buffer.take k
  delivered := c.delivered ++ if deliver then c.rcv.control.rights.toList else []
  released := c.released ++ if deliver then [] else c.rcv.control.rights.toList

theorem pending_take (c : Conn) (k : ℕ) (deliver : Bool) :
    c.rcv.pending = (c.rcv.buffer.take k).map (·, c.rcv.control.credentials) ++
      (c.take k deliver).rcv.pending := by
  simp only [Receiver.pending, Conn.take, ← List.append_assoc, ← List.map_append,
    List.take_append_drop]

section Moves

variable {r : Receiver} {m : Message} {q : Queue}

theorem pending_fill (hb : r.buffer = []) (hq : r.readQueue.dataList = m :: q.dataList) :
    (r.fill q m).pending = r.pending := by
  simp [Receiver.pending, Receiver.fill, Message.tagged, hb, hq]

theorem held_fill (hc : r.control.rights = none) (hq : r.readQueue.dataList = m :: q.dataList) :
    (r.fill q m).held = r.held := by
  simp only [Receiver.held, Receiver.fill, hc, hq, List.filterMap_cons]
  cases m.control.rights <;> rfl

end Moves

structure Inv (c : Conn) : Prop where
  queued : ∃ P, c.accepted = P ++ c.rcv.readQueue.dataList
  current : c.rcv.buffer ≠ [] → ∃ P m pre,
    c.accepted = P ++ m :: c.rcv.readQueue.dataList ∧ m.data = pre ++ c.rcv.buffer ∧
      m.control.credentials = c.rcv.control.credentials ∧
      (c.rcv.control.rights = none ∨ pre = [] ∧ c.rcv.control.rights = m.control.rights)
  drained : c.rcv.buffer = [] → c.rcv.control.rights = none
  stream : ∃ T, c.accepted.flatMap Message.tagged = T ++ c.rcv.pending ∧ T.map Prod.fst = c.returned
  rights : (c.accepted.filterMap (·.control.rights)).Perm (c.delivered ++ c.released ++ c.rcv.held)
  nonempty : ∀ m ∈ c.rcv.readQueue.dataList, m.data ≠ []
  used : c.rcv.readQueue.used = (c.rcv.readQueue.dataList.map Message.length).sum
  le_limit : c.rcv.readQueue.used ≤ c.rcv.readQueue.limit

theorem Inv.init {limit : ℤ} (h : 0 ≤ limit) : Inv (newConn limit) where
  queued := ⟨[], rfl⟩
  current := fun h => absurd rfl h
  drained := fun _ => rfl
  stream := ⟨[], rfl, rfl⟩
  rights := by simp [newConn, Receiver.held]
  nonempty := by simp [newConn]
  used := rfl
  le_limit := h

section Inv

variable {c : Conn}

/-- Queueing a message that fits keeps the invariant. -/
theorem Inv.enqueue {m : Message} (hc : Inv c) (hm : m.data ≠ [])
    (hle : c.rcv.readQueue.used + m.length ≤ c.rcv.readQueue.limit) :
    Inv { c with
      rcv := { c.rcv with readQueue := { c.rcv.readQueue with
        used := c.rcv.readQueue.used + m.length
        dataList := c.rcv.readQueue.dataList ++ [m] } }
      accepted := c.accepted ++ [m] } where
  queued := by
    obtain ⟨P, hP⟩ := hc.queued
    exact ⟨P, by simp [hP]⟩
  current := by
    intro hb
    obtain ⟨P, m₀, pre, hP, hd, hcr, hr⟩ := hc.current hb
    exact ⟨P, m₀, pre, by simp [hP], hd, hcr, hr⟩
  drained := hc.drained
  stream := by
    obtain ⟨T, hT, hTr⟩ := hc.stream
    refine ⟨T, ?_, hTr⟩
    simp only [List.flatMap_append, hT, Receiver.pending, List.append_assoc]
  rights := by
    have h := hc.rights.append_right ((m.control.rights).toList)
    simp only [Receiver.held, List.filterMap_append, List.append_assoc] at h ⊢
    cases hr : m.control.rights <;> simpa [hr] using h
  nonempty := by
    intro m' hm'
    rcases List.mem_append.1 hm' with h | h
    · exact hc.nonempty m' h
    · rw [List.mem_singleton.1 h]
      exact hm
  used := by
    simp [hc.used]
  le_limit := hle

theorem Conn.afterSend_self (c : Conn) : c.afterSend c.rcv.readQueue = c := by
  simp [Conn.afterSend]

/-- A stream send keeps the invariant. -/
theorem Inv.send (hc : Inv c) (data : List (List UInt8)) (control : ControlMessages)
    (fromAddr : Address) :
    Inv (c.afterSend (send c.rcv.readQueue .stream data control fromAddr).2.2) := by
  rcases send_stream_cases c.rcv.readQueue data control fromAddr with
    ⟨-, h⟩ | ⟨k, hk0, hk, -, hle, h⟩
  · rw [h, Conn.afterSend_self]
    exact hc
  · have hkl : k ≤ data.flatten.length := by omega
    have hlen : (⟨data.flatten.take k, control, fromAddr⟩ : Message).length = k := by
      simp only [Message.length, List.length_take, Nat.min_eq_left hkl]
    have hne : (⟨data.flatten.take k, control, fromAddr⟩ : Message).data ≠ [] := by
      apply List.ne_nil_of_length_pos
      simp only [List.length_take]
      omega
    have h' := hc.enqueue hne (by rw [hlen]; exact hle)
    rw [hlen] at h'
    rw [h]
    simpa [Conn.afterSend] using h'

/-- Loading a message into the empty buffer keeps the invariant. -/
theorem Inv.load {m : Message} {n : Bool} {q : Queue} (hc : Inv c) (hb : c.rcv.buffer = [])
    (hq : c.rcv.readQueue.dequeue = .ok (m, n, q)) : Inv { c with rcv := c.rcv.fill q m } := by
  obtain ⟨rest, hd, rfl⟩ := dequeue_eq_ok hq
  obtain ⟨P, hP⟩ := hc.queued
  have hm : m.data ≠ [] := hc.nonempty m (by simp [hd])
  have hq' : c.rcv.readQueue.dataList = m :: ({ c.rcv.readQueue with
      dataList := rest, used := c.rcv.readQueue.used - m.length } : Queue).dataList := hd
  refine ⟨⟨P ++ [m], by simp [hP, hd, Receiver.fill]⟩, fun _ => ⟨P, m, [], ?_, rfl, rfl,
    .inr ⟨rfl, rfl⟩⟩, fun h => absurd h hm, ?_, ?_, ?_, ?_, ?_⟩
  · simp [hP, hd, Receiver.fill]
  · obtain ⟨T, hT, hTr⟩ := hc.stream
    exact ⟨T, by rw [hT, pending_fill hb hq'], hTr⟩
  · rw [show ({ c with rcv := c.rcv.fill _ m } : Conn).rcv.held = c.rcv.held from
      held_fill (hc.drained hb) hq']
    exact hc.rights
  · intro m' hm'
    exact hc.nonempty m' (by simp [hd, Receiver.fill] at hm' ⊢; exact .inr hm')
  · have h := hc.used
    simp only [hd, List.map_cons, List.sum_cons] at h
    simp only [Receiver.fill]
    omega
  · have h := hc.le_limit
    have h0 : (0 : ℤ) ≤ m.length := Int.natCast_nonneg _
    simp only [Receiver.fill]
    omega

/-- Taking bytes of the buffer, and the rights of their message, keeps the
invariant. -/
theorem Inv.take (hc : Inv c) (k : ℕ) (deliver : Bool) : Inv (c.take k deliver) where
  queued := hc.queued
  current := by
    intro hb
    have hb' : c.rcv.buffer ≠ [] := fun h => hb (by simp [Conn.take, h])
    obtain ⟨P, m, pre, hP, hd, hcr, -⟩ := hc.current hb'
    refine ⟨P, m, pre ++ c.rcv.buffer.take k, hP, ?_, hcr, .inl rfl⟩
    simp only [Conn.take, List.append_assoc, List.take_append_drop]
    exact hd
  drained := fun _ => rfl
  stream := by
    obtain ⟨T, hT, hTr⟩ := hc.stream
    refine ⟨T ++ (c.rcv.buffer.take k).map (·, c.rcv.control.credentials), ?_, ?_⟩
    · rw [List.append_assoc, ← pending_take c k deliver]
      exact hT
    · simp [Conn.take, hTr, Function.comp_def]
  rights := by
    have h := hc.rights
    simp only [Conn.take, Receiver.held, List.append_assoc] at h ⊢
    cases deliver
    · simpa using h
    · simpa using h.trans (List.Perm.append_left _ (List.perm_append_comm_assoc _ _ _))
  nonempty := hc.nonempty
  used := hc.used
  le_limit := hc.le_limit

end Inv

/-- The connection in the middle of a receive from `c`, at the loop state
`st`: the rights `st.c` holds are the caller's. -/
def RecvState.view (st : RecvState) (c : Conn) : Conn :=
  ⟨st.r, c.accepted, c.returned ++ st.bytes, c.delivered ++ st.c.rights.toList,
    c.released ++ st.released⟩

section Loop

variable (c : Conn) (wantCreds : Bool) (numRights : ℤ)

/-- What holds of every state of the loop of `Recv` from `c`: the bytes it
has taken are the first of what `c` had not read, and with `wantCreds` they
carry the credentials it returns. -/
structure LoopPost (st : RecvState) : Prop where
  inv : Inv (st.view c)
  consumed : ∃ t, c.rcv.pending = t ++ st.r.pending ∧ t.map Prod.fst = st.bytes ∧
    (wantCreds = true → ∀ x ∈ t, x.2 = st.c.credentials)
  truncated : st.cmTruncated = true ↔ st.released ≠ []
  released : st.released ≠ [] → numRights = 0

/-- What holds at the top of the loop: once there is room and no rights, the
buffer is empty. -/
structure LoopPre (st : RecvState) : Prop extends LoopPost c wantCreds numRights st where
  haveRights : st.haveRights = st.c.rights.isSome
  drained : st.haveRights = false → st.data ≠ [] → st.r.buffer = []

/-- A turn that copies from the buffer and takes the rights of its message is
the move `Conn.take` of the connection in the middle of the receive. -/
theorem view_takeRights_copy (st : RecvState) (hr : st.c.rights = none) :
    (st.copy.1.takeRights numRights).view c =
      (st.view c).take st.copy.2 (decide (numRights ≠ 0)) := by
  rw [copy_eq]
  rcases st with ⟨data, ⟨rq, buf, ⟨rights, creds⟩, addr⟩, copied, bytes, ⟨crights, ccreds⟩,
    cmT, haveR, notify, rel⟩
  simp only at hr
  subst hr
  cases rights with
  | none => simp [RecvState.takeRights, RecvState.view, Conn.take]
  | some x =>
    by_cases h0 : numRights = 0 <;> simp [RecvState.takeRights, RecvState.view, Conn.take, h0]

variable {c wantCreds numRights}

theorem credentials_of_joinBreaks {c next : ControlMessages}
    (h : joinBreaks wantCreds numRights c next = false) (hw : wantCreds = true) :
    next.credentials = c.credentials := by
  subst hw
  cases hn : next.credentials <;> cases hc : c.credentials <;> simp_all [joinBreaks]

theorem LoopPost.with_data {st : RecvState} (h : LoopPost c wantCreds numRights st)
    (d : List ℕ) : LoopPost c wantCreds numRights { st with data := d } :=
  ⟨h.inv, h.consumed, h.truncated, h.released⟩


theorem LoopPre.fill {st : RecvState} {m : Message} {n : Bool} {q : Queue}
    (h : LoopPre c wantCreds numRights st) (hst : st.haveRights = false) (hd : st.data ≠ [])
    (hq : st.r.readQueue.dequeue = .ok (m, n, q)) :
    LoopPost c wantCreds numRights { st with notify := st.notify || n, r := st.r.fill q m } := by
  have hb := h.drained hst hd
  obtain ⟨rest, hd', hq'⟩ := dequeue_eq_ok hq
  have hdl : st.r.readQueue.dataList = m :: q.dataList := by rw [hd', hq']
  obtain ⟨t, ht, htb, htc⟩ := h.consumed
  exact ⟨h.inv.load hb hq, ⟨t, by rw [ht, ← pending_fill hb hdl], htb, htc⟩, h.truncated,
    h.released⟩

/-- The bytes of a turn join those already taken, with the credentials of
the buffer's message. -/
theorem LoopPost.join {st : RecvState} (h : LoopPost c wantCreds numRights st)
    (hh : st.haveRights = false) (hr : st.c.rights = none)
    (hcr : wantCreds = true → st.r.control.credentials = st.c.credentials) :
    LoopPre c wantCreds numRights (st.copy.1.takeRights numRights) := by
  have hv := view_takeRights_copy c numRights st hr
  have hrcv : (st.copy.1.takeRights numRights).r =
      ((st.view c).take st.copy.2 (decide (numRights ≠ 0))).rcv := congrArg Conn.rcv hv
  obtain ⟨t, ht, htb, htc⟩ := h.consumed
  have hdr : (vecCopy st.data st.r.buffer).2.1 ≠ [] →
      st.r.buffer.drop (vecCopy st.data st.r.buffer).1 = [] := by
    rw [← vecCopy_snd_snd]
    exact vecCopy_drained _ _
  refine ⟨⟨by rw [hv]; exact h.inv.take _ _, ?_, ?_, ?_⟩, ?_,
    fun _ hne => by simpa using hdr (by simpa using hne)⟩
  · refine ⟨t ++ (st.r.buffer.take st.copy.2).map (·, st.r.control.credentials), ?_, ?_, ?_⟩
    · rw [ht, hrcv, List.append_assoc]
      exact congrArg (t ++ ·) (pending_take (st.view c) _ _)
    · simp [htb, Function.comp_def]
    · intro hw x hx
      rw [takeRights_credentials, copy_c]
      rcases List.mem_append.1 hx with hx | hx
      · exact htc hw x hx
      · obtain ⟨b, -, rfl⟩ := List.mem_map.1 hx
        exact hcr hw
  all_goals rcases takeRights_cases numRights st.copy.1 with
    ⟨-, he⟩ | ⟨x, -, ⟨h0, hrel, htr, hc, hhr⟩ | ⟨h0, hrel, htr, hc, hhr⟩⟩
  -- no rights: the state is that of the copy
  · simpa [he] using h.truncated
  · simp [hrel, htr]
  · simpa [hrel, htr] using h.truncated
  · simpa [he] using h.released
  · simp [h0]
  · simpa [hrel] using h.released
  · simp [he, hh, hr]
  · simp [hhr, hc, hh, hr]
  · simp [hhr, hc]

theorem recvLoop_post : ∀ (fuel : ℕ) (st : RecvState), LoopPre c wantCreds numRights st →
    LoopPost c wantCreds numRights (recvLoop wantCreds numRights fuel st)
  | 0, st, h => h.toLoopPost
  | fuel + 1, st, h => by
    unfold recvLoop
    split_ifs with hstop
    · exact h.toLoopPost
    have hst : st.haveRights = false := by simpa using (not_or.1 hstop).1
    have hd : st.data ≠ [] := (not_or.1 hstop).2
    split
    · exact h.toLoopPost
    rename_i m n q hq
    have h1 := h.fill hst hd hq
    dsimp only
    split_ifs with hj
    · exact h1
    · rw [copy_of_zero _ ‹_›]
      exact h1.with_data _
    · have hr : st.c.rights = none := by
        have := h.haveRights
        rw [hst] at this
        cases hc : st.c.rights with
        | none => rfl
        | some x => simp [hc] at this
      have hj' : joinBreaks wantCreds numRights st.c m.control = false := by simpa using hj
      exact recvLoop_post fuel _ (h1.join hst hr (credentials_of_joinBreaks hj'))

theorem LoopPost.empty (hc : Inv c) (data : List ℕ) (credentials : Option Credentials)
    (notify : Bool) :
    LoopPost c wantCreds numRights
      ⟨data, c.rcv, 0, [], ⟨none, credentials⟩, false, false, notify, []⟩ := by
  have hv : RecvState.view ⟨data, c.rcv, 0, [], ⟨none, credentials⟩, false, false, notify, []⟩ c =
      c := by
    simp [RecvState.view]
  refine ⟨by rw [hv]; exact hc, ⟨[], rfl, rfl, by simp⟩, by simp, by simp⟩

/-- The loop's facts do not read the receiver of the connection it started
from, only what it had not read. -/
theorem LoopPost.of_pending {r : Receiver} {st : RecvState}
    (h : LoopPost { c with rcv := r } wantCreds numRights st) (hp : r.pending = c.rcv.pending) :
    LoopPost c wantCreds numRights st :=
  ⟨h.inv, by rw [← hp]; exact h.consumed, h.truncated, h.released⟩

/-- A receive loads a message when the buffer is empty, which keeps the
invariant and what is left to read. -/
theorem Inv.load_ok {n : Bool} {r : Receiver} (hc : Inv c) (h : c.rcv.load = .ok (n, r)) :
    Inv { c with rcv := r } ∧ r.pending = c.rcv.pending := by
  rcases load_eq_ok h with ⟨-, -, rfl⟩ | ⟨hb, m, q, hq, rfl⟩
  · exact ⟨hc, rfl⟩
  · obtain ⟨rest, hd, hq'⟩ := dequeue_eq_ok hq
    exact ⟨hc.load hb hq, pending_fill hb (by rw [hd, hq'])⟩

/-- A receive that does not peek ends in a state of its loop from `c`. -/
theorem Inv.recv {data : List ℕ} {res : RecvResult} {rel : List Rights} {r : Receiver}
    (hc : Inv c) (h : c.rcv.recv data wantCreds numRights false = .ok (res, rel, r)) :
    ∃ st, LoopPost c wantCreds numRights st ∧ c.afterRecv res rel r = st.view c ∧
      res.bytes = st.bytes ∧ res.control = st.c ∧ res.cmTruncated = st.cmTruncated ∧
      rel = st.released := by
  unfold Receiver.recv at h
  split at h
  · cases h
  rename_i notify r₀ hl
  simp only [Bool.false_eq_true, ↓reduceIte, Except.ok.injEq, Prod.mk.injEq] at h
  obtain ⟨rfl, rfl, rfl⟩ := h
  obtain ⟨hc₀, hp⟩ := hc.load_ok hl
  have hpre : LoopPre { c with rcv := r₀ } wantCreds numRights
      (recvStart r₀ data wantCreds numRights notify) := by
    rw [recvStart_eq]
    exact (LoopPost.empty hc₀ data _ notify).join rfl rfl (fun hw => by simp [hw])
  exact ⟨_, (recvLoop_post _ _ hpre).of_pending hp, rfl, rfl, rfl, rfl, rfl⟩

end Loop

section Run

variable {c c' : Conn}

theorem Inv.peek {data : List ℕ} {wantCreds : Bool} {numRights : ℤ} {res : RecvResult}
    {rel : List Rights} {r : Receiver} (hc : Inv c)
    (h : c.rcv.recv data wantCreds numRights true = .ok (res, rel, r)) :
    Inv { c with rcv := r } := by
  obtain ⟨⟨n, hl⟩, -, -⟩ := recv_peek_eq_ok h
  exact (hc.load_ok hl).1

theorem Inv.step (hc : Inv c) (hs : Step c c') : Inv c' := by
  cases hs with
  | send data control fromAddr => exact hc.send data control fromAddr
  | recv data wantCreds numRights res rel r h =>
    obtain ⟨st, hst, heq, -⟩ := hc.recv h
    rw [heq]
    exact hst.inv
  | peek data wantCreds numRights res rel r h => exact hc.peek h

theorem Reachable.inv {limit : ℤ} (hl : 0 ≤ limit) (h : Reachable limit c) : Inv c :=
  Transition.Reachable.invariant Inv (by rintro _ rfl; exact Inv.init hl)
    (fun _ _ hc hs => hc.step hs) h

theorem flatMap_tagged_fst (L : List Message) :
    (L.flatMap Message.tagged).map Prod.fst = L.flatMap Message.data := by
  induction L with
  | nil => rfl
  | cons m L ih => simp [Message.tagged, ih, Function.comp_def]

/-- What receives returned is the start of the accepted stream, and the rest
is what the receiver holds. -/
theorem Inv.stream_eq (hc : Inv c) :
    c.accepted.flatMap Message.data = c.returned ++ c.rcv.pending.map Prod.fst := by
  obtain ⟨T, hT, hTr⟩ := hc.stream
  rw [← flatMap_tagged_fst, hT, List.map_append, hTr]

/-- What a receive has not read, with its credentials. -/
theorem Inv.drop_returned (hc : Inv c) :
    (c.accepted.flatMap Message.tagged).drop c.returned.length = c.rcv.pending := by
  obtain ⟨T, hT, hTr⟩ := hc.stream
  have hl : T.length = c.returned.length := by rw [← hTr, List.length_map]
  rw [hT, ← hl, List.drop_left]

/-- A set of rights still in the buffer's control messages belongs to the
message in the buffer, none of whose bytes has been returned. -/
theorem Inv.rights_unread (hc : Inv c) {x : Rights} (hx : c.rcv.control.rights = some x) :
    ∃ P m, c.accepted = P ++ m :: c.rcv.readQueue.dataList ∧ m.control.rights = some x ∧
      c.returned = P.flatMap Message.data := by
  have hb : c.rcv.buffer ≠ [] := fun hb => by simp [hc.drained hb] at hx
  obtain ⟨P, m, pre, hP, hd, hcr, hr⟩ := hc.current hb
  obtain ⟨rfl, hmr⟩ : pre = [] ∧ c.rcv.control.rights = m.control.rights := by
    rcases hr with hr | hr
    · simp [hr] at hx
    · exact hr
  refine ⟨P, m, hP, hmr ▸ hx, ?_⟩
  obtain ⟨T, hT, hTr⟩ := hc.stream
  have hm : m.tagged = c.rcv.buffer.map (·, c.rcv.control.credentials) := by
    rw [Message.tagged, hd, hcr, List.nil_append]
  have hTP : T = P.flatMap Message.tagged := by
    rw [hP, List.flatMap_append, List.flatMap_cons, hm, Receiver.pending] at hT
    exact (List.append_cancel_right hT).symm
  rw [← hTr, hTP, flatMap_tagged_fst]

/-- What a receive returns is the start of what had not been read, with the
credentials of the messages the bytes came from. -/
theorem Inv.recv_taken {data : List ℕ} {wantCreds : Bool} {numRights : ℤ} {res : RecvResult}
    {rel : List Rights} {r : Receiver} (hc : Inv c)
    (h : c.rcv.recv data wantCreds numRights false = .ok (res, rel, r)) :
    (((c.accepted.flatMap Message.tagged).drop c.returned.length).take res.bytes.length).map
        Prod.fst = res.bytes ∧
      (wantCreds = true → ∀ x ∈ ((c.accepted.flatMap Message.tagged).drop c.returned.length).take
        res.bytes.length, x.2 = res.control.credentials) := by
  obtain ⟨st, hst, -, hb, hctl, -, -⟩ := hc.recv h
  obtain ⟨t, ht, htb, htc⟩ := hst.consumed
  have hl : res.bytes.length = t.length := by rw [hb, ← htb, List.length_map]
  have htake : ((c.accepted.flatMap Message.tagged).drop c.returned.length).take
      res.bytes.length = t := by
    rw [hc.drop_returned, ht, hl, List.take_left]
  rw [htake, htb, hb, hctl]
  exact ⟨rfl, htc⟩

/-- A peek leaves bytes in the buffer, so the receive after it, whatever sends
did to the queue meanwhile, returns and starts with what the peek returned. -/
theorem Inv.peek_prefix {data : List ℕ} {wantCreds : Bool} {numRights : ℤ} {res : RecvResult}
    {rel : List Rights} {r : Receiver} (hc : Inv c)
    (h : c.rcv.recv data wantCreds numRights true = .ok (res, rel, r)) (q : Queue) :
    ∃ res' rel' r', ({ r with readQueue := q } : Receiver).recv data wantCreds numRights false =
      .ok (res', rel', r') ∧ res.bytes <+: res'.bytes := by
  obtain ⟨⟨n, hl⟩, -, hb⟩ := recv_peek_eq_ok h
  have hne : r.buffer ≠ [] := by
    rcases load_eq_ok hl with ⟨hb', -, rfl⟩ | ⟨-, m, q', hq, rfl⟩
    · exact hb'
    · obtain ⟨rest, hd, -⟩ := dequeue_eq_ok hq
      exact hc.nonempty m (by simp [hd])
  rw [hb]
  exact recv_of_buffer_ne_nil (r := { r with readQueue := q }) hne data wantCreds numRights

end Run

/-- A connected stream socket, over any run of stream sends and of receives
that peek or not: a send accepts the first bytes of its data, as many as fit;
receives return a prefix of the accepted stream; each accepted set of rights
is handed to a receiver or released exactly once, or is still held, and while
the buffer holds it none of its message's bytes has been returned; a receive
that releases rights reports it, and with `wantCreds` returns bytes that all
carry the credentials it reports; a peek returns the start of what the next
receive returns; the queue's `used` is the length of what it holds, within
its limit. -/
theorem reachable_stream_delivery (limit : ℤ) (hlimit : 0 ≤ limit) :
    (∀ (c : Conn) (data : List (List UInt8)) (control : ControlMessages) (fromAddr : Address),
      ((send c.rcv.readQueue .stream data control fromAddr).1.1 = 0 ∧
          (c.afterSend (send c.rcv.readQueue .stream data control fromAddr).2.2).accepted =
            c.accepted) ∨
        ∃ k : ℕ, 0 < k ∧
          (k : ℤ) = min (data.flatten.length : ℤ) (c.rcv.readQueue.limit - c.rcv.readQueue.used) ∧
          (send c.rcv.readQueue .stream data control fromAddr).1.1 = k ∧
          (c.afterSend (send c.rcv.readQueue .stream data control fromAddr).2.2).accepted =
            c.accepted ++ [⟨data.flatten.take k, control, fromAddr⟩]) ∧
    ∀ c, Reachable limit c →
      c.returned <+: c.accepted.flatMap Message.data ∧
      (c.accepted.filterMap (·.control.rights)).Perm (c.delivered ++ c.released ++ c.rcv.held) ∧
      (∀ x, c.rcv.control.rights = some x → ∃ P m,
        c.accepted = P ++ m :: c.rcv.readQueue.dataList ∧ m.control.rights = some x ∧
          c.returned = P.flatMap Message.data) ∧
      c.rcv.readQueue.used = (c.rcv.readQueue.dataList.map Message.length).sum ∧
      c.rcv.readQueue.used ≤ c.rcv.readQueue.limit ∧
      (∀ (data : List ℕ) (wantCreds : Bool) (numRights : ℤ) (res : RecvResult)
        (rel : List Rights) (r : Receiver),
        c.rcv.recv data wantCreds numRights false = .ok (res, rel, r) →
          (res.cmTruncated = true ↔ rel ≠ []) ∧ (rel ≠ [] → numRights = 0) ∧
          (((c.accepted.flatMap Message.tagged).drop c.returned.length).take
            res.bytes.length).map Prod.fst = res.bytes ∧
          (wantCreds = true → ∀ x ∈ ((c.accepted.flatMap Message.tagged).drop
            c.returned.length).take res.bytes.length, x.2 = res.control.credentials)) ∧
      (∀ (data : List ℕ) (wantCreds : Bool) (numRights : ℤ) (res : RecvResult)
        (rel : List Rights) (r : Receiver),
        c.rcv.recv data wantCreds numRights true = .ok (res, rel, r) →
          rel = [] ∧ ∀ q : Queue, ∃ res' rel' r',
            ({ r with readQueue := q } : Receiver).recv data wantCreds numRights false =
              .ok (res', rel', r') ∧ res.bytes <+: res'.bytes) := by
  refine ⟨fun c data control fromAddr => ?_, fun c hr => ?_⟩
  · rcases send_stream_cases c.rcv.readQueue data control fromAddr with
      ⟨h0, h⟩ | ⟨k, hk0, hk, h1, -, h⟩
    · refine .inl ⟨h0, ?_⟩
      rw [h, Conn.afterSend_self]
    · refine .inr ⟨k, hk0, hk, h1, ?_⟩
      rw [h]
      simp [Conn.afterSend]
  have hc := Reachable.inv hlimit hr
  refine ⟨?_, hc.rights, fun x hx => hc.rights_unread hx, hc.used, hc.le_limit, ?_, ?_⟩
  · rw [hc.stream_eq]
    exact List.prefix_append _ _
  · intro data wantCreds numRights res rel r h
    obtain ⟨st, hst, -, -, -, htr, hrel⟩ := hc.recv h
    rw [htr, hrel]
    exact ⟨hst.truncated, hst.released, hc.recv_taken h⟩
  · intro data wantCreds numRights res rel r h
    exact ⟨(recv_peek_eq_ok h).2.1, hc.peek_prefix h⟩

/-- A 20-byte write to a connection whose queue holds 16: the first 16 bytes are
queued. -/
theorem reachable_stream_delivery_partial_send :
    (0 : ℤ) ≤ 16 ∧
    ((newConn 16).afterSend (send (newConn 16).rcv.readQueue .stream [List.replicate 20 7]
        ⟨none, none⟩ "").2.2).rcv.readQueue.used ≤
      ((newConn 16).afterSend (send (newConn 16).rcv.readQueue .stream [List.replicate 20 7]
        ⟨none, none⟩ "").2.2).rcv.readQueue.limit :=
  ⟨by decide, ((reachable_stream_delivery 16 (by decide)).2 _
    (Transition.Reachable.tail (Transition.Reachable.of_init rfl : Reachable 16 (newConn 16))
      (Step.send _ [List.replicate 20 7] ⟨none, none⟩ ""))).2.2.2.2.1⟩

end Unix
