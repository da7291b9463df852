import Mathlib
import Gvisor.Tty.Invariant
import Gvisor.Tty.Output

/-! The line discipline of a pty as a state machine: its termios, the column
of the output transformer and its two queues, changed by the writes and reads
of the master and the slave and by `setTermios`.

The input queue holds a bounded amount, whatever the settings: the wait
buffer takes at most `waitBufMaxBytes`, because only `queue.write` adds to it,
and the read buffer at most `canonMaxBytes`, because the transformer stops
there. The output queue's wait buffer is empty between calls, as its
transformer takes every byte, and its read buffer has no bound: every write of
the slave is taken whole into it, and only the master's reads take bytes out.
The echo of input, which goes to the output queue through `writeBytes`, is
left out, as in `transform`; it only adds to the output queue's read buffer. -/

namespace Tty

open Syserror KernelTermios

/-- `queue.read` for the transformer `tr`. -/
def readWith {σ : Type} (tr : σ → Queue → List UInt8 → ℕ × σ × Queue) (st : σ) (q : Queue) (count : ℕ) :
    Except Errno (List UInt8 × Bool) × σ × Queue :=
  if !q.readable then (.error .errWouldBlock, st, q)
  else
    let count := min count canonMaxBytes
    let r := if count = 0 then ([], q) else readToBlocks q count
    let p := pushWaitBufLockedWith tr st r.2
    (.ok (r.1, decide (p.1 > 0)), p.2)

/-- `lineDiscipline.outputQueueRead`. -/
def outputQueueRead (t : KernelTermios) (column : ℕ) (q : Queue) (count : ℕ) :
    Except Errno (List UInt8) × ℕ × Queue :=
  match readWith (outputTransform t) column q count with
  | (.error e, r) => (.error e, r)
  | (.ok (data, _), r) => if data.length > 0 then (.ok data, r) else (.error .errWouldBlock, r)

/-- The fields of `lineDiscipline` its calls change. -/
structure LineDiscipline where
  termios : KernelTermios
  column : ℕ
  inQueue : Queue
  outQueue : Queue

/-- `newLineDiscipline`. -/
def newLineDiscipline (t : KernelTermios) : LineDiscipline := ⟨t, 0, Queue.empty, Queue.empty⟩

/-- The calls on a line discipline: `setTermios` with the settings it copied
in, which are all zero where the copy faulted. -/
inductive Call where
  | masterWrite (src : List UInt8)
  | slaveWrite (src : List UInt8)
  | masterRead (count : ℕ)
  | slaveRead (count : ℕ)
  | setTermios (t : KernelTermios)

namespace LineDiscipline

/-- `setTermios`: leaving canonical mode makes what is in the input queue
readable. -/
def setTermios (l : LineDiscipline) (t : KernelTermios) : LineDiscipline :=
  if l.termios.lEnabled icanon && !t.lEnabled icanon then
    { l with termios := t, inQueue := { (pushWaitBufLocked t l.inQueue).2 with readable := true } }
  else { l with termios := t }

/-- One call, with what it returns left out. -/
def call (l : LineDiscipline) : Call → LineDiscipline
  | .masterWrite src => { l with inQueue := (inputQueueWrite l.termios l.inQueue src).2 }
  | .slaveWrite src =>
    let r := outputQueueWrite l.termios l.column l.outQueue src
    { l with column := r.2.1, outQueue := r.2.2 }
  | .masterRead count =>
    let r := outputQueueRead l.termios l.column l.outQueue count
    { l with column := r.2.1, outQueue := r.2.2 }
  | .slaveRead count => { l with inQueue := (inputQueueRead l.termios l.inQueue count).2 }
  | .setTermios t => l.setTermios t

/-- The line discipline after the calls `cs`, one after another. -/
def run (l : LineDiscipline) (cs : List Call) : LineDiscipline := cs.foldl call l

end LineDiscipline

def LineDiscipline.Reachable (t : KernelTermios) : LineDiscipline → Prop :=
  Transition.Reachable (· = newLineDiscipline t) fun l l' => ∃ c, l' = l.call c

/-- What bounds the memory of the input queue, and the empty wait buffer of
the output queue. -/
structure Bounded (l : LineDiscipline) : Prop where
  inReadBuf : l.inQueue.readBuf.length ≤ canonMaxBytes
  inWaitBufLen : l.inQueue.waitBufLen ≤ waitBufMaxBytes
  outWaitBuf : l.outQueue.waitBuf = []
  outWaitBufLen : l.outQueue.waitBufLen = 0

section Input

/-- The input transformer's loop keeps the wait buffer and a read buffer of at
most `canonMaxBytes`, whatever the settings: it appends a character only
while it fits in `maxBytes`. -/
theorem transformLoop_bounded (t : KernelTermios) {maxBytes : ℕ} (hmax : maxBytes ≤ canonMaxBytes) :
    ∀ (fuel : ℕ) (buf : List UInt8) (ret : ℕ) (q : Queue), q.readBuf.length ≤ canonMaxBytes →
      (transformLoop t maxBytes fuel buf ret q).2.waitBuf = q.waitBuf ∧
        (transformLoop t maxBytes fuel buf ret q).2.waitBufLen = q.waitBufLen ∧
        (transformLoop t maxBytes fuel buf ret q).2.readBuf.length ≤ canonMaxBytes
  | 0, _, _, _, h => ⟨rfl, rfl, h⟩
  | _ + 1, [], _, _, h => ⟨rfl, rfl, h⟩
  | fuel + 1, c :: rest, ret, q, h => by
    have ih := transformLoop_bounded t hmax fuel
    obtain ⟨h1, -⟩ := peek_cons_bounds t c rest
    rw [transformLoop]
    dsimp only
    split
    · split
      · exact ih _ _ q h
      · rename_i c' _
        -- discarded, too long for the read buffer, end of file, appended
        split
        · exact ih _ _ q h
        · split
          · exact ⟨rfl, rfl, h⟩
          · rename_i hfit
            have hq : (q.readBuf ++ c' :: rest.take (peek t (c :: rest) - 1)).length ≤ canonMaxBytes := by
              simp only [List.length_append, List.length_cons, List.length_take]
              omega
            split
            · exact ⟨rfl, rfl, h⟩
            · split
              · exact ⟨rfl, rfl, hq⟩
              · exact ih _ _ _ hq
    · exact ⟨rfl, rfl, h⟩

theorem transform_bounded (t : KernelTermios) (q : Queue) (buf : List UInt8) (h : q.readBuf.length ≤ canonMaxBytes) :
    (transform t q buf).2.waitBuf = q.waitBuf ∧ (transform t q buf).2.waitBufLen = q.waitBufLen ∧
      (transform t q buf).2.readBuf.length ≤ canonMaxBytes := by
  unfold transform
  split
  · exact ⟨rfl, rfl, h⟩
  · dsimp only
    -- whichever bound the mode gives
    generalize hm : (if t.lEnabled icanon then canonMaxBytes else nonCanonMaxBytes) = maxBytes
    have hmax : maxBytes ≤ canonMaxBytes := by
      rw [← hm]
      split <;> simp [nonCanonMaxBytes]
    obtain ⟨hw, hl, hr⟩ := transformLoop_bounded t hmax buf.length buf 0 q h
    split <;> exact ⟨hw, hl, hr⟩

theorem pushLoop_bounded (t : KernelTermios) :
    ∀ (bs : List (List UInt8)) (total : ℕ) (q : Queue), q.readBuf.length ≤ canonMaxBytes →
      (pushLoop t bs total q).2.2.readBuf.length ≤ canonMaxBytes
  | [], _, _, h => h
  | b :: rest, total, q, h => by
    have hb := (transform_bounded t q b h).2.2
    rw [pushLoop]
    split
    · exact hb
    · exact pushLoop_bounded t rest _ _ hb

/-- Moving bytes out of the wait buffer keeps the read buffer's bound and
shortens the wait buffer. -/
theorem pushWaitBufLocked_bounded (t : KernelTermios) (q : Queue) (h : q.readBuf.length ≤ canonMaxBytes) :
    (pushWaitBufLocked t q).2.readBuf.length ≤ canonMaxBytes ∧
      (pushWaitBufLocked t q).2.waitBufLen ≤ q.waitBufLen := by
  unfold pushWaitBufLocked
  split
  · exact ⟨h, Nat.le_refl _⟩
  · exact ⟨pushLoop_bounded t q.waitBuf 0 q h, Nat.sub_le _ _⟩

/-- `queue.write` takes at most the room left, so the wait buffer stays within
`waitBufMaxBytes`. -/
theorem write_bounded (t : KernelTermios) (q : Queue) (src : List UInt8) (hr : q.readBuf.length ≤ canonMaxBytes)
    (hw : q.waitBufLen ≤ waitBufMaxBytes) :
    (write t q src).2.readBuf.length ≤ canonMaxBytes ∧ (write t q src).2.waitBufLen ≤ waitBufMaxBytes := by
  unfold write
  split
  · obtain ⟨h1, h2⟩ := pushWaitBufLocked_bounded t q hr
    exact ⟨h1, h2.trans hw⟩
  · dsimp only
    split
    · exact ⟨hr, hw⟩
    · have happ : (waitBufAppend q (src.take (waitBufMaxBytes - q.waitBufLen))).waitBufLen ≤ waitBufMaxBytes := by
        simp only [waitBufAppend, List.length_take]
        omega
      obtain ⟨h1, h2⟩ := pushWaitBufLocked_bounded t (waitBufAppend q (src.take (waitBufMaxBytes - q.waitBufLen))) hr
      exact ⟨h1, h2.trans happ⟩

theorem read_bounded (t : KernelTermios) (q : Queue) (count : ℕ) (hr : q.readBuf.length ≤ canonMaxBytes)
    (hw : q.waitBufLen ≤ waitBufMaxBytes) :
    (read t q count).2.readBuf.length ≤ canonMaxBytes ∧ (read t q count).2.waitBufLen ≤ waitBufMaxBytes := by
  unfold read
  split
  · exact ⟨hr, hw⟩
  · dsimp only
    -- the reader function only drops bytes from the front of the read buffer
    have hr' : (if min count canonMaxBytes = 0 then ([], q) else readToBlocks q (min count canonMaxBytes)).2.readBuf.length ≤
        canonMaxBytes ∧
        (if min count canonMaxBytes = 0 then ([], q) else readToBlocks q (min count canonMaxBytes)).2.waitBufLen ≤
          waitBufMaxBytes := by
      split
      · exact ⟨hr, hw⟩
      · simp only [readToBlocks, List.length_drop]
        omega
    obtain ⟨h1, h2⟩ := pushWaitBufLocked_bounded t _ hr'.1
    exact ⟨h1, h2.trans hr'.2⟩

end Input

section Output

variable {t : KernelTermios}

/-- The output queue's push loop takes every chunk whole. -/
theorem pushLoopWith_outputTransform :
    ∀ (bs : List (List UInt8)) (total column : ℕ) (q : Queue),
      (pushLoopWith (outputTransform t) bs total column q).1 = total + (bs.map List.length).sum ∧
        (pushLoopWith (outputTransform t) bs total column q).2.1 = []
  | [], _, _, _ => ⟨by simp [pushLoopWith], rfl⟩
  | b :: rest, total, column, q => by
    rw [pushLoopWith]
    rw [if_neg (by rw [outputTransform_fst]; exact not_not.2 rfl), outputTransform_fst]
    obtain ⟨h1, h2⟩ := pushLoopWith_outputTransform rest (total + b.length) (outputTransform t column q b).2.1
      (outputTransform t column q b).2.2
    refine ⟨by rw [h1, List.map_cons, List.sum_cons]; omega, h2⟩

/-- A queue with nothing waiting. -/
def Queue.Drained (q : Queue) : Prop := q.waitBuf = [] ∧ q.waitBufLen = 0

theorem pushWaitBufLockedWith_drained (column : ℕ) {q : Queue} (hq : q.Drained) :
    pushWaitBufLockedWith (outputTransform t) column q = (0, column, q) := by
  simp [pushWaitBufLockedWith, hq.2]

/-- A write of the slave appends its chunk to the empty wait buffer, and the
push takes it whole. -/
theorem writeWith_outputTransform (column : ℕ) {q : Queue} (hq : q.Drained) (src : List UInt8) (hs : src ≠ []) :
    writeWith (outputTransform t) column q src =
      (.ok (src.take waitBufMaxBytes).length,
        (outputTransform t column (waitBufAppend q (src.take waitBufMaxBytes)) (src.take waitBufMaxBytes)).2.1,
        { (outputTransform t column (waitBufAppend q (src.take waitBufMaxBytes)) (src.take waitBufMaxBytes)).2.2 with
          waitBuf := [], waitBufLen := 0 }) := by
  have hlen : 0 < (src.take waitBufMaxBytes).length := by
    obtain ⟨c, rest, rfl⟩ := List.exists_cons_of_ne_nil hs
    simp [waitBufMaxBytes]
  have hW : waitBufMaxBytes ≠ 0 := by decide
  have happ : (waitBufAppend q (src.take waitBufMaxBytes)).waitBuf = [src.take waitBufMaxBytes] ∧
      (waitBufAppend q (src.take waitBufMaxBytes)).waitBufLen = (src.take waitBufMaxBytes).length := by
    simp [waitBufAppend, hq.1, hq.2]
  simp only [writeWith, if_neg hs, hq.2, Nat.sub_zero, if_neg hW, pushWaitBufLockedWith, happ.2,
    Nat.pos_iff_ne_zero.1 hlen, if_false, happ.1, pushLoopWith, outputTransform_fst, ne_eq, not_true_eq_false,
    Nat.zero_add, Nat.sub_self]

theorem writeWith_outputTransform_drained (column : ℕ) {q : Queue} (hq : q.Drained) (src : List UInt8) :
    (writeWith (outputTransform t) column q src).2.2.Drained := by
  by_cases hs : src = []
  · simp [writeWith, hs, pushWaitBufLockedWith_drained column hq, hq]
  · rw [writeWith_outputTransform column hq src hs]
    exact ⟨rfl, rfl⟩

theorem readWith_outputTransform_drained (column : ℕ) {q : Queue} (hq : q.Drained) (count : ℕ) :
    (readWith (outputTransform t) column q count).2.2.Drained := by
  unfold readWith
  split
  · exact hq
  · dsimp only
    have hr : (if min count canonMaxBytes = 0 then ([], q) else readToBlocks q (min count canonMaxBytes)).2.Drained := by
      split
      · exact hq
      · exact hq
    rw [pushWaitBufLockedWith_drained column hr]
    exact hr

/-- A byte that is one character and that the `switch` passes on as it is. -/
def Plain (c : UInt8) : Prop := c < 0xC2 ∧ c ≠ 8 ∧ c ≠ 9 ∧ c ≠ 10 ∧ c ≠ 13

theorem outputTransformLoop_plain :
    ∀ (buf : List UInt8) (fuel ret column : ℕ) (readBuf : List UInt8), buf.length ≤ fuel → (∀ c ∈ buf, Plain c) →
      (outputTransformLoop t fuel buf ret column readBuf).2.2 = readBuf ++ buf
  | [], fuel, _, _, _, _, _ => by cases fuel <;> simp [outputTransformLoop]
  | c :: rest, fuel, ret, column, readBuf, h, hp => by
    obtain ⟨fuel, rfl⟩ : ∃ f, fuel = f + 1 := ⟨fuel - 1, by simp at h; omega⟩
    obtain ⟨hc, h8, h9, h10, h13⟩ := hp c (by simp)
    have hpeek : peek t (c :: rest) = 1 := by
      unfold peek
      split
      · exact Utf8.decodeRuneSize_of_lt hc rest
      · rfl
    rw [outputTransformLoop, hpeek, List.take_succ_cons, List.take_zero, List.drop_succ_cons, List.drop_zero,
      outputTransformLoop_plain rest fuel _ _ _ (by simpa using h) (fun c' h' => hp c' (by simp [h']))]
    simp [outputChar, h8, h9, h10, h13]

/-- Plain bytes reach the master as they were written, with `OPOST` or
without. -/
theorem outputTransform_plain (column : ℕ) (q : Queue) {buf : List UInt8} (hp : ∀ c ∈ buf, Plain c) :
    (outputTransform t column q buf).2.2.readBuf = q.readBuf ++ buf := by
  unfold outputTransform
  split
  · rfl
  · exact outputTransformLoop_plain buf buf.length 0 column q.readBuf (Nat.le_refl _) hp

/-- A write of plain bytes on a drained output queue takes as many as fit in
the wait buffer and appends them to the read buffer as they are. -/
theorem outputQueueWrite_plain (column : ℕ) {q : Queue} (hq : q.Drained) {src : List UInt8} (hs : src ≠ [])
    (hp : ∀ c ∈ src, Plain c) :
    (outputQueueWrite t column q src).1 = .ok (src.take waitBufMaxBytes).length ∧
      (outputQueueWrite t column q src).2.2.readBuf = q.readBuf ++ src.take waitBufMaxBytes ∧
      (outputQueueWrite t column q src).2.2.Drained := by
  have hlen : 0 < (src.take waitBufMaxBytes).length := by
    obtain ⟨c, rest, rfl⟩ := List.exists_cons_of_ne_nil hs
    simp [waitBufMaxBytes]
  unfold outputQueueWrite
  rw [writeWith_outputTransform column hq src hs]
  dsimp only
  rw [if_pos hlen]
  refine ⟨rfl, ?_, rfl, rfl⟩
  exact outputTransform_plain column _ (fun c h => hp c (List.mem_of_mem_take h))

end Output

/-- `writeReadiness` reports `EventOut` exactly when a write of some bytes
takes some of them. -/
theorem writeReadiness_iff_write (t : KernelTermios) (q : Queue) {src : List UInt8} (hs : src ≠ []) :
    writeReadiness q = true ↔ ∃ n, 0 < n ∧ (write t q src).1 = .ok n := by
  obtain ⟨c, rest, rfl⟩ := List.exists_cons_of_ne_nil hs
  unfold writeReadiness write
  by_cases hroom : waitBufMaxBytes - q.waitBufLen = 0
  · simp [hroom]
    omega
  · simp only [reduceCtorEq, if_false, hroom]
    constructor
    · intro _
      exact ⟨_, by simp only [List.length_take, List.length_cons]; omega, rfl⟩
    · intro _
      simp only [decide_eq_true_eq]
      omega

theorem writeWith_fst_eq_write {σ : Type} (tr : σ → Queue → List UInt8 → ℕ × σ × Queue) (st : σ) (t : KernelTermios)
    (q : Queue) (src : List UInt8) : (writeWith tr st q src).1 = (write t q src).1 := by
  unfold writeWith write
  split
  · rfl
  · dsimp only
    split <;> rfl

theorem bounded_new (t : KernelTermios) : Bounded (newLineDiscipline t) :=
  ⟨Nat.zero_le _, Nat.zero_le _, rfl, rfl⟩

/-- Every call keeps `Bounded`: the input queue's calls by the bounds of its
transformer, the output queue's because its transformer drains the wait
buffer. -/
theorem Bounded.call {l : LineDiscipline} (h : Bounded l) (c : Call) : Bounded (l.call c) := by
  have hout : l.outQueue.Drained := ⟨h.outWaitBuf, h.outWaitBufLen⟩
  cases c with
  | masterWrite src =>
    obtain ⟨h1, h2⟩ := write_bounded l.termios l.inQueue src h.inReadBuf h.inWaitBufLen
    rw [← (inputQueueWrite_eq l.termios l.inQueue src).1] at h1 h2
    exact ⟨h1, h2, h.outWaitBuf, h.outWaitBufLen⟩
  | slaveWrite src =>
    have hd := writeWith_outputTransform_drained (t := l.termios) l.column hout src
    have hd' : (outputQueueWrite l.termios l.column l.outQueue src).2.2.Drained := by
      unfold outputQueueWrite
      split
      · rename_i h'
        rw [h'] at hd
        exact hd
      · rename_i h'
        rw [h'] at hd
        split <;> exact hd
    exact ⟨h.inReadBuf, h.inWaitBufLen, hd'.1, hd'.2⟩
  | masterRead count =>
    have hd := readWith_outputTransform_drained (t := l.termios) l.column hout count
    have hd' : (outputQueueRead l.termios l.column l.outQueue count).2.2.Drained := by
      unfold outputQueueRead
      split
      · rename_i h'
        rw [h'] at hd
        exact hd
      · rename_i h'
        rw [h'] at hd
        split <;> exact hd
    exact ⟨h.inReadBuf, h.inWaitBufLen, hd'.1, hd'.2⟩
  | slaveRead count =>
    obtain ⟨h1, h2⟩ := read_bounded l.termios l.inQueue count h.inReadBuf h.inWaitBufLen
    rw [← (inputQueueRead_eq l.termios l.inQueue count).1] at h1 h2
    exact ⟨h1, h2, h.outWaitBuf, h.outWaitBufLen⟩
  | setTermios t =>
    show Bounded (l.setTermios t)
    unfold LineDiscipline.setTermios
    split
    · obtain ⟨h1, h2⟩ := pushWaitBufLocked_bounded t l.inQueue h.inReadBuf
      exact ⟨h1, h2.trans h.inWaitBufLen, h.outWaitBuf, h.outWaitBufLen⟩
    · exact ⟨h.inReadBuf, h.inWaitBufLen, h.outWaitBuf, h.outWaitBufLen⟩

namespace LineDiscipline

theorem Reachable.bounded {t : KernelTermios} {l : LineDiscipline} (h : Reachable t l) : Bounded l :=
  Transition.Reachable.invariant Bounded (fun _ h₀ => by rw [h₀]; exact bounded_new t)
    (fun _ _ hs ⟨c, hc⟩ => hc ▸ hs.call c) h

/-- The slave writes `m` times `waitBufMaxBytes` bytes of `'a'` on a new line
discipline: each write is taken whole, and all of it waits for the master in
the output queue's read buffer. -/
theorem run_slaveWrites (t : KernelTermios) (m : ℕ) :
    ((newLineDiscipline t).run (List.replicate m (.slaveWrite (List.replicate waitBufMaxBytes 97)))).outQueue.readBuf =
        List.replicate (m * waitBufMaxBytes) 97 ∧
      ((newLineDiscipline t).run (List.replicate m (.slaveWrite (List.replicate waitBufMaxBytes 97)))).outQueue.Drained := by
  have hs : List.replicate waitBufMaxBytes (97 : UInt8) ≠ [] :=
    List.ne_nil_of_length_pos (by rw [List.length_replicate]; decide)
  have hp : ∀ c ∈ List.replicate waitBufMaxBytes (97 : UInt8), Plain c := by
    intro c hc
    rw [List.eq_of_mem_replicate hc]
    exact ⟨by decide, by decide, by decide, by decide, by decide⟩
  have htake : (List.replicate waitBufMaxBytes (97 : UInt8)).take waitBufMaxBytes = List.replicate waitBufMaxBytes 97 :=
    List.take_of_length_le (by rw [List.length_replicate])
  induction m with
  | zero => exact ⟨rfl, rfl, rfl⟩
  | succ m ih =>
    simp only [run, List.replicate_succ', List.foldl_append, List.foldl_cons, List.foldl_nil] at ih ⊢
    generalize List.foldl call (newLineDiscipline t)
      (List.replicate m (.slaveWrite (List.replicate waitBufMaxBytes 97))) = l at ih ⊢
    obtain ⟨hbuf, hd⟩ := ih
    obtain ⟨-, h2, h3⟩ := outputQueueWrite_plain (t := l.termios) l.column hd hs hp
    refine ⟨?_, h3⟩
    show (outputQueueWrite l.termios l.column l.outQueue (List.replicate waitBufMaxBytes 97)).2.2.readBuf = _
    rw [h2, hbuf, htake, ← List.replicate_add, Nat.succ_mul]

end LineDiscipline

/-- The memory of a line discipline is not bounded. In every run the input
queue stays within `canonMaxBytes` and `waitBufMaxBytes`, and the output
queue's wait buffer is empty; on each queue `writeReadiness` reports
`EventOut` exactly when a write takes some bytes. But every write of the slave
is taken into the output queue's read buffer, so writes alone, with no read,
make it as long as one likes. -/
theorem lineDiscipline_output_unbounded :
    (∀ (t : KernelTermios) (l : LineDiscipline), l.Reachable t →
      l.inQueue.readBuf.length ≤ canonMaxBytes ∧ l.inQueue.waitBufLen ≤ waitBufMaxBytes ∧
        l.outQueue.waitBuf = [] ∧ l.outQueue.waitBufLen = 0) ∧
    (∀ (t : KernelTermios) (q : Queue) (src : List UInt8), src ≠ [] →
      (writeReadiness q = true ↔ ∃ n, 0 < n ∧ (inputQueueWrite t q src).1 = .ok n)) ∧
    (∀ (t : KernelTermios) (column : ℕ) (q : Queue) (src : List UInt8), src ≠ [] →
      (writeReadiness q = true ↔ ∃ n, 0 < n ∧ (outputQueueWrite t column q src).1 = .ok n)) ∧
    (∀ (t : KernelTermios) (bound : ℕ), ∃ m,
      bound < ((newLineDiscipline t).run
        (List.replicate m (.slaveWrite (List.replicate waitBufMaxBytes 97)))).outQueue.readBuf.length) := by
  refine ⟨?_, ?_, ?_, ?_⟩
  · intro t l hl
    have hb := hl.bounded
    exact ⟨hb.inReadBuf, hb.inWaitBufLen, hb.outWaitBuf, hb.outWaitBufLen⟩
  · intro t q src hs
    rw [writeReadiness_iff_write t q hs]
    unfold inputQueueWrite
    constructor
    · rintro ⟨n, hn, hw⟩
      refine ⟨n, hn, ?_⟩
      rcases h : write t q src with ⟨_ | n', q'⟩ <;> rw [h] at hw <;> cases hw
      simp [hn]
    · rintro ⟨n, hn, hw⟩
      refine ⟨n, hn, ?_⟩
      rcases h : write t q src with ⟨_ | n', q'⟩ <;> rw [h] at hw
      · cases hw
      · simp only at hw
        split at hw <;> cases hw
        rfl
  · intro t column q src hs
    rw [writeReadiness_iff_write t q hs, ← writeWith_fst_eq_write (outputTransform t) column]
    unfold outputQueueWrite
    constructor
    · rintro ⟨n, hn, hw⟩
      refine ⟨n, hn, ?_⟩
      rcases h : writeWith (outputTransform t) column q src with ⟨_ | n', r⟩ <;> rw [h] at hw <;> cases hw
      simp [hn]
    · rintro ⟨n, hn, hw⟩
      refine ⟨n, hn, ?_⟩
      rcases h : writeWith (outputTransform t) column q src with ⟨_ | n', r⟩ <;> rw [h] at hw
      · cases hw
      · simp only at hw
        split at hw <;> cases hw
        rfl
  · intro t bound
    refine ⟨bound + 1, ?_⟩
    rw [(LineDiscipline.run_slaveWrites t (bound + 1)).1, List.length_replicate]
    simp only [waitBufMaxBytes]
    omega

/-- A new line discipline with the default slave settings: its input queue is
within the bounds, and a write of one byte on an empty queue is taken, as
`writeReadiness` says. -/
theorem lineDiscipline_output_unbounded_new :
    (newLineDiscipline defaultSlaveTermios).inQueue.readBuf.length ≤ canonMaxBytes ∧
      (writeReadiness Queue.empty = true ↔
        ∃ n, 0 < n ∧ (inputQueueWrite defaultSlaveTermios Queue.empty [97]).1 = .ok n) ∧
      (writeReadiness Queue.empty = true ↔
        ∃ n, 0 < n ∧ (outputQueueWrite defaultSlaveTermios 0 Queue.empty [97]).1 = .ok n) := by
  obtain ⟨h1, h2, h3, -⟩ := lineDiscipline_output_unbounded
  exact ⟨(h1 _ _ (Transition.Reachable.of_init rfl)).1, h2 _ _ _ (List.cons_ne_nil _ _),
    h3 _ _ _ _ (List.cons_ne_nil _ _)⟩

end Tty
