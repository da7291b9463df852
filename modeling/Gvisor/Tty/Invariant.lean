import Gvisor.Tty.Canonical
import Gvisor.Lib.Reachable

/-! The input queue of a pty over every run of master writes and slave reads,
with the bytes the writes took and the bytes the reads returned. With
`ICANON` set and `IUTF8` clear, every reachable run keeps `Inv`: the queue
has processed a prefix of what was written, the rest waits in the wait
buffer, and only while a line is waiting to be read. From it, what the reads
returned is a prefix of the lines of what was written, and every read
returns bytes of one line.

A line that is only the end-of-file character sets `readable` and adds
nothing to the read buffer. The read that takes it copies no bytes, which
`inputQueueRead` reports as `ErrWouldBlock`, and no read ever returns zero
bytes, so the reader never sees the end of file. -/

namespace Tty

open Syserror KernelTermios

/-- A run of the input queue: the queue, the bytes the writes took, and the
bytes the reads returned. -/
structure Run where
  queue : Queue
  written : List UInt8
  delivered : List UInt8

def Run.init : Run := ⟨Queue.empty, [], []⟩

/-- The calls on the input queue: a write of the master that took what it
reports, and a read of the slave. -/
inductive Step (t : KernelTermios) : Run → Run → Prop
  | write (r : Run) (src : List UInt8) (res : Except Errno ℕ) (q : Queue) :
      inputQueueWrite t r.queue src = (res, q) →
      Step t r ⟨q, r.written ++ src.take (res.toOption.getD 0), r.delivered⟩
  | read (r : Run) (count : ℕ) (res : Except Errno (List UInt8)) (q : Queue) :
      inputQueueRead t r.queue count = (res, q) → Step t r ⟨q, r.written, r.delivered ++ res.toOption.getD []⟩

def Reachable (t : KernelTermios) (r : Run) : Prop := Transition.Reachable (· = Run.init) (Step t) r

/-- A run whose queue has processed the bytes `p` of what was written, with
the rest in the wait buffer and counted by `waitBufLen`. -/
structure Staged (t : KernelTermios) (r : Run) (p : List UInt8) : Prop where
  written : r.written = p ++ r.queue.waitBuf.flatten
  waitBufLen : r.queue.waitBufLen = r.queue.waitBuf.flatten.length
  waitBufLen_le : r.queue.waitBufLen ≤ waitBufMaxBytes
  agree : Agree t p r.delivered r.queue

/-- The invariant of a run between calls: bytes wait only while a line is
waiting to be read. -/
def Inv (t : KernelTermios) (r : Run) : Prop :=
  ∃ p, Staged t r p ∧ (r.queue.readable = false → r.queue.waitBuf.flatten = [])

/-- The bytes of what was written that are no longer in the wait buffer. -/
def Run.processed (r : Run) : List UInt8 := r.written.take (r.written.length - r.queue.waitBuf.flatten.length)

/-- What the slave still has to read: the bytes of the finished lines not yet
returned, and the finished lines not yet waiting, with the one waiting. -/
def Run.pending (t : KernelTermios) (r : Run) : ℕ :=
  ((canonLines t r.written).1.flatten.length - r.delivered.length) +
    ((canonLines t r.written).1.length + (if r.queue.readable then 1 else 0) - (canonLines t r.processed).1.length)

/-- The run after one read of the slave with a buffer of `canonMaxBytes`. -/
def Run.readStep (t : KernelTermios) (r : Run) : Run :=
  ⟨(inputQueueRead t r.queue canonMaxBytes).2, r.written,
    r.delivered ++ (inputQueueRead t r.queue canonMaxBytes).1.toOption.getD []⟩

/-- The run after `m` such reads. -/
def readRun (t : KernelTermios) : ℕ → Run → Run
  | 0, r => r
  | m + 1, r => readRun t m (r.readStep t)

theorem inv_init (t : KernelTermios) : Inv t Run.init :=
  ⟨[], ⟨rfl, rfl, Nat.zero_le _, .typing rfl rfl rfl⟩, fun _ => rfl⟩

/-- What `inputQueueWrite` adds to `write`: only the result of a write that
took nothing. -/
theorem inputQueueWrite_eq (t : KernelTermios) (q : Queue) (src : List UInt8) :
    (inputQueueWrite t q src).2 = (write t q src).2 ∧
      (inputQueueWrite t q src).1.toOption.getD 0 = (write t q src).1.toOption.getD 0 := by
  unfold inputQueueWrite
  rcases write t q src with ⟨_ | n, q'⟩
  · exact ⟨rfl, rfl⟩
  · by_cases hn : n > 0
    · simp [hn]
    · simp [hn, Except.toOption]
      omega

/-- What `inputQueueRead` adds to `read`: only the result of a read that
copied nothing. -/
theorem inputQueueRead_eq (t : KernelTermios) (q : Queue) (count : ℕ) :
    (inputQueueRead t q count).2 = (read t q count).2 ∧
      (inputQueueRead t q count).1.toOption.getD [] = ((read t q count).1.toOption.map Prod.fst).getD [] := by
  unfold inputQueueRead
  rcases read t q count with ⟨_ | ⟨data, pushed⟩, q'⟩
  · exact ⟨rfl, rfl⟩
  · by_cases hn : data.length > 0
    · simp [hn, Except.toOption]
    · simp [hn, Except.toOption]
      simpa using hn

/-- A read that returns bytes returns the first of the read buffer, from a
readable queue. -/
theorem read_eq_ok {t : KernelTermios} {q : Queue} {count : ℕ} {data : List UInt8} {b : Bool}
    (h : (read t q count).1 = .ok (data, b)) :
    q.readable = true ∧ data = q.readBuf.take (min count canonMaxBytes) := by
  unfold read at h
  cases hr : q.readable with
  | false => simp [hr] at h
  | true =>
    simp only [hr, Bool.not_true, Bool.false_eq_true, if_false, Except.ok.injEq, Prod.mk.injEq] at h
    refine ⟨rfl, ?_⟩
    rw [← h.1]
    split_ifs with h0
    · rw [h0, List.take_zero]
    · rfl

/-- `inputQueueRead` succeeds only where `read` copied some bytes. -/
theorem inputQueueRead_eq_ok {t : KernelTermios} {q : Queue} {count : ℕ} {data : List UInt8}
    (h : (inputQueueRead t q count).1 = .ok data) : ∃ b, (read t q count).1 = .ok (data, b) ∧ data ≠ [] := by
  unfold inputQueueRead at h
  rcases hr : read t q count with ⟨_ | ⟨data', b⟩, q'⟩ <;> rw [hr] at h
  · cases h
  · by_cases hn : data'.length > 0
    · simp only [hn, if_true, Except.ok.injEq] at h
      subst h
      exact ⟨b, rfl, List.ne_nil_of_length_pos hn⟩
    · simp [hn] at h

section Staged

variable {t : KernelTermios}

/-- The lines of the processed bytes are the first lines of all that was
written. -/
theorem Staged.lines_prefix {r : Run} {p : List UInt8} (h : Staged t r p) :
    (canonLines t p).1 <+: (canonLines t r.written).1 :=
  h.written ▸ canonLines_prefix p r.queue.waitBuf.flatten

/-- The reads returned a prefix of the lines of the processed bytes. -/
theorem Staged.delivered_prefix {r : Run} {p : List UInt8} (h : Staged t r p) :
    r.delivered <+: (canonLines t p).1.flatten := by
  cases h.agree with
  | line _ L₀ line k hL hd _ =>
    rw [hL, hd, List.flatten_append, List.flatten_singleton]
    exact (List.prefix_append_right_inj _).2 (List.take_prefix k line)
  | typing _ hd _ => rw [hd]

/-- The reader function takes the next bytes of the waiting line, and once
the line is all read the queue is not readable and the line is done. -/
theorem Staged.readToBlocks {q : Queue} {w d p : List UInt8} (h : Staged t ⟨q, w, d⟩ p)
    (hr : q.readable = true) (m : ℕ) : Staged t ⟨(readToBlocks q m).2, w, d ++ (readToBlocks q m).1⟩ p := by
  have hagree : Agree t p d q := h.agree
  obtain ⟨_, L₀, line, k, hL, hd, hq⟩ | ⟨hr', -, -⟩ := hagree
  · refine ⟨h.written, h.waitBufLen, h.waitBufLen_le, ?_⟩
    have hd' : d ++ q.readBuf.take m = L₀.flatten ++ line.take (k + m) := by
      rw [hd, hq, List.append_assoc, ← List.take_add]
    simp only [Tty.readToBlocks]
    rw [hd', hq, List.drop_drop]
    by_cases hend : line.drop (k + m) = []
    · -- the line is all read
      have hall' : line.take (k + m) = line := List.take_of_length_le (List.drop_eq_nil_iff.1 hend)
      refine .typing (by simp [hend]) ?_ ?_
      · rw [hL, hall']
        simp
      · rw [hend, hL]
    · exact .line (by simp [hend, hr]) L₀ line (k + m) hL rfl rfl
  · simp [hr] at hr'

/-- `processed` is the `p` of every `Staged`. -/
theorem Staged.processed_eq {r : Run} {p : List UInt8} (h : Staged t r p) : r.processed = p := by
  unfold Run.processed
  rw [h.written, List.length_append, Nat.add_sub_cancel, List.take_left]

/-- A run with no line waiting has returned every line written. -/
theorem Inv.delivered_of_not_readable {r : Run} (h : Inv t r) (hr : r.queue.readable = false) :
    r.delivered = (canonLines t r.written).1.flatten := by
  obtain ⟨p, hs, hall⟩ := h
  have hw : r.written = p := by rw [hs.written, hall hr, List.append_nil]
  cases hs.agree with
  | line hr' _ _ _ _ _ _ => simp [hr] at hr'
  | typing _ hd _ => rw [hd, hw]

end Staged

section Run

variable {t : KernelTermios} (hc : t.lEnabled icanon = true) (hu : t.iEnabled iutf8 = false)
include hc hu

/-- `pushWaitBufLocked` consumes bytes from the front of the wait buffer and
leaves bytes there only while a line is waiting. With a line waiting it
consumes nothing; and where it makes a line wait, it finished one. -/
theorem Staged.push_spec {q : Queue} {w d p : List UInt8} (h : Staged t ⟨q, w, d⟩ p) :
    ∃ consumed, Staged t ⟨(pushWaitBufLocked t q).2, w, d⟩ (p ++ consumed) ∧
      ((pushWaitBufLocked t q).2.readable = false → (pushWaitBufLocked t q).2.waitBuf.flatten = []) ∧
      (q.readable = true → consumed = [] ∧ (pushWaitBufLocked t q).2.readable = true) ∧
      (q.readable = false → (pushWaitBufLocked t q).2.readable = true →
        (canonLines t p).1.length < (canonLines t (p ++ consumed)).1.length) := by
  have hw : w = p ++ q.waitBuf.flatten := h.written
  have hlen : q.waitBufLen = q.waitBuf.flatten.length := h.waitBufLen
  have hle : q.waitBufLen ≤ waitBufMaxBytes := h.waitBufLen_le
  unfold pushWaitBufLocked
  split_ifs with h0
  · rw [h0] at hlen
    refine ⟨[], by simpa using h, fun _ => List.length_eq_zero_iff.1 hlen.symm, fun hq => ⟨rfl, hq⟩,
      fun hq hq' => absurd hq' (by simp [hq])⟩
  · obtain ⟨consumed, hP⟩ := pushLoop_spec hc hu q.waitBuf 0 p q h.agree
    generalize pushLoop t q.waitBuf 0 q = r at hP ⊢
    show ∃ c, Staged t ⟨{ r.2.2 with waitBuf := r.2.1, waitBufLen := q.waitBufLen - r.1 }, w, d⟩ (p ++ c) ∧ _
    have hflat := hP.flatten
    have htotal := hP.total
    rw [hflat, List.length_append] at hlen
    refine ⟨consumed, ⟨?_, ?_, ?_, hP.agree.congr rfl rfl⟩, hP.all, ?_, hP.grow⟩
    · show w = p ++ consumed ++ r.2.1.flatten
      rw [hw, List.append_assoc, ← hflat]
    · show q.waitBufLen - r.1 = r.2.1.flatten.length
      omega
    · show q.waitBufLen - r.1 ≤ waitBufMaxBytes
      omega
    · intro hq
      obtain ⟨hc', hr⟩ := hP.stay hq
      exact ⟨hc', by rw [← hq, ← hr]⟩

theorem Staged.push {q : Queue} {w d p : List UInt8} (h : Staged t ⟨q, w, d⟩ p) :
    Inv t ⟨(pushWaitBufLocked t q).2, w, d⟩ := by
  obtain ⟨consumed, hs, hall, -, -⟩ := h.push_spec hc hu
  exact ⟨p ++ consumed, hs, hall⟩

/-- A write appends what fits of its bytes as a chunk of the wait buffer. -/
theorem Inv.write {r : Run} (h : Inv t r) (src : List UInt8) :
    Inv t ⟨(write t r.queue src).2, r.written ++ src.take ((write t r.queue src).1.toOption.getD 0), r.delivered⟩ := by
  obtain ⟨p, hs, hall⟩ := h
  obtain ⟨q, w, d⟩ := r
  unfold Tty.write
  by_cases hsrc : src = []
  · simpa [hsrc] using hs.push hc hu
  rw [if_neg hsrc]
  by_cases hroom : waitBufMaxBytes - q.waitBufLen = 0
  · rw [if_pos hroom]
    exact ⟨p, by simpa [Except.toOption] using hs, hall⟩
  rw [if_neg hroom]
  -- what the write took is the first bytes of `src` that fit
  have htake : src.take (src.take (waitBufMaxBytes - q.waitBufLen)).length =
      src.take (waitBufMaxBytes - q.waitBufLen) := by
    rw [List.length_take, ← List.take_take, List.take_length]
  simp only [Except.toOption, Option.getD_some]
  rw [htake]
  apply Staged.push hc hu
  have hw : w = p ++ q.waitBuf.flatten := hs.written
  have hlen : q.waitBufLen = q.waitBuf.flatten.length := hs.waitBufLen
  have hle : q.waitBufLen ≤ waitBufMaxBytes := hs.waitBufLen_le
  refine ⟨?_, ?_, ?_, hs.agree.congr rfl rfl⟩
  · simp [waitBufAppend, hw]
  · simp only [waitBufAppend, List.flatten_append, List.flatten_singleton, List.length_append, hlen]
  · simp only [waitBufAppend, List.length_take]
    omega

/-- A read of a waiting line takes the bytes after the `k` read so far; once
the line is all read the queue is not readable and the line is done. -/
theorem Inv.read {r : Run} (h : Inv t r) (count : ℕ) :
    Inv t ⟨(read t r.queue count).2, r.written,
      r.delivered ++ ((read t r.queue count).1.toOption.map Prod.fst).getD []⟩ := by
  obtain ⟨p, hs, hall⟩ := h
  obtain ⟨q, w, d⟩ := r
  unfold Tty.read
  cases hr : q.readable with
  | false => exact ⟨p, by simpa [hr, Except.toOption] using hs, by simpa using hall⟩
  | true =>
    simp only [Bool.not_true, Bool.false_eq_true, if_false, Except.toOption, Option.map_some,
      Option.getD_some]
    by_cases h0 : min count canonMaxBytes = 0
    · simpa [h0] using hs.push hc hu
    rw [if_neg h0]
    exact (hs.readToBlocks hr _).push hc hu

theorem Inv.step {r r' : Run} (h : Inv t r) (hs : Step t r r') : Inv t r' := by
  cases hs with
  | write src res q hw =>
    have hq := (inputQueueWrite_eq t r.queue src)
    rw [hw] at hq
    obtain ⟨rfl, hres⟩ := hq
    rw [show res.toOption.getD 0 = _ from hres]
    exact h.write hc hu src
  | read count res q hr =>
    have hq := (inputQueueRead_eq t r.queue count)
    rw [hr] at hq
    obtain ⟨rfl, hres⟩ := hq
    rw [show res.toOption.getD [] = _ from hres]
    exact h.read hc hu count

theorem Reachable.inv {r : Run} (h : Reachable t r) : Inv t r :=
  Transition.Reachable.invariant (Inv t) (fun _ h => by subst h; exact inv_init t) (fun _ _ hi hs => hi.step hc hu hs) h

/-- What the reads of a run returned is a prefix of the lines of what its
writes took, in order: nothing is lost, duplicated or reordered. -/
theorem reachable_delivered_prefix {r : Run} (h : Reachable t r) :
    r.delivered <+: (canonLines t r.written).1.flatten := by
  obtain ⟨p, hs, -⟩ := h.inv hc hu
  exact hs.delivered_prefix.trans (List.IsPrefix.flatten hs.lines_prefix)

/-- Every read returns bytes of one line, in the order of that line. -/
theorem reachable_read_infix {r : Run} (h : Reachable t r) {count : ℕ} {data : List UInt8} {q : Queue}
    (hr : inputQueueRead t r.queue count = (.ok data, q)) :
    ∃ line ∈ (canonLines t r.written).1, data <:+: line := by
  obtain ⟨p, hs, -⟩ := h.inv hc hu
  obtain ⟨b, hread, -⟩ := inputQueueRead_eq_ok (congrArg Prod.fst hr)
  obtain ⟨hrd, rfl⟩ := read_eq_ok hread
  cases hs.agree with
  | line _ L₀ line k hL _ hq =>
    refine ⟨line, hs.lines_prefix.subset (by simp [hL]), ?_⟩
    rw [hq]
    exact ((List.take_prefix _ _).isInfix).trans (List.drop_suffix k line).isInfix
  | typing hr' _ _ => simp [hrd] at hr'

/-- A read from a run with a line waiting leaves less to read: it returns
some bytes of the line, or it takes the line done and the next one that
waits is a later line. -/
theorem Inv.readStep_pending {r : Run} (h : Inv t r) (hr : r.queue.readable = true) :
    Inv t (r.readStep t) ∧ (r.readStep t).pending t < r.pending t := by
  obtain ⟨p, hs, -⟩ := h
  obtain ⟨q, w, d⟩ := r
  simp only at hr
  have hstep : Run.readStep t ⟨q, w, d⟩ =
      ⟨(pushWaitBufLocked t (readToBlocks q canonMaxBytes).2).2, w, d ++ (readToBlocks q canonMaxBytes).1⟩ := by
    obtain ⟨h1, h2⟩ := inputQueueRead_eq t q canonMaxBytes
    simp only [Run.readStep, h1, h2]
    simp [Tty.read, hr, canonMaxBytes, Except.toOption, Tty.readToBlocks]
  rw [hstep]
  have hs₁ := hs.readToBlocks hr canonMaxBytes
  obtain ⟨consumed, hs', hall', hstay, hgrow⟩ := hs₁.push_spec hc hu
  refine ⟨⟨p ++ consumed, hs', hall'⟩, ?_⟩
  -- the measure before and after, from the two `Staged`
  have hL₁ := (hs.lines_prefix).length_le
  have hL₂ := (hs'.lines_prefix).length_le
  have hL₃ := (Tty.canonLines_prefix (t := t) p consumed).length_le
  have hD := (hs'.delivered_prefix.trans (List.IsPrefix.flatten hs'.lines_prefix)).length_le
  have hpos : 0 < (canonLines t p).1.length := by
    cases hs.agree with
    | line _ L₀ line k hL _ _ => simp [hL]
    | typing hr' _ _ => simp [hr] at hr'
  unfold Run.pending
  rw [hs.processed_eq, hs'.processed_eq]
  simp only [hr, if_true] at hL₁ hD ⊢
  simp only [List.length_append] at hD ⊢
  by_cases hend : (readToBlocks q canonMaxBytes).2.readable = true
  · -- part of the line is returned and it is still waiting
    obtain ⟨rfl, hr'⟩ := hstay hend
    have hdata : (readToBlocks q canonMaxBytes).1 ≠ [] := by
      simp only [Tty.readToBlocks] at hend ⊢
      intro h0
      rw [List.take_eq_nil_iff] at h0
      rcases h0 with h0 | h0
      · simp [canonMaxBytes] at h0
      · simp [h0] at hend
    have := List.length_pos_of_ne_nil hdata
    simp only [hr', if_true, List.append_nil] at hD ⊢
    omega
  · -- the line is done; the next one to wait, if any, is a later one
    have hend' : (readToBlocks q canonMaxBytes).2.readable = false := by simpa using hend
    cases hnew : (pushWaitBufLocked t (readToBlocks q canonMaxBytes).2).2.readable
    · simp only [Bool.false_eq_true, if_false]
      omega
    · have := hgrow hend' hnew
      simp only [if_true]
      omega

/-- The slave reading on and on returns every line written, in full: after
enough reads of `canonMaxBytes`, what the reads returned is all the lines of
what was written. -/
theorem reachable_readRun {r : Run} (h : Reachable t r) :
    ∃ m, (readRun t m r).written = r.written ∧ (readRun t m r).delivered = (canonLines t r.written).1.flatten := by
  -- by induction on a bound of what is left to read
  suffices key : ∀ (n : ℕ) (r : Run), Reachable t r → r.pending t < n →
      ∃ m, (readRun t m r).written = r.written ∧ (readRun t m r).delivered = (canonLines t r.written).1.flatten from
    key _ r h (Nat.lt_succ_self _)
  intro n
  induction n with
  | zero => exact fun _ _ hlt => absurd hlt (Nat.not_lt_zero _)
  | succ n ih =>
    intro r h hlt
    have hi := h.inv hc hu
    cases hr : r.queue.readable with
    | false => exact ⟨0, rfl, hi.delivered_of_not_readable hr⟩
    | true =>
      obtain ⟨-, hlt'⟩ := hi.readStep_pending hc hu hr
      have hreach : Reachable t (r.readStep t) := Transition.Reachable.tail h (Step.read r canonMaxBytes _ _ rfl)
      obtain ⟨m, hw, hd⟩ := ih _ hreach (by omega)
      exact ⟨m + 1, hw, hd⟩

end Run

section Eof

variable {t : KernelTermios}

/-- In canonical mode, a byte that becomes the end-of-file character ends the
line being typed and is not added to it. -/
theorem transform_eof (hc : t.lEnabled icanon = true) {q : Queue} (hq : q.readable = false)
    (hlen : q.readBuf.length < canonMaxBytes) {c c' : UInt8} (hch : inputChar t c = some c')
    (he : t.isEOF c' = true) : transform t q [c] = (1, { q with readable := true }) := by
  have hterm := isTerminating_of_isEOF he
  have hkeep : ¬ (q.readBuf.length + 1 > canonMaxBytes) := by omega
  simp [transform, transformLoop, hc, hq, hlen, peek_singleton, hch, shouldDiscard, hterm, hkeep, he]

/-- The line that is only the end-of-file character, and what the queue does
with it. It is a line of what was written, the empty one; writing it to an
empty queue leaves the queue readable with nothing to read, which the slave
does not report as readable; the read that takes it copies nothing and so
returns `ErrWouldBlock`; and no read ever returns zero bytes. -/
theorem inputQueueRead_eof_would_block (hc : t.lEnabled icanon = true) :
    (∀ (q : Queue) (count : ℕ), (inputQueueRead t q count).1 ≠ .ok []) ∧
    (∀ c c' : UInt8, inputChar t c = some c' → t.isEOF c' = true →
      canonLines t [c] = ([[]], []) ∧ inputQueueWrite t Queue.empty [c] = (.ok 1, ⟨[], [], 0, true⟩)) ∧
    (∀ (q : Queue) (count : ℕ), q.readable = true → q.readBuf = [] → 0 < count →
      readReadiness q = false ∧
        inputQueueRead t q count = (.error .errWouldBlock, (pushWaitBufLocked t { q with readable := false }).2)) := by
  refine ⟨fun q count h => ?_, ?_, ?_⟩
  · obtain ⟨_, _, hne⟩ := inputQueueRead_eq_ok h
    exact hne rfl
  · intro c c' hch he
    refine ⟨by simp [canonLines, feed, hch, isTerminating_of_isEOF he, he], ?_⟩
    -- the write puts `[c]` in the wait buffer, and the push takes it whole
    have ht : transform t ⟨[], [[c]], 1, false⟩ [c] = (1, ⟨[], [[c]], 1, true⟩) :=
      transform_eof hc rfl (by simp [canonMaxBytes]) hch he
    have hpush : pushWaitBufLocked t (waitBufAppend Queue.empty [c]) = (1, ⟨[], [], 0, true⟩) := by
      simp [pushWaitBufLocked, waitBufAppend, Queue.empty, pushLoop, ht]
    have hw : write t Queue.empty [c] = (.ok 1, ⟨[], [], 0, true⟩) := by
      have hroom : waitBufMaxBytes - Queue.empty.waitBufLen ≠ 0 := by decide
      have htake : [c].take (waitBufMaxBytes - Queue.empty.waitBufLen) = [c] := rfl
      unfold write
      rw [if_neg (List.cons_ne_nil c []), if_neg hroom, htake]
      show (Except.ok 1, (pushWaitBufLocked t (waitBufAppend Queue.empty [c])).2) = _
      rw [hpush]
    simp [inputQueueWrite, hw]
  · intro q count hr hb hcount
    obtain ⟨readBuf, waitBuf, waitBufLen, readable⟩ := q
    simp only at hr hb
    subst hr hb
    have hmin : min count canonMaxBytes ≠ 0 := by simp [canonMaxBytes]; omega
    refine ⟨rfl, ?_⟩
    simp [inputQueueRead, read, hmin, readToBlocks]

/-- `^D` on a new pty with the default settings: the write takes it, the
slave is not reported readable, and the read of it would block and leaves the
queue empty again. -/
theorem inputQueueRead_eof_would_block_ctrlD :
    defaultSlaveTermios.lEnabled icanon = true ∧ inputChar defaultSlaveTermios 4 = some 4 ∧
      defaultSlaveTermios.isEOF 4 = true ∧
      (canonLines defaultSlaveTermios [4] = ([[]], []) ∧
        inputQueueWrite defaultSlaveTermios Queue.empty [4] = (.ok 1, ⟨[], [], 0, true⟩)) ∧
      readReadiness ⟨[], [], 0, true⟩ = false ∧
      inputQueueRead defaultSlaveTermios ⟨[], [], 0, true⟩ 1 = (.error .errWouldBlock, Queue.empty) := by
  have hc : defaultSlaveTermios.lEnabled icanon = true := by decide
  have hch : inputChar defaultSlaveTermios 4 = some 4 := by decide
  have he : defaultSlaveTermios.isEOF 4 = true := by decide
  obtain ⟨-, hw, hr⟩ := inputQueueRead_eof_would_block hc
  obtain ⟨hready, hread⟩ := hr ⟨[], [], 0, true⟩ 1 rfl rfl (by decide)
  exact ⟨hc, hch, he, hw 4 4 hch he, hready, hread⟩

end Eof

end Tty
