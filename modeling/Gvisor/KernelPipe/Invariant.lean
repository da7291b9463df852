import Gvisor.KernelPipe.Queue

/-! The pipe over whole runs. From `NewPipe`, through any sequence of writes,
reads, and opens and closes of its ends, the pipe keeps its invariant, and the
bytes the reads returned, followed by the bytes still queued, are the bytes the
writes took: the reads see a prefix of what was written, in order, with
nothing lost or repeated. Where no write meets a fault, no buffer in the queue
is ever empty; a write that faults at its first byte leaves one, which a read
then brings to the front. -/

namespace KernelPipe

open Syserror

namespace Pipe

variable {p p' : Pipe}

theorem Wf.write (h : p.Wf) (src : IOSequence) : (p.write src).2.Wf := by
  obtain ⟨n, err, data, heq, hn, hle, hcont, hshape, -⟩ := write_spec h src
  rw [heq]
  refine ⟨?_, hle, hshape⟩
  show p.size + n = ((contents data).length : Int)
  rw [hcont, List.length_append, List.length_take, Nat.min_eq_left (show n ≤ src.bytes.length from hn),
    Int.natCast_add, h.size_eq]

theorem Wf.read (h : p.Wf) (dst : IOSequence) : (p.read dst).2.2.Wf := by
  obtain ⟨n, err, out, data, heq, hlen, hcont, hshape, -⟩ := read_spec h.shape dst
  have hsize := h.size_eq
  have hmax := h.size_le
  have hlen' : (contents p.data).length = n + (contents data).length := by
    rw [hcont, List.length_append, hlen]
  rw [heq]
  refine ⟨?_, ?_, hshape⟩
  · show p.size - n = ((contents data).length : Int)
    omega
  · show p.size - n ≤ p.max
    omega

theorem Wf.rOpen (h : p.Wf) : p.rOpen.Wf := ⟨h.size_eq, h.size_le, h.shape⟩

theorem Wf.wOpen (h : p.Wf) : p.wOpen.Wf := ⟨h.size_eq, h.size_le, h.shape⟩

theorem rClose_eq_ok (h : p.rClose = .ok p') : p' = { p with readers := p.readers - 1 } := by
  unfold rClose at h
  dsimp only at h
  split at h
  · cases h
  · exact (Outcome.ok.inj h).symm

theorem wClose_eq_ok (h : p.wClose = .ok p') : p' = { p with writers := p.writers - 1 } := by
  unfold wClose at h
  dsimp only at h
  split at h
  · cases h
  · exact (Outcome.ok.inj h).symm

theorem wf_newPipe (isNamed : Bool) (sizeBytes atomicIOBytes : Int) :
    (newPipe isNamed sizeBytes atomicIOBytes).Wf := by
  refine ⟨rfl, ?_, Shape.nil⟩
  show (0 : Int) ≤ (newPipe isNamed sizeBytes atomicIOBytes).max
  unfold newPipe minimumPipeSize maximumPipeSize
  dsimp only
  split_ifs <;> omega

end Pipe

/-- A pipe, with the bytes its writes took and the bytes its reads returned,
in order. -/
structure System where
  pipe : Pipe
  written : List UInt8
  returned : List UInt8

/-- What a run of a pipe is made of: the `Write` and `Read` calls of its
files, and the readers and writers that open and close it. -/
inductive Event where
  | write (src : IOSequence)
  | read (dst : IOSequence)
  | rOpen
  | wOpen
  | rClose
  | wClose

/-- An event whose copies meet no fault: a write's sequence is mapped. -/
def Event.Mapped : Event → Prop
  | .write src => src.numBytes ≤ src.mapped
  | _ => True

namespace System

/-- One event: a write takes the first bytes of its sequence, as many as it
returns, and a read returns the bytes it copied out. -/
def step (s : System) : Event → Outcome Unit System
  | .write src => .ok ⟨(s.pipe.write src).2, s.written ++ src.bytes.take (s.pipe.write src).1.1, s.returned⟩
  | .read dst => .ok ⟨(s.pipe.read dst).2.2, s.written, s.returned ++ (s.pipe.read dst).2.1⟩
  | .rOpen => .ok { s with pipe := s.pipe.rOpen }
  | .wOpen => .ok { s with pipe := s.pipe.wOpen }
  | .rClose => (fun p => { s with pipe := p }) <$> s.pipe.rClose
  | .wClose => (fun p => { s with pipe := p }) <$> s.pipe.wClose

/-- A pipe from `NewPipe`, before any event. -/
def init (isNamed : Bool) (sizeBytes atomicIOBytes : Int) : System :=
  ⟨newPipe isNamed sizeBytes atomicIOBytes, [], []⟩

def run (s : System) (es : List Event) : Outcome Unit System := es.foldlM step s

/-- The invariant of a run: the pipe's, and what was written is what was
returned followed by what is queued. -/
structure Inv (s : System) : Prop where
  wf : s.pipe.Wf
  fifo : s.written = s.returned ++ contents s.pipe.data

theorem inv_init (isNamed : Bool) (sizeBytes atomicIOBytes : Int) : (init isNamed sizeBytes atomicIOBytes).Inv :=
  ⟨Pipe.wf_newPipe isNamed sizeBytes atomicIOBytes, rfl⟩

variable {s s' : System}

/-- What each event can do: change the pipe alone, keeping its queue, or
write or read. -/
theorem step_cases {e : Event} (h : s.step e = .ok s') :
    (∃ src, e = .write src ∧ s' = ⟨(s.pipe.write src).2, s.written ++ src.bytes.take (s.pipe.write src).1.1,
      s.returned⟩) ∨
    (∃ dst, e = .read dst ∧ s' = ⟨(s.pipe.read dst).2.2, s.written, s.returned ++ (s.pipe.read dst).2.1⟩) ∨
    (s'.written = s.written ∧ s'.returned = s.returned ∧ s'.pipe.data = s.pipe.data ∧
      s'.pipe.size = s.pipe.size ∧ s'.pipe.max = s.pipe.max) := by
  cases e with
  | write src => exact .inl ⟨src, rfl, (Outcome.ok.inj h).symm⟩
  | read dst => exact .inr (.inl ⟨dst, rfl, (Outcome.ok.inj h).symm⟩)
  | rOpen =>
    cases h
    exact .inr (.inr ⟨rfl, rfl, rfl, rfl, rfl⟩)
  | wOpen =>
    cases h
    exact .inr (.inr ⟨rfl, rfl, rfl, rfl, rfl⟩)
  | rClose =>
    obtain ⟨p, hp, hs'⟩ := Outcome.bind_eq_ok.1 h
    cases hs'
    rw [Pipe.rClose_eq_ok hp]
    exact .inr (.inr ⟨rfl, rfl, rfl, rfl, rfl⟩)
  | wClose =>
    obtain ⟨p, hp, hs'⟩ := Outcome.bind_eq_ok.1 h
    cases hs'
    rw [Pipe.wClose_eq_ok hp]
    exact .inr (.inr ⟨rfl, rfl, rfl, rfl, rfl⟩)

theorem step_inv {e : Event} (h : s.Inv) (hs : s.step e = .ok s') : s'.Inv := by
  rcases step_cases hs with ⟨src, rfl, rfl⟩ | ⟨dst, rfl, rfl⟩ | ⟨hw, hr, hd, hsize, hmax⟩
  · obtain ⟨n, err, data, heq, -, -, hcont, -, -⟩ := Pipe.write_spec h.wf src
    refine ⟨h.wf.write src, ?_⟩
    show s.written ++ src.bytes.take (s.pipe.write src).1.1 = s.returned ++ contents (s.pipe.write src).2.data
    rw [heq, h.fifo]
    dsimp only
    rw [hcont, List.append_assoc]
  · obtain ⟨n, err, out, data, heq, -, hcont, -, -⟩ := Pipe.read_spec h.wf.shape dst
    refine ⟨h.wf.read dst, ?_⟩
    show s.written = (s.returned ++ (s.pipe.read dst).2.1) ++ contents (s.pipe.read dst).2.2.data
    rw [heq, h.fifo]
    dsimp only
    rw [hcont, List.append_assoc]
  · refine ⟨⟨?_, ?_, ?_⟩, ?_⟩
    · rw [hsize, hd]
      exact h.wf.size_eq
    · rw [hsize, hmax]
      exact h.wf.size_le
    · rw [hd]
      exact h.wf.shape
    · rw [hw, hr, hd]
      exact h.fifo

/-- An event with no fault leaves every buffer with bytes, if it found them so. -/
theorem step_filled {e : Event} (he : e.Mapped) (h : s.Inv) (hf : Filled s.pipe.data)
    (hs : s.step e = .ok s') : Filled s'.pipe.data := by
  rcases step_cases hs with ⟨src, rfl, rfl⟩ | ⟨dst, rfl, rfl⟩ | ⟨-, -, hd, -, -⟩
  · obtain ⟨n, err, data, heq, -, -, -, -, hfill⟩ := Pipe.write_spec h.wf src
    show Filled (s.pipe.write src).2.data
    rw [heq]
    exact hfill he hf
  · obtain ⟨n, err, out, data, heq, -, -, -, hfill⟩ := Pipe.read_spec h.wf.shape dst
    show Filled (s.pipe.read dst).2.2.data
    rw [heq]
    exact hfill hf
  · rw [hd]
    exact hf

theorem run_inv {es : List Event} (h : s.Inv) (hrun : s.run es = .ok s') : s'.Inv :=
  @Outcome.foldlM_eq_ok_induction Unit System Event (fun _ s => s.Inv) step
    (fun _ _ _ _ ha hs => step_inv ha hs) es [] s s' h hrun

/-- Every run from `NewPipe`: the reads returned the first bytes the writes
took, in order, and the rest are queued; `size` counts them and stays within
`[0, max]`. -/
theorem run_fifo {isNamed : Bool} {sizeBytes atomicIOBytes : Int} {es : List Event}
    (h : (init isNamed sizeBytes atomicIOBytes).run es = .ok s) :
    s.written = s.returned ++ contents s.pipe.data ∧ s.pipe.size = (contents s.pipe.data).length ∧
      0 ≤ s.pipe.size ∧ s.pipe.size ≤ s.pipe.max := by
  have hinv := run_inv (inv_init isNamed sizeBytes atomicIOBytes) h
  refine ⟨hinv.fifo, hinv.wf.size_eq, ?_, hinv.wf.size_le⟩
  rw [hinv.wf.size_eq]
  exact Int.natCast_nonneg _

/-- Every run from `NewPipe` in which no write meets a fault leaves no buffer
empty: the front buffer, the one a read looks at first, always has bytes. -/
theorem run_filled {isNamed : Bool} {sizeBytes atomicIOBytes : Int} {es : List Event}
    (h : (init isNamed sizeBytes atomicIOBytes).run es = .ok s) (hm : ∀ e ∈ es, e.Mapped) :
    Filled s.pipe.data := by
  have := @Outcome.foldlM_eq_ok_induction Unit System Event
    (fun pre s => s.Inv ∧ ((∀ e ∈ pre, e.Mapped) → Filled s.pipe.data)) step
    (fun pre c a a' ⟨ha, hfa⟩ hs => ⟨step_inv ha hs, fun hpre =>
      step_filled (hpre c (List.mem_append_right pre (List.mem_singleton_self c))) ha
        (hfa fun e he => hpre e (List.mem_append_left [c] he)) hs⟩)
    es [] _ s ⟨inv_init isNamed sizeBytes atomicIOBytes, fun _ b hb => by simp [init, newPipe] at hb⟩ h
  exact this.2 (by simpa using hm)

end System

namespace Pipe

/-- `rReadinessLocked` with a reader and a writer: readable exactly while a
buffer is queued, whatever it holds. -/
theorem rReadiness_eventIn {p : Pipe} (hr : p.hasReaders = true) (hw : p.hasWriters = true) :
    p.rReadiness &&& eventIn = if p.data.isEmpty then 0 else eventIn := by
  unfold rReadiness
  cases p.data.isEmpty <;> simp [hr, hw]

/-- A write whose sequence faults at its first byte, to a pipe whose last
buffer is full or that has none, pushes a new buffer, copies nothing into it
and fails with `EFAULT`. A read of all that is queued then takes off every
other buffer and stops at that one, which is left at the front: the pipe is
empty, its read end reports `EventIn`, and a read returns `ErrWouldBlock`. -/
theorem write_fault_leaves_empty_front (p : Pipe) (src dst : IOSequence) (hwf : p.Wf)
    (hr : p.hasReaders = true) (hw : p.hasWriters = true) (hlast : ∀ b ∈ p.data.getLast?, b.full = true)
    (hpos : 0 < src.numBytes) (hfault : src.mapped = 0) (hfit : (src.numBytes : Int) ≤ p.max - p.size)
    (hdst : 0 < dst.numBytes) (hall : (contents p.data).length ≤ dst.numBytes) (hm : dst.numBytes ≤ dst.mapped) :
    p.write src = ((0, some .EFAULT), { p with data := p.data ++ [newBuffer] }) ∧
      ({ p with data := p.data ++ [newBuffer] } : Pipe).read dst =
        ((p.size.toNat, if p.size = 0 then some .errWouldBlock else none), contents p.data,
          { p with data := [newBuffer], size := 0 }) ∧
      ({ p with data := [newBuffer], size := 0 } : Pipe).rReadiness &&& eventIn = eventIn ∧
      ({ p with data := [newBuffer], size := 0 } : Pipe).read dst =
        ((0, some .errWouldBlock), [], { p with data := [newBuffer], size := 0 }) := by
  have hsize := hwf.size_eq
  have hfilled := hwf.shape.filled_of_last_full hlast
  have hcount := hfilled.length_le
  -- the record updates keep the counts of readers and writers
  have hw₁ : ({ p with data := p.data ++ [newBuffer] } : Pipe).hasWriters = true := hw
  have hr₀ : ({ p with data := [newBuffer], size := 0 } : Pipe).hasReaders = true := hr
  have hw₀ : ({ p with data := [newBuffer], size := 0 } : Pipe).hasWriters = true := hw
  refine ⟨?_, ?_, ?_, ?_⟩
  · -- the write pushes the new buffer, then its copy fails
    rw [write_of_fault hr hfit (by omega), back_of_last_full hlast]
    dsimp only
    rw [IOSequence.copyInTo_newBuffer hfault, hfault, Nat.zero_min]
    simp
  · by_cases hzero : p.size = 0
    · -- nothing was queued: the read returns at once
      have hnil : p.data = [] := List.eq_nil_of_length_eq_zero (by omega)
      rw [read, if_neg (by omega), if_pos hzero, if_neg (by simp [hw₁])]
      simp [hnil, hzero]
    · -- the read takes every byte there is, buffer by buffer
      have hk : (if (dst.numBytes : Int) > p.size then dst.takeFirst p.size.toNat else dst).numBytes =
          (contents p.data).length := by
        split_ifs with hgt
        · rw [IOSequence.numBytes_takeFirst]
          omega
        · omega
      have hmapped : (if (dst.numBytes : Int) > p.size then dst.takeFirst p.size.toNat else dst).mapped =
          dst.mapped := by
        split_ifs <;> rfl
      rw [read, if_neg (by omega), if_neg hzero]
      dsimp only
      rw [readLoop_drain p.data [newBuffer] _ _ _ 0 [] hfilled rfl hk (by omega) (by omega)]
      simp only [Nat.zero_add, List.nil_append, hzero, if_false]
      congr 3
      · omega
      · omega
  · rw [rReadiness_eventIn hr₀ hw₀]
    rfl
  · rw [read, if_neg (by omega), if_pos rfl, if_neg (by simp [hw₀])]

/-- The empty pipe of `NewPipe`, with a reader and a writer: a write of one
byte at an address that is not mapped leaves an empty buffer, and the read end
reports `EventIn` while a read returns `ErrWouldBlock`. -/
theorem write_fault_leaves_empty_front_newPipe :
    (newPipe false 0 0).rOpen.wOpen.write ⟨[97], 0⟩ =
        ((0, some .EFAULT), { (newPipe false 0 0).rOpen.wOpen with
          data := (newPipe false 0 0).rOpen.wOpen.data ++ [newBuffer] }) ∧
      ({ (newPipe false 0 0).rOpen.wOpen with
          data := (newPipe false 0 0).rOpen.wOpen.data ++ [newBuffer] } : Pipe).read ⟨[0], 1⟩ =
        (((newPipe false 0 0).rOpen.wOpen.size.toNat,
            if (newPipe false 0 0).rOpen.wOpen.size = 0 then some .errWouldBlock else none),
          contents (newPipe false 0 0).rOpen.wOpen.data,
          { (newPipe false 0 0).rOpen.wOpen with data := [newBuffer], size := 0 }) ∧
      ({ (newPipe false 0 0).rOpen.wOpen with data := [newBuffer], size := 0 } : Pipe).rReadiness &&& eventIn =
        eventIn ∧
      ({ (newPipe false 0 0).rOpen.wOpen with data := [newBuffer], size := 0 } : Pipe).read ⟨[0], 1⟩ =
        ((0, some .errWouldBlock), [], { (newPipe false 0 0).rOpen.wOpen with data := [newBuffer], size := 0 }) :=
  write_fault_leaves_empty_front _ _ _ (wf_newPipe false 0 0).rOpen.wOpen (by decide) (by decide)
    (by simp [newPipe, rOpen, wOpen]) (by decide) rfl (by decide) (by decide) (by decide) (by decide)

end Pipe

end KernelPipe
