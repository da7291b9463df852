import Gvisor.KernelPipe.Pipe

/-! What `write` and `read` do to the queue of buffers: a write appends the
first bytes of its sequence, a read takes bytes off the front, and both keep
the queue in the shape that makes the read loop progress. The counts are exact
where the sequence is mapped. -/

namespace KernelPipe

open Syserror

/-- The bytes queued in a list of buffers, front to back. -/
def contents (data : List Buffer) : List UInt8 := (data.map Buffer.unread).flatten

@[simp] theorem contents_nil : contents [] = [] := rfl

@[simp] theorem contents_cons (b : Buffer) (data : List Buffer) :
    contents (b :: data) = b.unread ++ contents data := rfl

@[simp] theorem contents_append (d₁ d₂ : List Buffer) : contents (d₁ ++ d₂) = contents d₁ ++ contents d₂ := by
  simp [contents]

@[simp] theorem unread_newBuffer : newBuffer.unread = [] := rfl

@[simp] theorem write_newBuffer : newBuffer.write = 0 := rfl

@[simp] theorem read_newBuffer : newBuffer.read = 0 := rfl

/-- The shape the queue keeps: every buffer but the last has bytes left to
read, and so has a full one. -/
structure Shape (data : List Buffer) : Prop where
  dropLast_read_lt : ∀ b ∈ data.dropLast, b.read < b.write
  full_read_lt : ∀ b ∈ data, b.write = bufferSize → b.read < b.write

theorem Shape.nil : Shape [] := ⟨by simp, by simp⟩

theorem Shape.of_cons {b : Buffer} {rest : List Buffer} (h : Shape (b :: rest)) : Shape rest := by
  refine ⟨fun c hc => ?_, fun c hc => h.full_read_lt c (List.mem_cons_of_mem b hc)⟩
  have hne : rest ≠ [] := by
    rintro rfl
    simp at hc
  apply h.dropLast_read_lt
  rw [List.dropLast_cons_of_ne_nil hne]
  exact List.mem_cons_of_mem b hc

/-- A front buffer with bytes left can stand in for the old one. -/
theorem Shape.cons {b b' : Buffer} {rest : List Buffer} (h : Shape (b :: rest)) (hb' : b'.read < b'.write) :
    Shape (b' :: rest) := by
  have hrest := h.of_cons
  refine ⟨fun c hc => ?_, fun c hc _ => ?_⟩
  · cases rest with
    | nil => simp at hc
    | cons d ds =>
      rw [List.dropLast_cons_of_ne_nil (List.cons_ne_nil d ds)] at hc
      rcases List.mem_cons.1 hc with rfl | hc
      · exact hb'
      · exact hrest.dropLast_read_lt c hc
  · rcases List.mem_cons.1 hc with rfl | hc
    · exact hb'
    · exact h.full_read_lt c (List.mem_cons_of_mem b hc) ‹_›

/-- Every buffer of the queue has bytes left to read. -/
def Filled (data : List Buffer) : Prop := ∀ b ∈ data, b.read < b.write

/-- A queue whose buffers all have bytes left has the shape. -/
theorem Shape.of_filled {data : List Buffer} (h : Filled data) : Shape data :=
  ⟨fun b hb => h b (List.dropLast_subset data hb), fun b hb _ => h b hb⟩

/-- Behind the front buffer of a queue of this shape there are bytes only if
the front one has some. -/
theorem Shape.front_read_lt {b : Buffer} {rest : List Buffer} (h : Shape (b :: rest))
    (hne : contents (b :: rest) ≠ []) : b.read < b.write := by
  by_contra hle
  cases rest with
  | nil =>
    have : b.unread = [] := List.eq_nil_of_length_eq_zero (by rw [b.length_unread]; omega)
    simp [this] at hne
  | cons d ds =>
    exact hle (h.dropLast_read_lt b (by simp))

/-- A queue of this shape whose last buffer is full has bytes in every buffer. -/
theorem Shape.filled_of_last_full {data : List Buffer} (h : Shape data)
    (hlast : ∀ b ∈ data.getLast?, b.full = true) : Filled data := by
  intro b hb
  cases hl : data.getLast? with
  | none =>
    rw [List.getLast?_eq_none_iff.1 hl] at hb
    simp at hb
  | some last =>
    rw [← List.dropLast_append_getLast? last hl] at hb
    rcases List.mem_append.1 hb with hb | hb
    · exact h.dropLast_read_lt b hb
    · rw [List.mem_singleton.1 hb]
      exact h.full_read_lt last (List.mem_of_getLast? hl) (Buffer.full_eq_true.1 (hlast last hl))

/-- Buffers that all hold bytes hold at least as many bytes as there are buffers. -/
theorem Filled.length_le {data : List Buffer} (h : Filled data) : data.length ≤ (contents data).length := by
  induction data with
  | nil => simp
  | cons b d ih =>
    have hb := h b List.mem_cons_self
    have hd := ih fun c hc => h c (List.mem_cons_of_mem b hc)
    rw [contents_cons, List.length_append, b.length_unread, List.length_cons]
    omega

namespace Pipe

/-- `back` takes no bytes away and gives a buffer with room, after buffers
with bytes left. -/
theorem back_spec {data : List Buffer} (h : Shape data) :
    (∀ b ∈ (back data).1, b.read < b.write) ∧
      contents (back data).1 ++ (back data).2.unread = contents data ∧ (back data).2.write < bufferSize := by
  unfold back
  cases hl : data.getLast? with
  | none =>
    rw [List.getLast?_eq_none_iff.1 hl]
    exact ⟨by simp, rfl, by simp [bufferSize]⟩
  | some last =>
    have hdata := List.dropLast_append_getLast? last hl
    have hmem := List.mem_of_getLast? hl
    dsimp only
    by_cases hf : last.full = true
    · rw [if_pos hf]
      refine ⟨fun b hb => ?_, by simp, by simp [bufferSize]⟩
      rw [← hdata] at hb
      rcases List.mem_append.1 hb with hb | hb
      · exact h.dropLast_read_lt b hb
      · rw [List.mem_singleton.1 hb]
        exact h.full_read_lt last hmem (Buffer.full_eq_true.1 hf)
    · rw [if_neg hf]
      refine ⟨h.dropLast_read_lt, ?_, ?_⟩
      · conv_rhs => rw [← hdata]
        simp
      · have := last.write_le
        have : last.write ≠ bufferSize := fun e => hf (Buffer.full_eq_true.2 e)
        show last.write < bufferSize
        omega

/-- Where the last buffer is full, or there is none, a write pushes a new one. -/
theorem back_of_last_full {data : List Buffer} (hlast : ∀ b ∈ data.getLast?, b.full = true) :
    back data = (data, newBuffer) := by
  unfold back
  cases hl : data.getLast? with
  | none => rw [List.getLast?_eq_none_iff.1 hl]
  | some last =>
    dsimp only
    rw [if_pos (hlast last hl)]

/-- One turn of the loop of `write`: the copy goes to the buffer `back`
gives, which takes the first `n` bytes of the sequence, and the queue keeps its
shape. -/
theorem back_copyInTo {data : List Buffer} (h : Shape data) {src : IOSequence} {front : List Buffer}
    {last last' : Buffer} {n : ℕ} {err : Option Errno} (hb : back data = (front, last))
    (hc : src.copyInTo last = ((n, err), last')) :
    Shape (front ++ [last']) ∧ contents (front ++ [last']) = contents data ++ src.bytes.take n ∧
      n = min (min src.mapped src.numBytes) (bufferSize - last.write) ∧ err = src.fault ∧
      last.write < bufferSize ∧ (0 < n → Filled (front ++ [last'])) := by
  obtain ⟨hfront, hcont, hroom⟩ := back_spec h
  rw [hb] at hfront hcont hroom
  dsimp only at hfront hcont hroom
  have hw := IOSequence.write_copyInTo src last
  have hr := IOSequence.read_copyInTo src last
  have hcount := IOSequence.count_copyInTo src last
  have hunread := IOSequence.unread_copyInTo src last
  have herr := IOSequence.err_copyInTo src last
  rw [hc] at hw hr hcount hunread herr
  have hle := last.read_le_write
  dsimp only at hw hr
  refine ⟨⟨?_, fun b hb hfull => ?_⟩, ?_, hcount, herr, hroom, fun hn b hb => ?_⟩
  · rw [List.dropLast_concat]
    exact hfront
  · rcases List.mem_append.1 hb with hb | hb
    · exact hfront b hb
    · rw [List.mem_singleton.1 hb] at hfull ⊢
      omega
  · rw [contents_append, ← hcont, contents_cons, contents_nil, List.append_nil, hunread, List.append_assoc]
  · rcases List.mem_append.1 hb with hb | hb
    · exact hfront b hb
    · rw [List.mem_singleton.1 hb]
      omega

/-- The loop of `write` appends the first `n` bytes of its sequence, `n` at
most its length, and all of them where the sequence is mapped and the loop has
a turn for each byte; from a mapped sequence it leaves no buffer empty. -/
theorem writeLoop_spec : ∀ (fuel : ℕ) (p : Pipe) (src : IOSequence) (done : ℕ), Shape p.data →
    ∃ n err data, writeLoop fuel p src done = ((done + n, err), { p with data, size := p.size + n }) ∧
      n ≤ src.numBytes ∧ contents data = contents p.data ++ src.bytes.take n ∧ Shape data ∧
      (src.numBytes ≤ src.mapped → src.numBytes ≤ fuel → n = src.numBytes ∧ err = none) ∧
      (src.numBytes ≤ src.mapped → Filled p.data → Filled data)
  | 0, p, src, done, h =>
    ⟨0, none, p.data, by simp [writeLoop], by omega, by simp, h, fun _ _ => ⟨by omega, rfl⟩, fun _ hf => hf⟩
  | fuel + 1, p, src, done, h => by
    by_cases hpos : 0 < src.numBytes
    · rw [writeLoop, if_pos hpos]
      rcases hb : back p.data with ⟨front, last⟩
      dsimp only
      generalize hc : src.copyInTo last = r
      obtain ⟨⟨n, err⟩, last'⟩ := r
      obtain ⟨hshape, hcont, hcount, herr, hroom, hfilled⟩ := back_copyInTo h hb hc
      dsimp only
      cases err with
      | some e =>
        -- the copy failed: the loop stops after this turn
        have hfault : ¬ src.numBytes ≤ src.mapped := fun hm => by
          rw [IOSequence.fault_eq_none.2 hm] at herr
          cases herr
        exact ⟨n, some e, _, rfl, by omega, hcont, hshape, fun hm => absurd hm hfault,
          fun hm => absurd hm hfault⟩
      | none =>
        have hm := IOSequence.fault_eq_none.1 herr.symm
        obtain ⟨n₂, err₂, data₂, hrun, hle₂, hcont₂, hshape₂, hexact₂, hfill₂⟩ :=
          writeLoop_spec fuel { p with data := front ++ [last'], size := p.size + n } (src.dropFirst n)
            (done + n) hshape
        simp only [IOSequence.numBytes_dropFirst] at hle₂ hexact₂ hfill₂
        have hmapped : src.numBytes - n ≤ (src.dropFirst n).mapped := by
          simp only [IOSequence.dropFirst, IOSequence.numBytes] at hm ⊢
          omega
        refine ⟨n + n₂, err₂, data₂, ?_, by omega, ?_, hshape₂, fun _ hfuel => ?_,
          fun _ _ => hfill₂ hmapped (hfilled (by omega))⟩
        · rw [hrun, Nat.add_assoc]
          simp only [Int.natCast_add, Int.add_assoc]
        · rw [hcont₂, hcont, List.take_add, List.append_assoc]
          rfl
        · -- a mapped sequence fills the buffer or ends, so this turn copied a byte
          obtain ⟨hn₂, rfl⟩ := hexact₂ hmapped (by omega)
          exact ⟨by omega, rfl⟩
    · rw [writeLoop, if_neg hpos]
      exact ⟨0, none, p.data, by simp, by omega, by simp, h, fun _ _ => ⟨by omega, rfl⟩, fun _ hf => hf⟩

/-- The end of `write`: what the loop copied, and `ErrWouldBlock` for a write
that the loop did not fail and that `limit` cut short. -/
theorem writeRest_spec (p : Pipe) (h : Shape p.data) (wanted : ℕ) (src : IOSequence) :
    ∃ n err data, p.writeRest wanted src = ((n, err), { p with data, size := p.size + n }) ∧
      n ≤ src.numBytes ∧ contents data = contents p.data ++ src.bytes.take n ∧ Shape data ∧
      (src.numBytes ≤ src.mapped →
        n = src.numBytes ∧ err = if wanted > src.numBytes then some .errWouldBlock else none) ∧
      (src.numBytes ≤ src.mapped → Filled p.data → Filled data) := by
  obtain ⟨n, err, data, hrun, hle, hcont, hshape, hexact, hfill⟩ := writeLoop_spec src.numBytes p src 0 h
  rw [Nat.zero_add] at hrun
  unfold writeRest
  rw [hrun]
  cases err with
  | some e =>
    refine ⟨n, some e, data, rfl, hle, hcont, hshape, fun hm => ?_, hfill⟩
    cases (hexact hm (Nat.le_refl _)).2
  | none =>
    dsimp only
    by_cases hcut : wanted > n
    · rw [if_pos hcut]
      refine ⟨n, _, data, rfl, hle, hcont, hshape, fun hm => ?_, hfill⟩
      obtain ⟨rfl, -⟩ := hexact hm (Nat.le_refl _)
      exact ⟨rfl, by rw [if_pos hcut]⟩
    · rw [if_neg hcut]
      refine ⟨n, _, data, rfl, hle, hcont, hshape, fun hm => ?_, hfill⟩
      obtain ⟨rfl, -⟩ := hexact hm (Nat.le_refl _)
      exact ⟨rfl, by rw [if_neg hcut]⟩

/-- The invariant of a pipe: `size` counts the bytes queued, at most `max`,
and the queue has its shape. -/
structure Wf (p : Pipe) : Prop where
  size_eq : p.size = (contents p.data).length
  size_le : p.size ≤ p.max
  shape : Shape p.data

/-- Every `write` appends the first `n` bytes of its sequence, `n` the count
it returns, and stays within `max`. -/
theorem write_spec {p : Pipe} (h : p.Wf) (src : IOSequence) :
    ∃ n err data, p.write src = ((n, err), { p with data, size := p.size + n }) ∧
      n ≤ src.numBytes ∧ p.size + n ≤ p.max ∧ contents data = contents p.data ++ src.bytes.take n ∧
      Shape data ∧ (src.numBytes ≤ src.mapped → Filled p.data → Filled data) := by
  have hle := h.size_le
  unfold write
  split_ifs with hr
  · exact ⟨0, some .EPIPE, p.data, by simp, by omega, by omega, by simp, h.shape, fun _ hf => hf⟩
  dsimp only
  split_ifs with hgt hatomic
  · exact ⟨0, some .errWouldBlock, p.data, by simp, by omega, by omega, by simp, h.shape, fun _ hf => hf⟩
  · -- the write is cut to what fits
    obtain ⟨n, err, data, hrest, hn, hcont, hshape, -, hfill⟩ :=
      writeRest_spec p h.shape src.numBytes (src.takeFirst (p.max - p.size).toNat)
    rw [IOSequence.numBytes_takeFirst] at hn hfill
    refine ⟨n, err, data, hrest, by omega, by omega, ?_, hshape, fun hm => hfill (by
      show _ ≤ src.mapped
      omega)⟩
    rw [hcont, IOSequence.takeFirst, List.take_take, Nat.min_eq_left (by omega)]
  · obtain ⟨n, err, data, hrest, hn, hcont, hshape, -, hfill⟩ := writeRest_spec p h.shape src.numBytes src
    exact ⟨n, err, data, hrest, hn, by omega, hcont, hshape, hfill⟩

/-- A write that fits, from a mapped sequence, is taken whole. -/
theorem write_of_fit {p : Pipe} (h : p.Wf) (hr : p.hasReaders = true) {src : IOSequence}
    (hm : src.numBytes ≤ src.mapped) (hfit : (src.numBytes : Int) ≤ p.max - p.size) :
    ∃ data, p.write src = ((src.numBytes, none), { p with data, size := p.size + src.numBytes }) ∧
      contents data = contents p.data ++ src.bytes ∧ Shape data := by
  obtain ⟨n, err, data, hrest, -, hcont, hshape, hexact, -⟩ := writeRest_spec p h.shape src.numBytes src
  obtain ⟨rfl, rfl⟩ := hexact hm
  refine ⟨data, ?_, by rw [hcont]; exact congrArg _ (List.take_of_length_le (Nat.le_refl _)), hshape⟩
  rw [write, if_neg (by simp [hr]), if_neg (by omega), hrest, if_neg (Nat.lt_irrefl _)]

/-- A write of at most `atomicIOBytes` bytes that does not fit is refused,
and the pipe is left as it was. -/
theorem write_of_atomic {p : Pipe} (hr : p.hasReaders = true) {src : IOSequence}
    (hgt : p.max - p.size < src.numBytes) (hatomic : (src.numBytes : Int) ≤ p.atomicIOBytes) :
    p.write src = ((0, some .errWouldBlock), p) := by
  rw [write, if_neg (by simp [hr]), if_pos hgt, if_pos hatomic]

/-- A larger write that does not fit, from a sequence mapped as far as the
room left, takes exactly that room and is `ErrWouldBlock`. -/
theorem write_of_partial {p : Pipe} (h : p.Wf) (hr : p.hasReaders = true) {src : IOSequence}
    (hgt : p.max - p.size < src.numBytes) (hatomic : p.atomicIOBytes < src.numBytes)
    (hm : (p.max - p.size).toNat ≤ src.mapped) :
    ∃ data, p.write src = (((p.max - p.size).toNat, some .errWouldBlock), { p with data, size := p.max }) ∧
      contents data = contents p.data ++ src.bytes.take (p.max - p.size).toNat ∧ Shape data := by
  have hle := h.size_le
  have havail : (src.takeFirst (p.max - p.size).toNat).numBytes = (p.max - p.size).toNat := by
    rw [IOSequence.numBytes_takeFirst]
    omega
  obtain ⟨n, err, data, hrest, -, hcont, hshape, hexact, -⟩ :=
    writeRest_spec p h.shape src.numBytes (src.takeFirst (p.max - p.size).toNat)
  rw [havail] at hexact
  obtain ⟨rfl, rfl⟩ := hexact hm
  refine ⟨data, ?_, ?_, hshape⟩
  · rw [write, if_neg (by simp [hr]), if_pos hgt, if_neg (by omega), hrest, if_pos (by omega)]
    congr 3
    omega
  · rw [hcont, IOSequence.takeFirst, List.take_take, Nat.min_self]

/-- A write that fits, from a sequence with a byte not mapped, copies into the
buffer `back` gives as much as is mapped and fits there, and fails with
`EFAULT`: a write of at most `atomicIOBytes` bytes is cut too, and a write
that finds the last buffer full pushes a new one even where it copies nothing. -/
theorem write_of_fault {p : Pipe} (hr : p.hasReaders = true) {src : IOSequence}
    (hfit : (src.numBytes : Int) ≤ p.max - p.size) (hfault : src.mapped < src.numBytes) :
    p.write src = ((min src.mapped (bufferSize - (back p.data).2.write), some .EFAULT),
      { p with data := (back p.data).1 ++ [(src.copyInTo (back p.data).2).2],
               size := p.size + (min src.mapped (bufferSize - (back p.data).2.write) : ℕ) }) := by
  have hcount := IOSequence.count_copyInTo src (back p.data).2
  have herr : src.fault = some .EFAULT := if_pos hfault
  obtain ⟨k, hk⟩ : ∃ k, src.numBytes = k + 1 := ⟨src.numBytes - 1, by omega⟩
  rw [write, if_neg (by simp [hr]), if_neg (by omega), writeRest, hk, writeLoop, if_pos (by omega)]
  dsimp only
  rw [IOSequence.err_copyInTo, herr, hcount, Nat.zero_add, Nat.min_eq_left (Nat.le_of_lt hfault)]

/-- One turn of the loop of `read`: the front buffer gives the first bytes of
the queue, and is taken off where it is left empty. -/
theorem front_copyOutFrom {first : Buffer} {rest : List Buffer} (h : Shape (first :: rest)) {dst : IOSequence}
    {n : ℕ} {err : Option Errno} {bytes : List UInt8} {first' : Buffer}
    (hc : dst.copyOutFrom first = ((n, err), bytes, first')) :
    Shape (if first'.empty then rest else first' :: rest) ∧
      contents (first :: rest) = bytes ++ contents (if first'.empty then rest else first' :: rest) ∧
      bytes.length = n ∧ bytes = first.unread.take (min dst.numBytes dst.mapped) ∧ err = dst.fault ∧
      (Filled (first :: rest) → Filled (if first'.empty then rest else first' :: rest)) := by
  have hbytes := IOSequence.bytes_copyOutFrom dst first
  have hcount := IOSequence.count_copyOutFrom dst first
  have hunread := IOSequence.unread_copyOutFrom dst first
  have herr := IOSequence.err_copyOutFrom dst first
  have hw := IOSequence.write_copyOutFrom dst first
  rw [hc] at hbytes hcount hunread herr hw
  dsimp only at hbytes hcount hunread herr hw
  have hsplit : first.unread = bytes ++ first'.unread := by
    rw [hbytes, hunread, List.take_append_drop]
  -- a front buffer that is not empty has bytes left
  have hleft : first'.empty = false → first'.read < first'.write := fun hempty =>
    Nat.lt_of_le_of_ne first'.read_le_write fun e => by simp [Buffer.empty_eq_true.2 e] at hempty
  refine ⟨?_, ?_, hcount.symm, hbytes, herr, fun hf b hb => ?_⟩
  · cases hempty : first'.empty with
    | true => exact h.of_cons
    | false => exact h.cons (hleft hempty)
  · rw [contents_cons, hsplit, List.append_assoc]
    cases hempty : first'.empty with
    | true =>
      have : first'.unread = [] :=
        List.eq_nil_of_length_eq_zero (by rw [first'.length_unread, Buffer.empty_eq_true.1 hempty]; omega)
      rw [this, List.nil_append]
      rfl
    | false => rfl
  · cases hempty : first'.empty with
    | true =>
      rw [if_pos hempty] at hb
      exact hf b (List.mem_cons_of_mem first hb)
    | false =>
      rw [if_neg (by simp [hempty])] at hb
      rcases List.mem_cons.1 hb with rfl | hb
      · exact hleft hempty
      · exact hf b (List.mem_cons_of_mem first hb)

/-- The loop of `read` takes the first `n` bytes of the queue, and all it is
given where the sequence is mapped, the loop has a turn for each byte and the
queue holds that many; it leaves no buffer empty that was not. -/
theorem readLoop_spec : ∀ (fuel : ℕ) (p : Pipe) (dst : IOSequence) (done : ℕ) (out : List UInt8), Shape p.data →
    ∃ n err bytes data, readLoop fuel p dst done out =
        ((done + n, err), out ++ bytes, { p with data, size := p.size - n }) ∧
      bytes.length = n ∧ contents p.data = bytes ++ contents data ∧ Shape data ∧
      (dst.numBytes ≤ dst.mapped → dst.numBytes ≤ fuel → dst.numBytes ≤ (contents p.data).length →
        n = dst.numBytes ∧ err = none) ∧
      (Filled p.data → Filled data)
  | 0, p, dst, done, out, h =>
    ⟨0, none, [], p.data, by simp [readLoop], rfl, by simp, h, fun _ h0 _ => ⟨by omega, rfl⟩, fun hf => hf⟩
  | fuel + 1, p, dst, done, out, h => by
    by_cases hpos : 0 < dst.numBytes
    · rw [readLoop, if_pos hpos]
      rcases hdata : p.data with _ | ⟨first, rest⟩
      · exact ⟨0, none, [], [], by simp [← hdata], rfl, by simp, Shape.nil,
          fun _ _ hlen => by simp at hlen; omega, fun _ b hb => by simp at hb⟩
      dsimp only
      generalize hc : dst.copyOutFrom first = r
      obtain ⟨⟨n, err⟩, bytes, first'⟩ := r
      rw [hdata] at h
      obtain ⟨hshape, hcont, hlen, hbytes, herr, hfilled⟩ := front_copyOutFrom h hc
      dsimp only
      cases err with
      | some e =>
        refine ⟨n, some e, bytes, _, rfl, hlen, hcont, hshape, fun hm _ _ => ?_, hfilled⟩
        rw [IOSequence.fault_eq_none.2 hm] at herr
        cases herr
      | none =>
        obtain ⟨n₂, err₂, bytes₂, data₂, hrun, hlen₂, hcont₂, hshape₂, hexact₂, hfill₂⟩ :=
          readLoop_spec fuel { p with data := if first'.empty then rest else first' :: rest, size := p.size - n }
            (dst.dropFirst n) (done + n) (out ++ bytes) hshape
        simp only [IOSequence.numBytes_dropFirst] at hexact₂
        refine ⟨n + n₂, err₂, bytes ++ bytes₂, data₂, ?_, by simp [hlen, hlen₂], ?_, hshape₂,
          fun hm hfuel hle => ?_, fun hf => hfill₂ (hfilled hf)⟩
        · rw [hrun, Nat.add_assoc, List.append_assoc]
          simp only [Int.natCast_add, Int.sub_sub]
        · rw [hcont, hcont₂, List.append_assoc]
        · -- the front buffer holds bytes, since the queue does, so this turn copied one
          have hfront := h.front_read_lt (by
            intro hnil
            rw [hnil] at hle
            simp at hle
            omega)
          have hunread := first.length_unread
          have hn : n = min dst.numBytes (first.write - first.read) := by
            rw [← hlen, hbytes, List.length_take, hunread]
            omega
          have hlen' : (contents (first :: rest)).length = n + (contents (if first'.empty then rest else first' :: rest)).length := by
            rw [hcont, List.length_append, hlen]
          obtain ⟨hn₂, rfl⟩ := hexact₂ (by simp only [IOSequence.dropFirst, IOSequence.numBytes] at hm ⊢; omega)
            (by omega) (by omega)
          exact ⟨by omega, rfl⟩
    · rw [readLoop, if_neg hpos]
      exact ⟨0, none, [], p.data, by simp, rfl, by simp, h, fun _ _ _ => ⟨by omega, rfl⟩, fun hf => hf⟩

/-- A read from a mapped sequence of exactly the bytes of the first buffers
`d` of the queue, each holding some, empties one of them a turn and takes it
off, and stops there: the rest of the queue is left as it was. -/
theorem readLoop_drain : ∀ (d rest : List Buffer) (fuel : ℕ) (p : Pipe) (dst : IOSequence) (done : ℕ)
    (out : List UInt8), Filled d → p.data = d ++ rest → dst.numBytes = (contents d).length →
    dst.numBytes ≤ dst.mapped → d.length ≤ fuel →
    readLoop fuel p dst done out = ((done + (contents d).length, none), out ++ contents d,
      { p with data := rest, size := p.size - (contents d).length })
  | [], rest, fuel, p, dst, done, out, _, hp, hn, _, _ => by
    rw [List.nil_append] at hp
    have hp' : ({ p with data := rest, size := p.size - ((contents []).length : Int) } : Pipe) = p := by
      rw [← hp]
      simp
    rw [hp']
    cases fuel with
    | zero => simp [readLoop]
    | succ k =>
      rw [readLoop, if_neg (by simp [hn])]
      simp
  | b :: d, rest, fuel, p, dst, done, out, hf, hp, hn, hm, hfuel => by
    obtain ⟨k, rfl⟩ : ∃ k, fuel = k + 1 := ⟨fuel - 1, by simp at hfuel; omega⟩
    have hb := hf b List.mem_cons_self
    have hlen := b.length_unread
    have hn' : dst.numBytes = (b.write - b.read) + (contents d).length := by
      rw [hn, contents_cons, List.length_append, hlen]
    -- the sequence takes the whole front buffer, which is then empty
    have hk : min dst.numBytes dst.mapped = dst.numBytes := Nat.min_eq_left hm
    have hbytes : (dst.copyOutFrom b).2.1 = b.unread := by
      rw [IOSequence.bytes_copyOutFrom, hk]
      exact List.take_of_length_le (by omega)
    have hcount : (dst.copyOutFrom b).1.1 = b.write - b.read := by
      rw [IOSequence.count_copyOutFrom, hbytes, hlen]
    have hempty : (dst.copyOutFrom b).2.2.empty = true := by
      rw [Buffer.empty_eq_true, IOSequence.read_copyOutFrom, IOSequence.write_copyOutFrom, hk]
      omega
    have herr : (dst.copyOutFrom b).1.2 = none := IOSequence.fault_eq_none.2 hm
    rw [readLoop, if_pos (by omega), hp, List.cons_append]
    dsimp only
    rw [herr, hempty, if_pos rfl, hcount, hbytes]
    dsimp only
    rw [readLoop_drain d rest k _ (dst.dropFirst (b.write - b.read)) _ _ (fun c hc => hf c (List.mem_cons_of_mem b hc))
      rfl (by rw [IOSequence.numBytes_dropFirst]; omega)
      (by
        rw [IOSequence.numBytes_dropFirst]
        show dst.numBytes - (b.write - b.read) ≤ dst.mapped - (b.write - b.read)
        omega)
      (by simp only [List.length_cons] at hfuel; omega)]
    rw [contents_cons, List.length_append, hlen, Nat.add_assoc, List.append_assoc, Int.natCast_add, Int.sub_sub]

/-- Every `read` returns the first bytes of the queue and takes them off it. -/
theorem read_spec {p : Pipe} (h : Shape p.data) (dst : IOSequence) :
    ∃ n err out data, p.read dst = ((n, err), out, { p with data, size := p.size - n }) ∧
      out.length = n ∧ contents p.data = out ++ contents data ∧ Shape data ∧ (Filled p.data → Filled data) := by
  unfold read
  split_ifs with h0 hsize hw
  · exact ⟨0, none, [], p.data, by simp, rfl, rfl, h, fun hf => hf⟩
  · exact ⟨0, none, [], p.data, by simp, rfl, rfl, h, fun hf => hf⟩
  · exact ⟨0, some .errWouldBlock, [], p.data, by simp, rfl, rfl, h, fun hf => hf⟩
  all_goals
    obtain ⟨n, err, bytes, data, hrun, hlen, hcont, hshape, -, hfill⟩ := readLoop_spec _ p _ 0 [] h
    rw [Nat.zero_add, List.nil_append] at hrun
    exact ⟨n, err, bytes, data, hrun, hlen, hcont, hshape, hfill⟩

/-- A read of a mapped sequence from a pipe that is not empty returns as many
bytes as it asks for, or all that are queued where fewer are. -/
theorem read_of_mapped {p : Pipe} (h : p.Wf) {dst : IOSequence} (hpos : 0 < dst.numBytes) (hne : 0 < p.size)
    (hm : min dst.numBytes (contents p.data).length ≤ dst.mapped) :
    ∃ data, p.read dst =
        ((min dst.numBytes (contents p.data).length, none),
          (contents p.data).take (min dst.numBytes (contents p.data).length),
          { p with data, size := p.size - (min dst.numBytes (contents p.data).length : ℕ) }) ∧
      contents data = (contents p.data).drop (min dst.numBytes (contents p.data).length) ∧ Shape data := by
  have hsize := h.size_eq
  -- the sequence after `limit`
  have hk : (if (dst.numBytes : Int) > p.size then dst.takeFirst p.size.toNat else dst).numBytes =
      min dst.numBytes (contents p.data).length := by
    split_ifs with hgt
    · rw [IOSequence.numBytes_takeFirst]
      omega
    · omega
  have hmapped : (if (dst.numBytes : Int) > p.size then dst.takeFirst p.size.toNat else dst).mapped = dst.mapped := by
    split_ifs <;> rfl
  obtain ⟨n, err, bytes, data, hrun, hlen, hcont, hshape, hexact, -⟩ :=
    readLoop_spec (if (dst.numBytes : Int) > p.size then dst.takeFirst p.size.toNat else dst).numBytes p
      (if (dst.numBytes : Int) > p.size then dst.takeFirst p.size.toNat else dst) 0 [] h.shape
  rw [hk, hmapped] at hexact
  obtain ⟨rfl, rfl⟩ := hexact hm (Nat.le_refl _) (Nat.min_le_right _ _)
  have htake : (contents p.data).take (min dst.numBytes (contents p.data).length) = bytes :=
    calc (contents p.data).take (min dst.numBytes (contents p.data).length)
        = (bytes ++ contents data).take (min dst.numBytes (contents p.data).length) := by rw [← hcont]
      _ = bytes := List.take_left' hlen
  have hdrop : (contents p.data).drop (min dst.numBytes (contents p.data).length) = contents data :=
    calc (contents p.data).drop (min dst.numBytes (contents p.data).length)
        = (bytes ++ contents data).drop (min dst.numBytes (contents p.data).length) := by rw [← hcont]
      _ = contents data := List.drop_left' hlen
  refine ⟨data, ?_, hdrop.symm, hshape⟩
  rw [read, if_neg (by omega), if_neg (by omega)]
  dsimp only
  rw [hrun, Nat.zero_add, List.nil_append, htake]

end Pipe

end KernelPipe
