import Gvisor.Tty.LineDiscipline

/-! The output queue of a pty (`outputQueueTransformer` of
line_discipline.go and the queue operations on it). Bytes the slave writes go
through the wait buffer into the read buffer, which the master reads. With
`OPOST` set every character goes through one turn of the `switch` of
`transform`, which may change it and moves the line discipline's column;
without it the bytes are kept as they are. The transformer takes every byte it
is given, so the wait buffer of the output queue is always empty between calls.

The queue operations are those of the input queue with the transformer and its
state as parameters (`pushLoopWith`, `writeWith`); the input queue's
`pushLoop` is the instance with `transform` and no state. `l.column` is a Go
`int` that starts at 0 and is only decremented while positive, a natural
number here. -/

namespace Tty

open Syserror KernelTermios

/-- `spacesPerTab`. -/
def spacesPerTab : ℕ := 8

/-- The body of the loop of `outputQueueTransformer.transform` on one character
`cBytes` at column `column`: the bytes it appends to the read buffer and the
new column. -/
def outputChar (t : KernelTermios) (column : ℕ) : List UInt8 → List UInt8 × ℕ
  | [] => ([], column)
  | c :: rest =>
    if c = 10 then
      let column := if t.oEnabled onlret then 0 else column
      if t.oEnabled onlcr then ([13, 10], column) else (c :: rest, column)
    else if c = 13 then
      if t.oEnabled onocr && column = 0 then ([], column)
      else if t.oEnabled ocrnl then (10 :: rest, if t.oEnabled onlret then 0 else column)
      else (c :: rest, 0)
    else if c = 9 then
      let spaces := spacesPerTab - column % spacesPerTab
      if t.outputFlags &&& tabdly = xtabs then (List.replicate spacesPerTab 32, column + spaces)
      else (c :: rest, column + spaces)
    else if c = 8 then (c :: rest, if column > 0 then column - 1 else column)
    else (c :: rest, column + 1)

/-- The loop of `outputQueueTransformer.transform` with `OPOST` set: the bytes
of `buf` consumed so far, the column and the read buffer. Every turn consumes
at least one byte, so `fuel = buf.length` is never the reason it stops. -/
def outputTransformLoop (t : KernelTermios) : ℕ → List UInt8 → ℕ → ℕ → List UInt8 → ℕ × ℕ × List UInt8
  | 0, _, ret, column, readBuf => (ret, column, readBuf)
  | _ + 1, [], ret, column, readBuf => (ret, column, readBuf)
  | fuel + 1, c :: rest, ret, column, readBuf =>
    let size := peek t (c :: rest)
    let r := outputChar t column ((c :: rest).take size)
    outputTransformLoop t fuel ((c :: rest).drop size) (ret + size) r.2 (readBuf ++ r.1)

/-- `outputQueueTransformer.transform`: the bytes of `buf` it consumed, the
column, and the queue with what they added to the read buffer. -/
def outputTransform (t : KernelTermios) (column : ℕ) (q : Queue) (buf : List UInt8) : ℕ × ℕ × Queue :=
  if !t.oEnabled opost then
    let readBuf := q.readBuf ++ buf
    (buf.length, column, { q with readBuf, readable := decide (readBuf.length > 0) || q.readable })
  else
    let r := outputTransformLoop t buf.length buf 0 column q.readBuf
    (r.1, r.2.1, { q with readBuf := r.2.2, readable := decide (r.2.2.length > 0) || q.readable })

section Transformer

variable {σ : Type} (tr : σ → Queue → List UInt8 → ℕ × σ × Queue)

/-- The loop of `pushWaitBufLocked` for a transformer `tr` with a state of its
own: the bytes moved, the chunks left, the transformer's state and the queue. -/
def pushLoopWith : List (List UInt8) → ℕ → σ → Queue → ℕ × List (List UInt8) × σ × Queue
  | [], total, st, q => (total, [], st, q)
  | b :: rest, total, st, q =>
    let r := tr st q b
    if r.1 ≠ b.length then (total + r.1, b.drop r.1 :: rest, r.2.1, r.2.2)
    else pushLoopWith rest (total + r.1) r.2.1 r.2.2

/-- `pushWaitBufLocked` for the transformer `tr`. -/
def pushWaitBufLockedWith (st : σ) (q : Queue) : ℕ × σ × Queue :=
  if q.waitBufLen = 0 then (0, st, q)
  else
    let r := pushLoopWith tr q.waitBuf 0 st q
    (r.1, r.2.2.1, { r.2.2.2 with waitBuf := r.2.1, waitBufLen := q.waitBufLen - r.1 })

/-- `queue.write` from the bytes `src` for the transformer `tr`. -/
def writeWith (st : σ) (q : Queue) (src : List UInt8) : Except Errno ℕ × σ × Queue :=
  if src = [] then (.ok 0, (pushWaitBufLockedWith tr st q).2)
  else
    let room := waitBufMaxBytes - q.waitBufLen
    if room = 0 then (.error .errWouldBlock, st, q)
    else
      let buf := src.take room
      (.ok buf.length, (pushWaitBufLockedWith tr st (waitBufAppend q buf)).2)

/-- `queue.writeBytes`, which the echo of input uses: no room check. -/
def writeBytesWith (st : σ) (q : Queue) (b : List UInt8) : σ × Queue :=
  (pushWaitBufLockedWith tr st (waitBufAppend q b)).2

end Transformer

/-- `lineDiscipline.outputQueueWrite`, with the column of the line discipline. -/
def outputQueueWrite (t : KernelTermios) (column : ℕ) (q : Queue) (src : List UInt8) :
    Except Errno ℕ × ℕ × Queue :=
  match writeWith (outputTransform t) column q src with
  | (.error e, r) => (.error e, r)
  | (.ok n, r) => if n > 0 then (.ok n, r) else (.error .errWouldBlock, r)

/-- `writeReadiness`: whether the writer of a queue is told `EventOut`. -/
def writeReadiness (q : Queue) : Bool := decide (q.waitBufLen < waitBufMaxBytes)

/-- The output of the bytes `buf` from column `column`, one character of one
byte after another, as `transform` makes it with `IUTF8` clear: the bytes and
the column after them. -/
def outputRun (t : KernelTermios) (column : ℕ) : List UInt8 → List UInt8 × ℕ
  | [] => ([], column)
  | c :: rest =>
    let r := outputChar t column [c]
    let s := outputRun t r.2 rest
    (r.1 ++ s.1, s.2)

section Transform

variable {t : KernelTermios}

/-- The loop takes every byte of its buffer. -/
theorem outputTransformLoop_fst (t : KernelTermios) :
    ∀ (fuel : ℕ) (buf : List UInt8) (ret column : ℕ) (readBuf : List UInt8), buf.length ≤ fuel →
      (outputTransformLoop t fuel buf ret column readBuf).1 = ret + buf.length
  | 0, buf, ret, _, _, h => by
    rw [List.eq_nil_of_length_eq_zero (Nat.le_zero.1 h)]
    rfl
  | _ + 1, [], _, _, _, _ => rfl
  | fuel + 1, c :: rest, ret, column, readBuf, h => by
    obtain ⟨h1, h2⟩ := peek_cons_bounds t c rest
    have hlen : ((c :: rest).drop (peek t (c :: rest))).length ≤ fuel := by
      simp only [List.length_drop, List.length_cons] at h ⊢
      omega
    rw [outputTransformLoop, outputTransformLoop_fst t fuel _ _ _ _ hlen]
    simp only [List.length_drop, List.length_cons]
    omega

/-- With `IUTF8` clear the loop is `outputRun` on its buffer. -/
theorem outputTransformLoop_eq (hu : t.iEnabled iutf8 = false) :
    ∀ (buf : List UInt8) (fuel ret column : ℕ) (readBuf : List UInt8), buf.length ≤ fuel →
      outputTransformLoop t fuel buf ret column readBuf =
        (ret + buf.length, (outputRun t column buf).2, readBuf ++ (outputRun t column buf).1)
  | [], fuel, _, _, _, _ => by cases fuel <;> simp [outputTransformLoop, outputRun]
  | c :: rest, fuel, ret, column, readBuf, h => by
    obtain ⟨fuel, rfl⟩ : ∃ f, fuel = f + 1 := ⟨fuel - 1, by simp at h; omega⟩
    have hpeek : peek t (c :: rest) = 1 := by simp [peek, hu]
    rw [outputTransformLoop, hpeek, List.take_succ_cons, List.take_zero, List.drop_succ_cons, List.drop_zero,
      outputTransformLoop_eq hu rest fuel _ _ _ (by simpa using h)]
    simp only [outputRun, List.length_cons, List.append_assoc, Prod.mk.injEq, and_true]
    omega

/-- `transform` on the output queue takes every byte it is given. -/
theorem outputTransform_fst (t : KernelTermios) (column : ℕ) (q : Queue) (buf : List UInt8) :
    (outputTransform t column q buf).1 = buf.length := by
  unfold outputTransform
  split
  · rfl
  · show (outputTransformLoop t buf.length buf 0 column q.readBuf).1 = buf.length
    rw [outputTransformLoop_fst t _ buf 0 column q.readBuf (Nat.le_refl _), Nat.zero_add]

/-- The output transformer only adds to the read buffer. -/
theorem outputTransform_waitBuf (column : ℕ) (q : Queue) (buf : List UInt8) :
    (outputTransform t column q buf).2.2.waitBuf = q.waitBuf ∧
      (outputTransform t column q buf).2.2.waitBufLen = q.waitBufLen := by
  unfold outputTransform
  split <;> exact ⟨rfl, rfl⟩

/-- With `OPOST` set and `IUTF8` clear, `transform` appends `outputRun` of its
buffer and moves the column to where `outputRun` leaves it. -/
theorem outputTransform_eq (hp : t.oEnabled opost = true) (hu : t.iEnabled iutf8 = false) (column : ℕ)
    (q : Queue) (buf : List UInt8) :
    outputTransform t column q buf =
      (buf.length, (outputRun t column buf).2,
        { q with readBuf := q.readBuf ++ (outputRun t column buf).1,
                 readable := decide ((q.readBuf ++ (outputRun t column buf).1).length > 0) || q.readable }) := by
  unfold outputTransform
  rw [if_neg (by simp [hp])]
  show (_, _, _) = _
  rw [outputTransformLoop_eq hu buf buf.length 0 column q.readBuf (Nat.le_refl _), Nat.zero_add]

/-- A single byte: one turn of the loop, with `IUTF8` or without. -/
theorem outputTransform_singleton (hp : t.oEnabled opost = true) (column : ℕ) (q : Queue) (c : UInt8) :
    outputTransform t column q [c] =
      (1, (outputChar t column [c]).2,
        { q with readBuf := q.readBuf ++ (outputChar t column [c]).1,
                 readable := decide ((q.readBuf ++ (outputChar t column [c]).1).length > 0) || q.readable }) := by
  simp [outputTransform, hp, outputTransformLoop, peek_singleton]

end Transform

/-! ### Linux's `do_output_char`

The reference the output transformer is compared with: what
drivers/tty/n_tty.c:do_output_char writes for one byte at column `column`
with `IUTF8` clear, given room for it, and the column after. -/

/-- `iscntrl` of the kernel's character table: the C0 controls, DEL and the
C1 controls. -/
def isCntrl (c : UInt8) : Bool := c < 32 || c = 127 || (128 ≤ c && c < 160)

/-- `do_output_char` for the byte `c` at column `column`. -/
def doOutputChar (t : KernelTermios) (column : ℕ) (c : UInt8) : List UInt8 × ℕ :=
  if c = 10 then
    let column := if t.oEnabled onlret then 0 else column
    if t.oEnabled onlcr then ([13, 10], 0) else ([10], column)
  else if c = 13 then
    if t.oEnabled onocr && column = 0 then ([], column)
    else if t.oEnabled ocrnl then ([10], if t.oEnabled onlret then 0 else column)
    else ([13], 0)
  else if c = 9 then
    let spaces := 8 - column % 8
    if t.outputFlags &&& tabdly = xtabs then (List.replicate spaces 32, column + spaces)
    else ([9], column + spaces)
  else if c = 8 then ([8], if column > 0 then column - 1 else column)
  else ([c], if isCntrl c then column else column + 1)

/-- Where the output transformer does what `do_output_char` does: every byte
but a tab expanded off a tab stop, a newline that `ONLCR` alone expands off
column 0, and a control character other than the four the `switch` knows. -/
theorem outputChar_eq_doOutputChar {t : KernelTermios} {column : ℕ} {c : UInt8}
    (htab : c = 9 → t.outputFlags &&& tabdly = xtabs → column % spacesPerTab = 0)
    (hnl : c = 10 → t.oEnabled onlcr = true → t.oEnabled onlret = false → column = 0)
    (hcntrl : isCntrl c = true → c = 8 ∨ c = 9 ∨ c = 10 ∨ c = 13) :
    outputChar t column [c] = doOutputChar t column c := by
  unfold outputChar doOutputChar
  by_cases h10 : c = 10
  · -- the column after `ONLCR` is 0 in both once `ONLRET` or the column is
    subst h10
    cases hc : t.oEnabled onlcr with
    | false => simp
    | true =>
      cases hr : t.oEnabled onlret with
      | false => simp [hnl rfl hc hr]
      | true => simp
  by_cases h13 : c = 13
  · simp [h13]
  by_cases h9 : c = 9
  · subst h9
    by_cases hx : t.outputFlags &&& tabdly = xtabs
    · have h0 : column % 8 = 0 := htab rfl hx
      simp [hx, h0, spacesPerTab]
    · simp [hx, spacesPerTab]
  by_cases h8 : c = 8
  · simp [h8]
  have hc : isCntrl c = false := by
    cases h : isCntrl c
    · rfl
    · rcases hcntrl h with h' | h' | h' | h' <;> contradiction
  simp [h10, h13, h9, h8, hc]

/-- The output transformer does not write what `do_output_char` writes. It
takes every byte it is given, but a tab that `XTABS` expands becomes
`spacesPerTab` spaces wherever the column is, where Linux writes the spaces to
the next tab stop; and a newline that `ONLCR` expands without `ONLRET` leaves
the column where it was, where Linux moves it to 0. -/
theorem outputTransform_diverges_from_doOutputChar :
    (∀ (t : KernelTermios) (column : ℕ) (q : Queue) (buf : List UInt8), (outputTransform t column q buf).1 = buf.length) ∧
    (∀ (t : KernelTermios) (column : ℕ) (q : Queue), t.oEnabled opost = true → t.outputFlags &&& tabdly = xtabs →
      (outputTransform t column q [9]).2.2.readBuf = q.readBuf ++ List.replicate spacesPerTab 32 ∧
        (outputTransform t column q [9]).2.1 = column + (spacesPerTab - column % spacesPerTab) ∧
        doOutputChar t column 9 =
          (List.replicate (spacesPerTab - column % spacesPerTab) 32, column + (spacesPerTab - column % spacesPerTab))) ∧
    (∀ (t : KernelTermios) (column : ℕ) (q : Queue), t.oEnabled opost = true → t.oEnabled onlcr = true →
      t.oEnabled onlret = false →
      (outputTransform t column q [10]).2.2.readBuf = q.readBuf ++ [13, 10] ∧
        (outputTransform t column q [10]).2.1 = column ∧ doOutputChar t column 10 = ([13, 10], 0)) := by
  refine ⟨outputTransform_fst, ?_, ?_⟩
  · intro t column q hp hx
    rw [outputTransform_singleton hp]
    simp [outputChar, doOutputChar, hx, spacesPerTab]
  · intro t column q hp hc hr
    rw [outputTransform_singleton hp]
    simp [outputChar, doOutputChar, hc, hr]

/-- The default slave settings with `XTABS`, at column 1 after one printed
byte: the transformer writes eight spaces for a tab, Linux seven; and at column
1 a newline leaves the transformer's column at 1, Linux's at 0. -/
theorem outputTransform_diverges_from_doOutputChar_col1 :
    (outputTransform { defaultSlaveTermios with outputFlags := opost ||| onlcr ||| xtabs } 1 Queue.empty
        [9]).2.2.readBuf = List.replicate 8 32 ∧
      (doOutputChar { defaultSlaveTermios with outputFlags := opost ||| onlcr ||| xtabs } 1 9).1 =
        List.replicate 7 32 ∧
      (outputTransform defaultSlaveTermios 1 Queue.empty [10]).2.1 = 1 ∧
      (doOutputChar defaultSlaveTermios 1 10).2 = 0 := by
  obtain ⟨-, htab, hnl⟩ := outputTransform_diverges_from_doOutputChar
  obtain ⟨h1, -, h2⟩ :=
    htab { defaultSlaveTermios with outputFlags := opost ||| onlcr ||| xtabs } 1 Queue.empty (by decide) (by decide)
  obtain ⟨-, h3, h4⟩ := hnl defaultSlaveTermios 1 Queue.empty (by decide) (by decide) (by decide)
  refine ⟨h1, by rw [h2]; rfl, h3, by rw [h4]⟩

end Tty
