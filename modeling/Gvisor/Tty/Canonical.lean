import Gvisor.Tty.LineDiscipline

/-! Canonical mode as the lines it makes of the bytes written. `feed` is what
one input byte does to the lines finished so far and the line being typed:
`IGNCR`, `ICRNL` and `INLCR` as `inputChar` has them, a line ends after a
terminating character, the end-of-file character is not kept, and a line
keeps its first 4095 bytes that do not end it. `canonLines` folds it over a
byte stream.

With `ICANON` set and `IUTF8` clear, every character is one byte, and
`transform` does what `feed` says: from a queue with no line waiting it
consumes a chunk up to the end of the first line in it, with the read buffer
the line being typed (`transformLoop_spec`). `Agree` relates a queue to the
bytes it has processed and the bytes read from it so far, and one call of
`transform`, and a whole `pushLoop`, keep it. -/

namespace Tty

open KernelTermios

/-- What canonical mode does with the input byte `c`, given the lines finished
so far and the line being typed. -/
def feed (t : KernelTermios) (s : List (List UInt8) × List UInt8) (c : UInt8) :
    List (List UInt8) × List UInt8 :=
  match inputChar t c with
  | none => s
  | some c' =>
    if t.isTerminating [c'] then (s.1 ++ [if t.isEOF c' then s.2 else s.2 ++ [c']], [])
    else if s.2.length < canonMaxBytes - 1 then (s.1, s.2 ++ [c'])
    else s

/-- The lines of a byte stream in canonical mode, and the unfinished last one. -/
def canonLines (t : KernelTermios) (bytes : List UInt8) : List (List UInt8) × List UInt8 :=
  bytes.foldl (feed t) ([], [])

/-- The lines a queue offers to its reader: the line waiting when it is
readable, and otherwise none, with the line being typed. -/
def Queue.lineView (q : Queue) : List (List UInt8) × List UInt8 :=
  if q.readable then ([q.readBuf], []) else ([], q.readBuf)

section Feed

variable {t : KernelTermios}

/-- `feed` never reads the lines already finished. -/
theorem feed_eq (L : List (List UInt8)) (cur : List UInt8) (c : UInt8) :
    feed t (L, cur) c = (L ++ (feed t ([], cur) c).1, (feed t ([], cur) c).2) := by
  unfold feed
  split
  · simp
  · split_ifs <;> simp

theorem foldl_feed (xs : List UInt8) :
    ∀ (L : List (List UInt8)) (cur : List UInt8),
      xs.foldl (feed t) (L, cur) = (L ++ (xs.foldl (feed t) ([], cur)).1, (xs.foldl (feed t) ([], cur)).2) := by
  induction xs with
  | nil => intro L cur; simp
  | cons c xs ih =>
    intro L cur
    rw [List.foldl_cons, List.foldl_cons, feed_eq L, ih, ih (feed t ([], cur) c).1]
    simp

theorem canonLines_append (p xs : List UInt8) :
    canonLines t (p ++ xs) = ((canonLines t p).1 ++ (xs.foldl (feed t) ([], (canonLines t p).2)).1,
      (xs.foldl (feed t) ([], (canonLines t p).2)).2) := by
  rw [canonLines, List.foldl_append, ← canonLines, ← foldl_feed]

theorem canonLines_prefix (p xs : List UInt8) : (canonLines t p).1 <+: (canonLines t (p ++ xs)).1 := by
  rw [canonLines_append]
  exact List.prefix_append _ _

theorem feed_snd_length_lt {s : List (List UInt8) × List UInt8} (h : s.2.length < canonMaxBytes) (c : UInt8) :
    (feed t s c).2.length < canonMaxBytes := by
  unfold feed
  split
  · exact h
  · -- a line ends, with or without its last byte; a byte is kept; a byte is dropped
    split_ifs
    · simp [canonMaxBytes]
    · simp [canonMaxBytes]
    · simp only [List.length_append, List.length_singleton]
      omega
    · exact h

/-- The line being typed never holds more than 4095 bytes. -/
theorem canonLines_snd_length_lt (p : List UInt8) : (canonLines t p).2.length < canonMaxBytes := by
  have key : ∀ (xs : List UInt8) (s : List (List UInt8) × List UInt8),
      s.2.length < canonMaxBytes → (xs.foldl (feed t) s).2.length < canonMaxBytes := by
    intro xs
    induction xs with
    | nil => exact fun _ h => h
    | cons c xs ih => exact fun s h => ih _ (feed_snd_length_lt h c)
  exact key p ([], []) (by simp [canonMaxBytes])

end Feed

/-- What a call of `transform` that consumed `n` bytes of `buf` did to a queue
`q` with no line waiting: the bytes it took are the first `n`, what canonical
mode makes of them is what the queue then offers, and it stopped early only at
the end of a line. -/
structure Transformed (t : KernelTermios) (q : Queue) (buf : List UInt8) (n : ℕ) (q' : Queue) : Prop where
  le : n ≤ buf.length
  waitBuf : q'.waitBuf = q.waitBuf
  waitBufLen : q'.waitBufLen = q.waitBufLen
  lines : (buf.take n).foldl (feed t) ([], q.readBuf) = q'.lineView
  all : q'.readable = false → n = buf.length

namespace Transformed

variable {t : KernelTermios} {q q₁ q' : Queue} {c : UInt8} {rest : List UInt8} {n : ℕ}

theorem nil (hq : q.readable = false) : Transformed t q [] 0 q :=
  ⟨Nat.le_refl 0, rfl, rfl, by simp [Queue.lineView, hq], fun _ => rfl⟩

/-- A byte that adds to the line being typed, or is dropped, and then the rest. -/
theorem cons (h : Transformed t q₁ rest n q') (hfeed : feed t ([], q.readBuf) c = ([], q₁.readBuf))
    (hw : q₁.waitBuf = q.waitBuf) (hl : q₁.waitBufLen = q.waitBufLen) :
    Transformed t q (c :: rest) (n + 1) q' where
  le := by simpa using h.le
  waitBuf := h.waitBuf.trans hw
  waitBufLen := h.waitBufLen.trans hl
  lines := by rw [List.take_succ_cons, List.foldl_cons, hfeed, h.lines]
  all hr := by simp [h.all hr]

/-- A byte that ends the line. -/
theorem stop (hfeed : feed t ([], q.readBuf) c = q'.lineView) (hr : q'.readable = true)
    (hw : q'.waitBuf = q.waitBuf) (hl : q'.waitBufLen = q.waitBufLen) : Transformed t q (c :: rest) 1 q' where
  le := by simp
  waitBuf := hw
  waitBufLen := hl
  lines := by simpa using hfeed
  all h := absurd hr (by simp [h])

end Transformed

section Canonical

variable {t : KernelTermios} (hc : t.lEnabled icanon = true) (hu : t.iEnabled iutf8 = false)
include hc hu

/-- The loop of `transform` in canonical mode, one case for each branch it
takes on a byte. -/
theorem transformLoop_spec (buf : List UInt8) :
    ∀ (fuel ret : ℕ) (q : Queue), buf.length ≤ fuel → q.readable = false → q.readBuf.length < canonMaxBytes →
      ∃ n, (transformLoop t canonMaxBytes fuel buf ret q).1 = ret + n ∧
        Transformed t q buf n (transformLoop t canonMaxBytes fuel buf ret q).2 := by
  induction buf with
  | nil =>
    intro fuel ret q _ hq _
    refine ⟨0, ?_, ?_⟩ <;> cases fuel <;> simp only [transformLoop] <;> first | rfl | exact .nil hq
  | cons c rest ih =>
    intro fuel ret q hfuel hq hlen
    obtain ⟨fuel, rfl⟩ : ∃ f, fuel = f + 1 := ⟨fuel - 1, by simp at hfuel; omega⟩
    have hfuel' : rest.length ≤ fuel := by simpa using hfuel
    have hpeek : peek t (c :: rest) = 1 := by simp [peek, hu]
    simp only [transformLoop, if_pos hlen, hpeek, List.drop_succ_cons, List.drop_zero, Nat.sub_self,
      List.take_zero]
    cases hch : inputChar t c with
    | none =>
      -- `IGNCR` drops the byte
      obtain ⟨n, hn, h⟩ := ih fuel (ret + 1) q hfuel' hq hlen
      refine ⟨n + 1, by simp only [hn]; omega, h.cons (by simp [feed, hch]) rfl rfl⟩
    | some c' =>
      simp only
      by_cases hd : shouldDiscard t q [c'] = true
      · -- past 4095 bytes a byte that does not end the line is dropped
        have hfeed : feed t ([], q.readBuf) c = ([], q.readBuf) := by
          simp only [shouldDiscard, hc, Bool.true_and, Bool.and_eq_true, decide_eq_true_eq, Bool.not_eq_true',
            List.length_singleton] at hd
          simp only [feed, hch, hd.2, Bool.false_eq_true, if_false]
          rw [if_neg (by simp [canonMaxBytes] at hd ⊢; omega)]
        rw [if_pos hd]
        obtain ⟨n, hn, h⟩ := ih fuel (ret + 1) q hfuel' hq hlen
        exact ⟨n + 1, by rw [hn]; omega, h.cons hfeed rfl rfl⟩
      have hkeep : ¬ (q.readBuf.length + 1 > canonMaxBytes) := by omega
      rw [if_neg hd, if_neg hkeep]
      by_cases he : t.isEOF c' = true
      · -- the end-of-file character ends the line and is not kept
        refine ⟨1, by simp [hc, he], .stop ?_ (by simp [hc, he]) (by simp [hc, he]) (by simp [hc, he])⟩
        simp [hc, he, feed, hch, isTerminating_of_isEOF he, Queue.lineView]
      rw [if_neg (by simp [he])]
      by_cases ht : t.isTerminating [c'] = true
      · refine ⟨1, by simp [hc, ht], .stop ?_ (by simp [hc, ht]) (by simp [hc, ht]) (by simp [hc, ht])⟩
        simp [hc, ht, he, feed, hch, Queue.lineView]
      rw [if_neg (by simp [hc, ht])]
      -- the byte joins the line being typed
      have hroom : q.readBuf.length + 1 < canonMaxBytes := by
        simp only [shouldDiscard, hc, ht, Bool.true_and, Bool.not_false, Bool.and_true, decide_eq_true_eq,
          List.length_singleton] at hd
        omega
      obtain ⟨n, hn, h⟩ := ih fuel (ret + 1) { q with readBuf := q.readBuf ++ [c'] } hfuel' hq
        (by simpa using hroom)
      refine ⟨n + 1, by rw [hn]; omega, h.cons ?_ (by rfl) (by rfl)⟩
      have hlt : q.readBuf.length < canonMaxBytes - 1 := by simp only [canonMaxBytes] at hroom ⊢; omega
      simp [feed, hch, ht, hlt]

/-- `transform` in canonical mode on a queue with no line waiting. -/
theorem transform_spec (buf : List UInt8) {q : Queue} (hq : q.readable = false)
    (hlen : q.readBuf.length < canonMaxBytes) :
    Transformed t q buf (transform t q buf).1 (transform t q buf).2 := by
  obtain ⟨n, hn, h⟩ := transformLoop_spec hc hu buf buf.length 0 q (Nat.le_refl _) hq hlen
  simp only [transform, hc, hq, Bool.and_false, Bool.false_eq_true, if_false, if_true, Bool.not_true,
    Bool.false_and]
  rw [hn, Nat.zero_add]
  exact h

end Canonical

/-- `transform` moves nothing while a line is waiting to be read. -/
theorem transform_of_readable {t : KernelTermios} (hc : t.lEnabled icanon = true) {q : Queue}
    (hq : q.readable = true) (buf : List UInt8) : transform t q buf = (0, q) := by
  simp [transform, hc, hq]

/-- A queue that has processed the bytes `p` and been read of the bytes `d`:
either a line of `p` is waiting, the first `k` bytes of it read, or all lines of
`p` are read and the read buffer is the line being typed. -/
inductive Agree (t : KernelTermios) (p d : List UInt8) (q : Queue) : Prop
  | line (hr : q.readable = true) (L₀ : List (List UInt8)) (line : List UInt8) (k : ℕ)
      (hL : canonLines t p = (L₀ ++ [line], [])) (hd : d = L₀.flatten ++ line.take k) (hq : q.readBuf = line.drop k)
  | typing (hr : q.readable = false) (hd : d = (canonLines t p).1.flatten) (hq : q.readBuf = (canonLines t p).2)

/-- `Agree` reads nothing of a queue but its read buffer and whether it is readable. -/
theorem Agree.congr {t : KernelTermios} {p d : List UInt8} {q q' : Queue} (h : Agree t p d q)
    (hr : q'.readable = q.readable) (hb : q'.readBuf = q.readBuf) : Agree t p d q' := by
  cases h with
  | line hr' L₀ line k hL hd hq => exact .line (hr.trans hr') L₀ line k hL hd (hb.trans hq)
  | typing hr' hd hq => exact .typing (hr.trans hr') hd (hb.trans hq)

/-- What a call of `transform` that consumed `n` bytes of the chunk `b` did to
a queue that agrees with the bytes `p`. -/
structure Consumed (t : KernelTermios) (p d : List UInt8) (q : Queue) (b : List UInt8) (n : ℕ) (q' : Queue) :
    Prop where
  le : n ≤ b.length
  agree : Agree t (p ++ b.take n) d q'
  all : q'.readable = false → n = b.length
  waitBuf : q'.waitBuf = q.waitBuf
  waitBufLen : q'.waitBufLen = q.waitBufLen
  stay : q.readable = true → n = 0 ∧ q' = q
  grow : q.readable = false → q'.readable = true →
    (canonLines t (p ++ b.take n)).1.length = (canonLines t p).1.length + 1

/-- What `pushLoop` did with the chunks `bs`: it consumed the bytes
`consumed` from their front, and left chunks only where a line is waiting. -/
structure Pushed (t : KernelTermios) (p d : List UInt8) (q : Queue) (bs : List (List UInt8)) (total : ℕ)
    (consumed : List UInt8) (r : ℕ × List (List UInt8) × Queue) : Prop where
  flatten : bs.flatten = consumed ++ r.2.1.flatten
  total : r.1 = total + consumed.length
  agree : Agree t (p ++ consumed) d r.2.2
  all : r.2.2.readable = false → r.2.1.flatten = []
  waitBuf : r.2.2.waitBuf = q.waitBuf
  waitBufLen : r.2.2.waitBufLen = q.waitBufLen
  stay : q.readable = true → consumed = [] ∧ r.2.2 = q
  grow : q.readable = false → r.2.2.readable = true →
    (canonLines t p).1.length < (canonLines t (p ++ consumed)).1.length

section Push

variable {t : KernelTermios} (hc : t.lEnabled icanon = true) (hu : t.iEnabled iutf8 = false)
include hc hu

/-- One call of `transform` keeps `Agree`: with a line waiting it takes
nothing, and otherwise what it takes either finishes a line, which is then
waiting with none of it read, or adds to the line being typed. -/
theorem Agree.consumed {p d : List UInt8} {q : Queue} (h : Agree t p d q) (b : List UInt8) :
    Consumed t p d q b (transform t q b).1 (transform t q b).2 := by
  cases h with
  | line hr L₀ line k hL hd hq =>
    rw [transform_of_readable hc hr]
    refine ⟨Nat.zero_le _, ?_, fun h => absurd (show q.readable = false from h) (by simp [hr]), rfl, rfl,
      fun _ => ⟨rfl, rfl⟩, fun h => absurd hr (by simp [h])⟩
    rw [List.take_zero, List.append_nil]
    exact .line hr L₀ line k hL hd hq
  | typing hr hd hq =>
    have hT := transform_spec hc hu b hr (hq ▸ canonLines_snd_length_lt p)
    generalize (transform t q b).1 = n at hT ⊢
    generalize (transform t q b).2 = q' at hT ⊢
    have hlines := canonLines_append (t := t) p (b.take n)
    rw [← hq, hT.lines] at hlines
    unfold Queue.lineView at hlines
    cases hr' : q'.readable
    · simp only [hr', Bool.false_eq_true, if_false, List.append_nil] at hlines
      exact ⟨hT.le, .typing hr' (by rw [hlines, hd]) (by rw [hlines]), hT.all, hT.waitBuf, hT.waitBufLen,
        fun h => absurd h (by simp [hr]), fun _ h => absurd h (by simp [hr'])⟩
    · -- the chunk finished a line, now waiting
      simp only [hr', if_true] at hlines
      refine ⟨hT.le, .line hr' _ q'.readBuf 0 hlines (by simp [hd]) (by simp), hT.all, hT.waitBuf,
        hT.waitBufLen, fun h => absurd h (by simp [hr]), fun _ _ => ?_⟩
      rw [hlines, List.length_append, List.length_singleton]

/-- The loop of `pushWaitBufLocked` over any chunks keeps `Agree`, by
induction on the chunks with one call of `transform` for each. -/
theorem pushLoop_spec {d : List UInt8} (bs : List (List UInt8)) :
    ∀ (total : ℕ) (p : List UInt8) (q : Queue), Agree t p d q →
      ∃ consumed, Pushed t p d q bs total consumed (pushLoop t bs total q) := by
  induction bs with
  | nil =>
    intro total p q h
    exact ⟨[], rfl, by simp [pushLoop], by simpa [pushLoop] using h, fun _ => rfl, rfl, rfl,
      fun _ => ⟨rfl, rfl⟩, fun hq hq' => absurd hq' (by simp [pushLoop, hq])⟩
  | cons b rest ih =>
    intro total p q h
    have hC := h.consumed hc hu b
    rcases hr : transform t q b with ⟨n, q'⟩
    rw [hr] at hC
    by_cases hne : n ≠ b.length
    · -- the read buffer stopped taking bytes within `b`: a line is waiting
      have hloop : pushLoop t (b :: rest) total q = (total + n, b.drop n :: rest, q') := by
        simp [pushLoop, hr, hne]
      refine ⟨b.take n, ?_, ?_, ?_, ?_, ?_, ?_, ?_, ?_⟩ <;> rw [hloop]
      · rw [List.flatten_cons, List.flatten_cons, ← List.append_assoc, List.take_append_drop]
      · rw [List.length_take, Nat.min_eq_left hC.le]
      · exact hC.agree
      · exact fun hr' => absurd (hC.all hr') hne
      · exact hC.waitBuf
      · exact hC.waitBufLen
      · intro hq
        obtain ⟨rfl, rfl⟩ := hC.stay hq
        exact ⟨by simp, rfl⟩
      · intro hq hq'
        rw [hC.grow hq hq']
        omega
    · have hn : n = b.length := not_not.1 hne
      have hagree : Agree t (p ++ b) d q' := by simpa [hn] using hC.agree
      obtain ⟨consumed, hP⟩ := ih (total + n) (p ++ b) q' hagree
      have hloop : pushLoop t (b :: rest) total q = pushLoop t rest (total + n) q' := by
        simp [pushLoop, hr, hn]
      refine ⟨b ++ consumed, ?_, ?_, ?_, ?_, ?_, ?_, ?_, ?_⟩ <;> rw [hloop]
      · rw [List.flatten_cons, hP.flatten, List.append_assoc]
      · rw [hP.total, List.length_append, hn]
        omega
      · simpa using hP.agree
      · exact hP.all
      · exact hP.waitBuf.trans hC.waitBuf
      · exact hP.waitBufLen.trans hC.waitBufLen
      · -- with a line waiting only empty chunks are passed over
        intro hq
        obtain ⟨h0, hqq⟩ := hC.stay hq
        subst hqq
        obtain ⟨hc', hq''⟩ := hP.stay hq
        have hb : b = [] := List.length_eq_zero_iff.1 (by omega)
        exact ⟨by rw [hb, hc', List.append_nil], hq''⟩
      · intro hq hq'
        have hmono := (Tty.canonLines_prefix (t := t) (p ++ b) consumed).length_le
        rw [List.append_assoc] at hmono
        cases hr' : q'.readable
        · have := hP.grow hr' hq'
          have hb := (Tty.canonLines_prefix (t := t) p b).length_le
          rw [← List.append_assoc]
          omega
        · have hg := hC.grow hq hr'
          rw [List.take_of_length_le (Nat.le_of_eq hn.symm)] at hg
          omega

end Push

end Tty
