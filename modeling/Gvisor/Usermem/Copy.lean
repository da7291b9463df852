import Gvisor.Usermem.AddrRangeSeqSpec
import Gvisor.Lib.Outcome
import Gvisor.Syserror

/-! The copies of pkg/sentry/usermem/usermem.go over `usermem.IO`: `CopyStringIn`,
`CopyOutVec`, `CopyInVec` and `ZeroOutVec`. The address space is a partial map from
addresses to bytes. `IO.CopyIn` and `IO.CopyOut` copy the bytes up to the first unmapped
address and fail with `EFAULT` when that is short. The vector copies may not end, so they
run on fuel and `hang` where it runs out. -/

namespace Usermem

open Syserror

/-- The user address space: the byte at each mapped address, `none` elsewhere. -/
abbrev Memory := ℕ → Option UInt8

/-- The bytes at `addr, addr + 1, …`, at most `n` of them, up to the first unmapped
address. -/
def readPrefix (m : Memory) (addr : ℕ) : ℕ → List UInt8
  | 0 => []
  | n + 1 =>
    match m addr with
    | some b => b :: readPrefix m (addr + 1) n
    | none => []

/-- `IO.CopyIn` of `n` bytes at `addr`. -/
def copyIn (m : Memory) (addr : Addr) (n : ℕ) : List UInt8 × Option Errno :=
  let bs := readPrefix m addr.toNat n
  (bs, if bs.length < n then some .EFAULT else none)

/-- `src` written at `addr, addr + 1, …` up to the first unmapped address, with the number
of bytes written. -/
def writePrefix (m : Memory) (addr : ℕ) : List UInt8 → Memory × ℕ
  | [] => (m, 0)
  | b :: rest =>
    match m addr with
    | some _ =>
      let (m', n) := writePrefix (Function.update m addr (some b)) (addr + 1) rest
      (m', n + 1)
    | none => (m, 0)

/-- `IO.CopyOut` of `src` at `addr`. -/
def copyOut (m : Memory) (addr : Addr) (src : List UInt8) : Memory × ℕ × Option Errno :=
  let (m', n) := writePrefix m addr.toNat src
  (m', n, if n < src.length then some .EFAULT else none)

/-- `IO.ZeroOut` of `n` bytes at `addr`. -/
def zeroOut (m : Memory) (addr : Addr) (n : ℕ) : Memory × ℕ × Option Errno :=
  copyOut m addr (List.replicate n 0)

/-- `copyStringIncrement`. -/
def copyStringIncrement : ℕ := 64

/-- `copyStringMaxInitBufLen`. -/
def copyStringMaxInitBufLen : ℕ := 256

/-- Where the read of `readlen` bytes at `addr` of a turn of `CopyStringIn` ends, and its
length: shortened to the end of the page of `addr` when it crosses a page boundary, and
`none` where `addr + readlen` wraps. -/
def readChunk (addr : Addr) (readlen : ℕ) : Option (Addr × ℕ) :=
  let (e, ok) := addr.addLength readlen.toUInt64
  if !ok then none
  else if addr.roundDown ≠ e.roundDown then some (e.roundDown, (e.roundDown - addr).toNat)
  else some (e, readlen)

theorem length_readPrefix_le (m : Memory) (addr n : ℕ) : (readPrefix m addr n).length ≤ n := by
  induction n generalizing addr with
  | zero => exact Nat.le_refl 0
  | succ n ih =>
    rw [readPrefix]
    split
    · exact Nat.succ_le_succ (ih _)
    · exact Nat.zero_le _

theorem copyIn_length_of_none {m : Memory} {addr : Addr} {n : ℕ} {bs : List UInt8}
    (h : copyIn m addr n = (bs, none)) : bs.length = n := by
  simp only [copyIn, Prod.mk.injEq] at h
  obtain ⟨rfl, hn⟩ := h
  have := length_readPrefix_le m addr.toNat n
  split_ifs at hn with hlt
  omega

theorem readChunk_spec {addr e : Addr} {readlen r : ℕ} (h : readChunk addr readlen = some (e, r))
    (hr : 0 < readlen) (hlt : readlen < 2 ^ 64) :
    0 < r ∧ r ≤ readlen ∧ e.toNat = addr.toNat + r := by
  have hn : readlen.toUInt64.toNat = readlen := by
    rw [Nat.toUInt64_eq, UInt64.toNat_ofNat', Nat.mod_eq_of_lt hlt]
  unfold readChunk at h
  rcases hal : Addr.addLength addr readlen.toUInt64 with ⟨e₀, ok⟩
  rw [hal] at h
  cases ok
  · cases h
  obtain ⟨-, he₀⟩ := Addr.addLength_eq_true hal
  rw [hn] at he₀
  dsimp only at h
  split_ifs at h with hok hpage
  · cases h
    -- the read ends at the first page boundary past `addr`
    have hne : addr.toNat / 4096 * 4096 ≠ e₀.toNat / 4096 * 4096 := by
      rw [← Addr.toNat_roundDown, ← Addr.toNat_roundDown]
      exact fun h' => hpage (UInt64.toNat_inj.mp h')
    have hlow : addr.toNat < (Addr.roundDown e₀).toNat := by
      rw [Addr.toNat_roundDown]
      omega
    rw [UInt64.toNat_sub_of_le _ _ (UInt64.le_iff_toNat_le.mpr hlow.le)]
    rw [Addr.toNat_roundDown] at hlow ⊢
    omega
  · cases h
    exact ⟨hr, Nat.le_refl _, he₀⟩

/-- The loop of `CopyStringIn` from `addr`, with `done` bytes of `buf` read. -/
def copyStringLoop (m : Memory) (maxlen : ℕ) (addr : Addr) (buf : List UInt8) (done : ℕ) :
    List UInt8 × Option Errno :=
  if _hd : done < maxlen then
    match _hc : readChunk addr (min copyStringIncrement (maxlen - done)) with
    | none => (buf.take done, some .EFAULT)
    | some (end₁, readlen) =>
      let buf := if done + readlen > buf.length then
          buf ++ List.replicate (min (buf.length * 2) maxlen - buf.length) 0
        else buf
      match _hi : copyIn m addr readlen with
      | (read, err) =>
        let buf := buf.take done ++ read ++ buf.drop (done + read.length)
        -- the terminating zero byte may come before the error
        match ((buf.drop done).take read.length).findIdx? (· == 0) with
        | some i => (buf.take (done + i), none)
        | none =>
          match err with
          | some e => (buf.take (done + read.length), some e)
          | none => copyStringLoop m maxlen end₁ buf (done + read.length)
  else (buf, some .ENAMETOOLONG)
termination_by maxlen - done
decreasing_by
  have hpos : 0 < min copyStringIncrement (maxlen - done) := by
    simp only [copyStringIncrement]
    omega
  have hlt : min copyStringIncrement (maxlen - done) < 2 ^ 64 := by
    simp only [copyStringIncrement]
    omega
  have := (readChunk_spec _hc hpos hlt).1
  rw [copyIn_length_of_none _hi]
  omega

/-- `CopyStringIn`. -/
def copyStringIn (m : Memory) (addr : Addr) (maxlen : ℕ) : List UInt8 × Option Errno :=
  copyStringLoop m maxlen addr (List.replicate (min maxlen copyStringMaxInitBufLen) 0) 0

/-! ### `CopyStringIn` -/

section ReadPrefix

variable (m : Memory)

theorem take_readPrefix (a : ℕ) {j n : ℕ} (h : j ≤ n) :
    (readPrefix m a n).take j = readPrefix m a j := by
  induction j generalizing a n with
  | zero => simp [readPrefix]
  | succ j ih =>
    obtain ⟨n, rfl⟩ : ∃ n', n = n' + 1 := ⟨n - 1, by omega⟩
    simp only [readPrefix]
    split
    · rw [List.take_succ_cons, ih _ (by omega)]
    · rfl

theorem readPrefix_add {a j : ℕ} (h : (readPrefix m a j).length = j) (k : ℕ) :
    readPrefix m a (j + k) = readPrefix m a j ++ readPrefix m (a + j) k := by
  induction j generalizing a with
  | zero => simp [readPrefix]
  | succ j ih =>
    rw [Nat.add_right_comm]
    simp only [readPrefix] at h ⊢
    split
    · rename_i b hb
      rw [hb] at h
      simp only [List.length_cons, Nat.add_right_cancel_iff] at h
      rw [ih h, Nat.add_assoc, Nat.add_comm 1 j]
      rfl
    · rename_i hb
      rw [hb] at h
      simp at h

theorem readPrefix_of_length_lt {a j n : ℕ} (h : (readPrefix m a j).length < j) (hjn : j ≤ n) :
    readPrefix m a n = readPrefix m a j := by
  induction j generalizing a n with
  | zero => simp at h
  | succ j ih =>
    obtain ⟨n, rfl⟩ : ∃ n', n = n' + 1 := ⟨n - 1, by omega⟩
    simp only [readPrefix] at h ⊢
    split
    · rename_i b hb
      rw [hb] at h
      simp only [List.length_cons, Nat.add_lt_add_iff_right] at h
      rw [ih h (by omega)]
    · rfl

end ReadPrefix

/-- What `CopyStringIn` is for: the mapped bytes among the first `maxlen` at `addr` up to
the first zero byte; `ENAMETOOLONG` when all `maxlen` are mapped and none is zero, and
`EFAULT` when a fault comes before both. -/
def copyStringInSpec (m : Memory) (addr maxlen : ℕ) : List UInt8 × Option Errno :=
  let bs := readPrefix m addr maxlen
  match bs.findIdx? (· == 0) with
  | some i => (bs.take i, none)
  | none => (bs, if bs.length < maxlen then some .EFAULT else some .ENAMETOOLONG)

/-- The state of the loop of `CopyStringIn` from `start` after `done` bytes: they are the
first `done` bytes at `start`, all mapped and none zero, and `addr` is the address after
them. -/
structure StringLoopInv (m : Memory) (start maxlen : ℕ) (addr : Addr) (buf : List UInt8)
    (done : ℕ) : Prop where
  addr_eq : addr.toNat = start + done
  done_le : done ≤ buf.length
  length_le : buf.length ≤ maxlen
  take_eq : buf.take done = readPrefix m start done
  mapped : (readPrefix m start done).length = done
  nonzero : (readPrefix m start done).findIdx? (· == 0) = none

theorem readChunk_isSome {addr : Addr} {readlen : ℕ} (h : addr.toNat + readlen < 2 ^ 64) :
    readChunk addr readlen ≠ none := by
  have hn : readlen.toUInt64.toNat = readlen := by
    rw [Nat.toUInt64_eq, UInt64.toNat_ofNat', Nat.mod_eq_of_lt (by omega)]
  have hok : (Addr.addLength addr readlen.toUInt64).2 = true := by
    rw [Addr.addLength_ok_iff, hn]
    exact h
  unfold readChunk
  rcases hal : Addr.addLength addr readlen.toUInt64 with ⟨e, ok⟩
  rw [hal] at hok
  cases hok
  simp only [Bool.not_true, Bool.false_eq_true, if_false]
  split_ifs <;> simp

/-- The buffer of a turn of `CopyStringIn`, grown for the read, keeps its first `done`
bytes and stays within `maxlen`. -/
theorem grow_spec {buf : List UInt8} {done r maxlen : ℕ} (hd : done ≤ buf.length)
    (hl : buf.length ≤ maxlen) :
    let buf₁ := if done + r > buf.length then
      buf ++ List.replicate (min (buf.length * 2) maxlen - buf.length) 0 else buf
    buf₁.take done = buf.take done ∧ done ≤ buf₁.length ∧ buf₁.length ≤ maxlen := by
  intro buf₁
  by_cases hg : done + r > buf.length
  · simp only [buf₁, if_pos hg, List.length_append, List.length_replicate]
    exact ⟨List.take_append_of_le_length hd, by omega, by omega⟩
  · simp only [buf₁, if_neg hg]
    exact ⟨trivial, hd, hl⟩

theorem take_splice (buf₁ read : List UInt8) {done i : ℕ} (hd : done ≤ buf₁.length)
    (hi : i ≤ read.length) :
    (buf₁.take done ++ read ++ buf₁.drop (done + read.length)).take (done + i) =
      buf₁.take done ++ read.take i := by
  have hlen : (buf₁.take done).length = done := by
    rw [List.length_take]
    omega
  rw [List.append_assoc, List.take_append, hlen, Nat.add_sub_cancel_left, List.take_append,
    Nat.sub_eq_zero_of_le hi, List.take_zero, List.append_nil, List.take_of_length_le (by omega)]

theorem scan_splice (buf₁ read : List UInt8) {done : ℕ} (hd : done ≤ buf₁.length) :
    ((buf₁.take done ++ read ++ buf₁.drop (done + read.length)).drop done).take read.length =
      read := by
  have hlen : (buf₁.take done).length = done := by
    rw [List.length_take]
    omega
  rw [List.append_assoc, List.drop_append, hlen, Nat.sub_self, List.drop_zero,
    List.drop_of_length_le (by omega), List.nil_append, List.take_left]

/-- `copyStringInSpec` where the bytes at `start` are `P`, all mapped and none zero, and
then `Q`. -/
theorem copyStringInSpec_eq {m : Memory} {start maxlen : ℕ} {P Q : List UInt8}
    (hbs : readPrefix m start maxlen = P ++ Q) (hnz : P.findIdx? (· == 0) = none) :
    copyStringInSpec m start maxlen =
      match Q.findIdx? (· == 0) with
      | some i => ((P ++ Q).take (P.length + i), none)
      | none => (P ++ Q, if P.length + Q.length < maxlen then some .EFAULT
          else some .ENAMETOOLONG) := by
  rw [copyStringInSpec, hbs, List.findIdx?_append, hnz, Option.none_or]
  cases Q.findIdx? (· == 0) with
  | none => simp
  | some i => simp [Nat.add_comm]

/-- Each turn of `CopyStringIn` reads on from where the last one stopped, until a zero
byte, a fault, or `maxlen` bytes. -/
theorem copyStringLoop_eq_spec {m : Memory} {start maxlen : ℕ} (hw : start + maxlen < 2 ^ 64)
    {addr : Addr} {buf : List UInt8} {done : ℕ} (hI : StringLoopInv m start maxlen addr buf done) :
    copyStringLoop m maxlen addr buf done = copyStringInSpec m start maxlen := by
  induction hk : maxlen - done using Nat.strong_induction_on generalizing addr buf done with
  | _ k ih =>
    have hdm : done ≤ maxlen := le_trans hI.done_le hI.length_le
    -- the bytes at `start`: the `done` read so far, and `Q` after them
    have hbs : readPrefix m start maxlen =
        readPrefix m start done ++ readPrefix m (start + done) (maxlen - done) := by
      rw [← readPrefix_add m hI.mapped, Nat.add_sub_cancel' hdm]
    have hspec := copyStringInSpec_eq hbs hI.nonzero
    rw [hI.mapped] at hspec
    rw [copyStringLoop]
    split
    · rename_i hd
      have hr₀ : 0 < min copyStringIncrement (maxlen - done) := by
        simp only [copyStringIncrement]
        omega
      have hr₀' : min copyStringIncrement (maxlen - done) < 2 ^ 64 := by
        simp only [copyStringIncrement]
        omega
      have hfit : addr.toNat + min copyStringIncrement (maxlen - done) < 2 ^ 64 := by
        rw [hI.addr_eq]
        simp only [copyStringIncrement]
        omega
      split
      · rename_i hc
        exact absurd hc (readChunk_isSome hfit)
      rename_i e r hc
      obtain ⟨hr, hrle, he⟩ := readChunk_spec hc hr₀ hr₀'
      have hrle' : r ≤ maxlen - done := le_trans hrle (Nat.min_le_right _ _)
      obtain ⟨hb₁, hd₁, hl₁⟩ := grow_spec (r := r) hI.done_le hI.length_le
      dsimp only
      set buf₁ := (if done + r > buf.length then
        buf ++ List.replicate (min (buf.length * 2) maxlen - buf.length) 0 else buf) with hbuf₁
      set Q := readPrefix m (start + done) (maxlen - done) with hQ
      -- this turn reads the first `r` bytes of `Q`
      have hread : (copyIn m addr r).1 = Q.take r := by
        rw [hQ, take_readPrefix m _ hrle', ← hI.addr_eq]
        rfl
      have herr : (copyIn m addr r).2 = if (Q.take r).length < r then some .EFAULT else none := by
        rw [← hread]
        rfl
      have hP : buf₁.take done = readPrefix m start done := by rw [hb₁, hI.take_eq]
      split
      · -- a zero byte in this read ends the string
        rename_i i hf
        rw [scan_splice _ _ hd₁, hread] at hf
        have hi : i < (Q.take r).length := List.findIdx?_eq_some_iff_getElem.mp hf |>.1
        have hQi : Q.findIdx? (· == 0) = some i := by
          rw [List.findIdx?_take] at hf
          cases hq : Q.findIdx? (· == 0) with
          | none => rw [hq] at hf; cases hf
          | some j =>
            rw [hq] at hf
            simp only [Option.bind_some, Option.guard_eq_some_iff] at hf
            exact congrArg some hf.1
        have hir : i ≤ r := by
          rw [List.length_take] at hi
          omega
        rw [hspec, hQi]
        dsimp only
        rw [hread, take_splice _ _ hd₁ hi.le, hP, List.take_append, hI.mapped,
          Nat.add_sub_cancel_left, List.take_take, Nat.min_eq_left hir,
          List.take_of_length_le (l := readPrefix m start done) (by rw [hI.mapped]; omega)]
      · rename_i hf
        rw [scan_splice _ _ hd₁, hread] at hf
        split
        · -- a fault: the bytes of `Q` end before `r`, at an unmapped address
          rename_i ec _ hsome _
          rw [herr] at hsome
          have hshort : (Q.take r).length < r := by
            by_contra hge
            rw [if_neg hge] at hsome
            cases hsome
          rw [if_pos hshort] at hsome
          cases hsome
          have hQeq : Q = Q.take r := by
            rw [hQ, take_readPrefix m _ hrle'] at hshort ⊢
            exact readPrefix_of_length_lt m hshort hrle'
          rw [← hQeq] at hf hshort
          rw [hread, ← hQeq, take_splice _ _ hd₁ le_rfl, List.take_length, hP, hspec, hf]
          simp only
          rw [if_pos (by omega)]
        · -- the whole read: the loop goes on after it
          rename_i _ hnone _
          rw [herr] at hnone
          have hfull : (Q.take r).length = r := by
            by_contra hne
            rw [if_pos (by have := List.length_take_le r Q; omega)] at hnone
            cases hnone
          have hnext : readPrefix m start (done + r) = readPrefix m start done ++ Q.take r := by
            rw [readPrefix_add m hI.mapped, hQ, take_readPrefix m _ hrle']
          rw [hread, hfull]
          have hlen : (buf₁.take done ++ Q.take r ++ buf₁.drop (done + r)).length =
              done + r + (buf₁.length - (done + r)) := by
            simp only [List.length_append, List.length_take, List.length_drop, hfull]
            omega
          refine ih (maxlen - (done + r)) (by omega) ⟨?_, ?_, ?_, ?_, ?_, ?_⟩ rfl
          · rw [he, hI.addr_eq]
            omega
          · omega
          · omega
          · have hsplice := take_splice buf₁ (Q.take r) hd₁ (le_refl _)
            rw [hfull] at hsplice
            rw [hsplice, List.take_take, Nat.min_self, hP, hnext]
          · rw [hnext, List.length_append, hI.mapped, hfull]
          · rw [hnext, List.findIdx?_append, hI.nonzero, hf]
            rfl
    · rename_i hd
      have hdone : done = maxlen := by omega
      have hlen : buf.length = done := by have := hI.length_le; have := hI.done_le; omega
      have htake := hI.take_eq
      rw [List.take_of_length_le hlen.le] at htake
      rw [hspec, htake, hdone, Nat.sub_self]
      simp [readPrefix]

/-- `CopyStringIn` reads the string at `addr` up to its zero byte, its `maxlen`th byte or a
fault, wherever `addr + maxlen` does not wrap. -/
theorem copyStringIn_eq_spec (m : Memory) {addr : Addr} {maxlen : ℕ}
    (hw : addr.toNat + maxlen < 2 ^ 64) :
    copyStringIn m addr maxlen = copyStringInSpec m addr.toNat maxlen :=
  copyStringLoop_eq_spec hw ⟨rfl, Nat.zero_le _, by simp, rfl, rfl, rfl⟩

/-- At the top of the address space `CopyStringIn` faults before it reads: its first read of
`min 64 maxlen` bytes would end at or past `2^64`. -/
theorem copyStringIn_of_wrap (m : Memory) {addr : Addr} {maxlen : ℕ} (hm : 0 < maxlen)
    (hw : 2 ^ 64 ≤ addr.toNat + min copyStringIncrement maxlen) :
    copyStringIn m addr maxlen = ([], some .EFAULT) := by
  have hlt : min copyStringIncrement maxlen < 2 ^ 64 := by
    simp only [copyStringIncrement]
    omega
  have hn : (min copyStringIncrement maxlen).toUInt64.toNat = min copyStringIncrement maxlen := by
    rw [Nat.toUInt64_eq, UInt64.toNat_ofNat', Nat.mod_eq_of_lt hlt]
  have hc : readChunk addr (min copyStringIncrement (maxlen - 0)) = none := by
    have hok : (Addr.addLength addr (min copyStringIncrement maxlen).toUInt64).2 = false := by
      rw [← Bool.not_eq_true, Addr.addLength_ok_iff, hn]
      omega
    unfold readChunk
    rw [Nat.sub_zero]
    rcases hal : Addr.addLength addr (min copyStringIncrement maxlen).toUInt64 with ⟨e, ok⟩
    rw [hal] at hok
    cases hok
    rfl
  rw [copyStringIn, copyStringLoop, dif_pos hm]
  split
  · rfl
  · rename_i e r hc'
    rw [hc] at hc'
    cases hc'

theorem length_readPrefix_of_mapped {m : Memory} {a n : ℕ}
    (h : ∀ i < n, (m (a + i)).isSome) : (readPrefix m a n).length = n := by
  induction n generalizing a with
  | zero => rfl
  | succ n ih =>
    obtain ⟨b, hb⟩ := Option.isSome_iff_exists.mp (h 0 (Nat.succ_pos n))
    rw [Nat.add_zero] at hb
    rw [readPrefix, hb, List.length_cons, ih fun i hi => by
      rw [Nat.add_assoc, Nat.add_comm 1 i]; exact h (i + 1) (by omega)]

theorem writePrefix_count_of_mapped {m : Memory} {a : ℕ} {src : List UInt8}
    (h : ∀ i < src.length, (m (a + i)).isSome) : (writePrefix m a src).2 = src.length := by
  induction src generalizing m a with
  | nil => rfl
  | cons b rest ih =>
    obtain ⟨c, hc⟩ := Option.isSome_iff_exists.mp (h 0 (by simp))
    rw [Nat.add_zero] at hc
    have hrest : ∀ i < rest.length, (Function.update m a (some b) (a + 1 + i)).isSome := by
      intro i hi
      rw [Function.update_of_ne (by omega), Nat.add_assoc, Nat.add_comm 1 i]
      exact h (i + 1) (by simp; omega)
    simp only [writePrefix, hc, List.length_cons]
    rw [ih hrest]

theorem copyOut_of_mapped (m : Memory) (a : Addr) (src : List UInt8)
    (h : ∀ i < src.length, (m (a.toNat + i)).isSome) :
    ∃ m', copyOut m a src = (m', src.length, none) := by
  have hc := writePrefix_count_of_mapped h
  refine ⟨(writePrefix m a.toNat src).1, ?_⟩
  simp only [copyOut, hc, Nat.lt_irrefl, if_false]

theorem copyIn_of_mapped {m : Memory} {a : Addr} {n : ℕ} (h : ∀ i < n, (m (a.toNat + i)).isSome) :
    copyIn m a n = (readPrefix m a.toNat n, none) := by
  simp only [copyIn, length_readPrefix_of_mapped h, Nat.lt_irrefl, if_false]

/-! ### `CopyOutVec`, `CopyInVec` and `ZeroOutVec` -/

/-- The length of the I/O of a turn of `CopyOutVec`, `CopyInVec` and `ZeroOutVec`: what is
left of `total`, cut to the head `ar`. -/
def cplen (total done : ℕ) (ar : AddrRange) : ℕ :=
  if (total - done).toUInt64 ≥ ar.length then ar.length.toNat else total - done

theorem cplen_eq {total done : ℕ} (h : total - done < 2 ^ 64) (ar : AddrRange) :
    cplen total done ar = min (total - done) ar.length.toNat := by
  have hn : (total - done).toUInt64.toNat = total - done := by
    rw [Nat.toUInt64_eq, UInt64.toNat_ofNat', Nat.mod_eq_of_lt h]
  unfold cplen
  split
  · rename_i hle
    have := UInt64.le_iff_toNat_le.mp hle
    omega
  · rename_i hlt
    have := UInt64.lt_iff_toNat_lt.mp (UInt64.not_le.mp hlt)
    omega

/-- The loop of `CopyOutVec`, `CopyInVec` and `ZeroOutVec`, with `fuel` turns left.
`io s ar.Start done cplen` does the I/O of `cplen` bytes at the head, from byte `done` of
the copy on, and gives the new state, the bytes done and the error. The `int` counts of the
source are naturals. -/
def vecLoop {σ : Type} (io : σ → Addr → ℕ → ℕ → σ × ℕ × Option Errno) (total : ℕ) :
    ℕ → AddrRangeSeq → σ → ℕ → Outcome Empty (σ × ℕ × Option Errno)
  | 0, _, _, _ => .hang
  | fuel + 1, ars, s, done =>
    if !ars.isEmpty && done < total then
      match ars.head with
      | none => .panic
      | some ar =>
        let (s, n, err) := io s ar.Start done (cplen total done ar)
        match err with
        | some e => .ok (s, done + n, some e)
        | none =>
          match ars.dropFirst64 (Int64.ofNat n) with
          | none => .panic
          | some ars => vecLoop io total fuel ars s (done + n)
    else .ok (s, done, none)

/-- The I/O of a turn of `CopyOutVec`: `IO.CopyOut` of `src[done:done+cplen]`. -/
def ioCopyOut (src : List UInt8) (m : Memory) (a : Addr) (done cplen : ℕ) :
    Memory × ℕ × Option Errno :=
  copyOut m a ((src.drop done).take cplen)

/-- The I/O of a turn of `CopyInVec`: `IO.CopyIn` into `dst[done:done+cplen]`. -/
def ioCopyIn (m : Memory) (dst : List UInt8) (a : Addr) (done cplen : ℕ) :
    List UInt8 × ℕ × Option Errno :=
  let (bs, err) := copyIn m a cplen
  (dst.take done ++ bs ++ dst.drop (done + bs.length), bs.length, err)

/-- The I/O of a turn of `ZeroOutVec`: `IO.ZeroOut` of `cplen` bytes. -/
def ioZeroOut (m : Memory) (a : Addr) (_done cplen : ℕ) : Memory × ℕ × Option Errno :=
  zeroOut m a cplen

/-- `CopyOutVec` of `src`, with the memory after it, the bytes copied and the error. -/
def copyOutVec (fuel : ℕ) (m : Memory) (ars : AddrRangeSeq) (src : List UInt8) :
    Outcome Empty (Memory × ℕ × Option Errno) :=
  vecLoop (ioCopyOut src) src.length fuel ars m 0

/-- `CopyInVec` into `dst`, with `dst` after it, the bytes copied and the error. -/
def copyInVec (fuel : ℕ) (m : Memory) (ars : AddrRangeSeq) (dst : List UInt8) :
    Outcome Empty (List UInt8 × ℕ × Option Errno) :=
  vecLoop (ioCopyIn m) dst.length fuel ars dst 0

/-- `ZeroOutVec` of `toZero` bytes, with the memory after it, the bytes written and the
error. -/
def zeroOutVec (fuel : ℕ) (m : Memory) (ars : AddrRangeSeq) (toZero : Int64) :
    Outcome Empty (Memory × ℕ × Option Errno) :=
  vecLoop ioZeroOut toZero.toNatClampNeg fuel ars m 0

section Loop

variable {σ : Type} {io : σ → Addr → ℕ → ℕ → σ × ℕ × Option Errno} {total fuel done : ℕ}
  {ars : AddrRangeSeq} {s : σ}

theorem vecLoop_of_done (h : ars.length = 0 ∨ total ≤ done) :
    vecLoop io total (fuel + 1) ars s done = .ok (s, done, none) := by
  rw [vecLoop, if_neg]
  simp only [AddrRangeSeq.isEmpty, Bool.and_eq_true, Bool.not_eq_eq_eq_not, Bool.not_true,
    beq_eq_false_iff_ne, decide_eq_true_eq, not_and, not_lt]
  omega

theorem vecLoop_of_error (hne : ars.length ≠ 0) (hd : done < total) {H : AddrRange}
    (hh : ars.head = some H) {s' : σ} {n : ℕ} {e : Errno}
    (hio : io s H.Start done (cplen total done H) = (s', n, some e)) :
    vecLoop io total (fuel + 1) ars s done = .ok (s', done + n, some e) := by
  rw [vecLoop, if_pos (by simp [AddrRangeSeq.isEmpty, hne, hd]), hh]
  dsimp only
  rw [hio]

theorem vecLoop_of_step (hne : ars.length ≠ 0) (hd : done < total) {H : AddrRange}
    (hh : ars.head = some H) {s' : σ} {n : ℕ}
    (hio : io s H.Start done (cplen total done H) = (s', n, none)) {ars' : AddrRangeSeq}
    (hdrop : ars.dropFirst64 (Int64.ofNat n) = some ars') :
    vecLoop io total (fuel + 1) ars s done = vecLoop io total fuel ars' s' (done + n) := by
  rw [vecLoop, if_pos (by simp [AddrRangeSeq.isEmpty, hne, hd]), hh]
  dsimp only
  rw [hio]
  dsimp only
  rw [hdrop]

/-- A head of no bytes that `DropFirst(0)` keeps stops the loop for good: each turn does
I/O of no bytes and starts again from the same sequence. -/
theorem vecLoop_stuck (hio : ∀ s a d, io s a d 0 = (s, 0, none)) (hne : ars.length ≠ 0)
    (hd : done < total) {H : AddrRange} (hh : ars.head = some H) (hH : H.length = 0)
    (hdrop : ars.dropFirst64 0 = some ars) : ∀ fuel s, vecLoop io total fuel ars s done = .hang
  | 0, _ => rfl
  | fuel + 1, s => by
    have hcp : cplen total done H = 0 := by
      rw [cplen, hH, if_pos UInt64.zero_le]
      rfl
    rw [vecLoop_of_step hne hd hh (by rw [hcp, hio]) hdrop]
    exact vecLoop_stuck hio hne hd hh hH hdrop fuel s

theorem toNat_toUInt64_ofNat {n : ℕ} (h : n < 2 ^ 63) : (Int64.ofNat n).toUInt64.toNat = n := by
  show (UInt64.ofNat n).toNat = n
  rw [UInt64.toNat_ofNat', Nat.mod_eq_of_lt (by omega)]

theorem ofNat_nonneg {n : ℕ} (h : n < 2 ^ 63) : 0 ≤ Int64.ofNat n := by
  rw [Int64.le_iff_toInt_le, Int64.toInt_ofNat_of_lt h]
  simp

/-- With the documented invariant and no more to do than the sequence holds, the loop
returns once it has fuel for each byte and each range. It stops at an error of the I/O,
or with all `total` bytes done. The I/O of a turn does at most the bytes it is asked for,
and all of them when it has no error. -/
theorem vecLoop_returns (hio : ∀ s a d c, d + c ≤ total → (io s a d c).2.1 ≤ c ∧
      ((io s a d c).2.2 = none → (io s a d c).2.1 = c))
    (htot : total < 2 ^ 63) (h : AddrRangeSeq.DocInv ars) (hd : done ≤ total)
    (hlim : total ≤ done + ars.limit.toNat) (hfuel : ars.limit.toNat + ars.length < fuel) :
    ∃ s' n err, vecLoop io total fuel ars s done = .ok (s', n, err) ∧ done ≤ n ∧ n ≤ total ∧
      (err = none → n = total) := by
  induction fuel generalizing ars s done with
  | zero => omega
  | succ fuel ih =>
    by_cases hstop : ars.length = 0 ∨ total ≤ done
    · refine ⟨s, done, none, vecLoop_of_done hstop, le_rfl, hd, fun _ => ?_⟩
      rcases hstop with h0 | hle
      · rw [h.of_zero h0] at hlim
        exact le_antisymm hd hlim
      · omega
    have hne : ars.length ≠ 0 := fun h0 => hstop (Or.inl h0)
    have hlt : done < total := by omega
    obtain ⟨H, hh, hH⟩ := AddrRangeSeq.Inv.head_spec hne
    have hc := cplen_eq (show total - done < 2 ^ 64 by omega) H
    rcases hres : io s H.Start done (cplen total done H) with ⟨s', n, err⟩
    have ⟨hn, hfull⟩ := hio s H.Start done (cplen total done H) (by omega)
    rw [hres] at hn hfull
    dsimp only at hn hfull
    cases err with
    | some e =>
      exact ⟨s', done + n, some e, vecLoop_of_error hne hlt hh hres, by omega, by omega, nofun⟩
    | none =>
      have hnc := hfull rfl
      have hn63 : n < 2 ^ 63 := by omega
      have hu := toNat_toUInt64_ofNat hn63
      have hnl : n ≤ ars.limit.toNat := by omega
      by_cases hlast : n = ars.limit.toNat
      · -- the last bytes: the loop stops at the next turn, whatever the sequence is then
        obtain ⟨t, ht, -, -⟩ := h.toInv.dropFirst64 (ofNat_nonneg hn63)
        rw [vecLoop_of_step hne hlt hh hres ht]
        obtain ⟨fuel, rfl⟩ : ∃ f, fuel = f + 1 := ⟨fuel - 1, by omega⟩
        exact ⟨s', done + n, none, vecLoop_of_done (Or.inr (by omega)), by omega, by omega,
          fun _ => by omega⟩
      · have hne' : (Int64.ofNat n).toUInt64 ≠ ars.limit := fun he => hlast (by rw [← hu, he])
        obtain ⟨t, ht, htd, -⟩ := h.dropFirst64 (ofNat_nonneg hn63) hne'
        obtain ⟨t', ht', -, htlim⟩ := h.toInv.dropFirst64 (ofNat_nonneg hn63) (n := Int64.ofNat n)
        rw [ht] at ht'
        cases ht'
        rw [hu] at htlim
        have hlen := AddrRangeSeq.length_dropFirst64_le ht
        -- a turn of no bytes has a head of no bytes, which `DropFirst` drops
        have hmeasure : t.limit.toNat + t.length < ars.limit.toNat + ars.length := by
          rcases Nat.eq_zero_or_pos n with h0 | hpos
          · have hH0 : H.length = 0 := by
              apply UInt64.toNat_inj.mp
              show H.length.toNat = 0
              omega
            obtain ⟨t'', ht'', hlt''⟩ := h.length_dropFirst64_lt hh hH0 (ofNat_nonneg hn63)
            rw [ht] at ht''
            cases ht''
            omega
          · omega
        rw [vecLoop_of_step hne hlt hh hres ht]
        obtain ⟨s'', n', err', hrun, h₁, h₂, h₃⟩ :=
          @ih (done + n) t s' htd (by omega) (by omega) (by omega)
        exact ⟨s'', n', err', hrun, by omega, h₂, h₃⟩

end Loop

theorem writePrefix_count_le (m : Memory) (a : ℕ) (src : List UInt8) :
    (writePrefix m a src).2 ≤ src.length := by
  induction src generalizing m a with
  | nil => exact Nat.le_refl 0
  | cons b rest ih =>
    simp only [writePrefix]
    split
    · exact Nat.succ_le_succ (ih _ _)
    · exact Nat.zero_le _

theorem ioCopyOut_spec (src : List UInt8) (m : Memory) (a : Addr) {d c : ℕ}
    (h : d + c ≤ src.length) :
    (ioCopyOut src m a d c).2.1 ≤ c ∧
      ((ioCopyOut src m a d c).2.2 = none → (ioCopyOut src m a d c).2.1 = c) := by
  have hlen : ((src.drop d).take c).length = c := by
    simp only [List.length_take, List.length_drop]
    omega
  have hle := writePrefix_count_le m a.toNat ((src.drop d).take c)
  simp only [ioCopyOut, copyOut]
  refine ⟨by omega, fun hnone => ?_⟩
  split_ifs at hnone
  omega

theorem ioCopyIn_spec (m : Memory) (dst : List UInt8) (a : Addr) (d c : ℕ) :
    (ioCopyIn m dst a d c).2.1 ≤ c ∧
      ((ioCopyIn m dst a d c).2.2 = none → (ioCopyIn m dst a d c).2.1 = c) :=
  ⟨length_readPrefix_le m a.toNat c, fun h => copyIn_length_of_none (Prod.ext rfl h)⟩

theorem ioZeroOut_spec (m : Memory) (a : Addr) (d c : ℕ) :
    (ioZeroOut m a d c).2.1 ≤ c ∧ ((ioZeroOut m a d c).2.2 = none → (ioZeroOut m a d c).2.1 = c) := by
  have h := ioCopyOut_spec (List.replicate c 0) (d := 0) (c := c) m a (by simp)
  rwa [ioCopyOut, List.drop_zero, List.take_of_length_le (by simp)] at h

/-- `CopyOutVec` returns, with the documented invariant, a source no longer than the
sequence and fuel for each byte and range: it copies all of `src`, or stops at a fault. -/
theorem copyOutVec_returns (m : Memory) {ars : AddrRangeSeq} (h : AddrRangeSeq.DocInv ars)
    {src : List UInt8} (hsrc : src.length ≤ ars.limit.toNat) (h63 : src.length < 2 ^ 63)
    {fuel : ℕ} (hfuel : ars.limit.toNat + ars.length < fuel) :
    ∃ m' n err, copyOutVec fuel m ars src = .ok (m', n, err) ∧ n ≤ src.length ∧
      (err = none → n = src.length) := by
  obtain ⟨m', n, err, hrun, -, hn, herr⟩ :=
    vecLoop_returns (fun m a _ _ hdc => ioCopyOut_spec src m a hdc) h63 h (Nat.zero_le _)
      (by omega) hfuel (s := m)
  exact ⟨m', n, err, hrun, hn, herr⟩

/-- `CopyInVec` returns under the conditions of `copyOutVec_returns`. -/
theorem copyInVec_returns (m : Memory) {ars : AddrRangeSeq} (h : AddrRangeSeq.DocInv ars)
    {dst : List UInt8} (hdst : dst.length ≤ ars.limit.toNat) (h63 : dst.length < 2 ^ 63)
    {fuel : ℕ} (hfuel : ars.limit.toNat + ars.length < fuel) :
    ∃ dst' n err, copyInVec fuel m ars dst = .ok (dst', n, err) ∧ n ≤ dst.length ∧
      (err = none → n = dst.length) := by
  obtain ⟨dst', n, err, hrun, -, hn, herr⟩ :=
    vecLoop_returns (fun dst a d c _ => ioCopyIn_spec m dst a d c) h63 h (Nat.zero_le _)
      (by omega) hfuel (s := dst)
  exact ⟨dst', n, err, hrun, hn, herr⟩

/-- `ZeroOutVec` returns under the conditions of `copyOutVec_returns`. -/
theorem zeroOutVec_returns (m : Memory) {ars : AddrRangeSeq} (h : AddrRangeSeq.DocInv ars)
    {toZero : Int64} (hz : toZero.toNatClampNeg ≤ ars.limit.toNat)
    {fuel : ℕ} (hfuel : ars.limit.toNat + ars.length < fuel) :
    ∃ m' n err, zeroOutVec fuel m ars toZero = .ok (m', n, err) ∧ n ≤ toZero.toNatClampNeg ∧
      (err = none → n = toZero.toNatClampNeg) := by
  have h63 : toZero.toNatClampNeg < 2 ^ 63 := by
    have := Int64.toInt_lt toZero
    simp only [Int64.toNatClampNeg]
    omega
  obtain ⟨m', n, err, hrun, -, hn, herr⟩ :=
    vecLoop_returns (fun m a d c _ => ioZeroOut_spec m a d c) h63 h (Nat.zero_le _) (by omega)
      hfuel (s := m)
  exact ⟨m', n, err, hrun, hn, herr⟩

/-- `CopyOutVec` and `CopyInVec` of 4096 bytes over two ranges cut to their first 2048
bytes, with every address mapped. The sequence is built by `AddrRangeSeqFromSlice` and
`TakeFirst64` and keeps the documented invariant. The first turn copies the 2048 bytes, and
`DropFirst(2048)` leaves a sequence of no bytes that still holds both ranges, with a head of
no bytes. From then on every turn copies nothing and `DropFirst(0)` keeps the sequence, so
neither copy returns. -/
theorem copyVec_zero_head_hangs :
    AddrRangeSeq.Built ⟨[⟨0x1000, 0x2000⟩, ⟨0x3000, 0x4000⟩], 2, 0, 0x800⟩ ∧
      AddrRangeSeq.DocInv ⟨[⟨0x1000, 0x2000⟩, ⟨0x3000, 0x4000⟩], 2, 0, 0x800⟩ ∧
      (∀ fuel, copyOutVec fuel (fun _ => some 0)
        ⟨[⟨0x1000, 0x2000⟩, ⟨0x3000, 0x4000⟩], 2, 0, 0x800⟩ (List.replicate 0x1000 0) = .hang) ∧
      (∀ fuel, copyInVec fuel (fun _ => some 0)
        ⟨[⟨0x1000, 0x2000⟩, ⟨0x3000, 0x4000⟩], 2, 0, 0x800⟩ (List.replicate 0x1000 0) = .hang) := by
  have hs : AddrRangeSeq.fromSlice [⟨0x1000, 0x2000⟩, ⟨0x3000, 0x4000⟩] =
      some ⟨[⟨0x1000, 0x2000⟩, ⟨0x3000, 0x4000⟩], 2, 0, 0x2000⟩ := by decide
  have ht : AddrRangeSeq.takeFirst64 ⟨[⟨0x1000, 0x2000⟩, ⟨0x3000, 0x4000⟩], 2, 0, 0x2000⟩ 0x800 =
      some ⟨[⟨0x1000, 0x2000⟩, ⟨0x3000, 0x4000⟩], 2, 0, 0x800⟩ := by decide
  have hb := AddrRangeSeq.Built.takeFirst64 (AddrRangeSeq.Built.fromSlice hs) ht
  -- the sequence after the first turn: no bytes left, and the first range still there
  have hdrop : AddrRangeSeq.dropFirst64 ⟨[⟨0x1000, 0x2000⟩, ⟨0x3000, 0x4000⟩], 2, 0, 0x800⟩
      (Int64.ofNat 0x800) = some ⟨[⟨0x1000, 0x2000⟩, ⟨0x3000, 0x4000⟩], 2, 0x800, 0⟩ := by
    rw [AddrRangeSeq.dropFirst64_eq (by decide) (by decide), if_neg (by decide),
      if_neg (by decide), AddrRangeSeq.dropLoop_of_lt (by decide) (by decide)]
    rfl
  have hstay : AddrRangeSeq.dropFirst64 ⟨[⟨0x1000, 0x2000⟩, ⟨0x3000, 0x4000⟩], 2, 0x800, 0⟩ 0 =
      some ⟨[⟨0x1000, 0x2000⟩, ⟨0x3000, 0x4000⟩], 2, 0x800, 0⟩ := by
    rw [AddrRangeSeq.dropFirst64_eq (by decide) (by decide), if_neg (by decide),
      if_neg (by decide), AddrRangeSeq.dropLoop_zero]
  have hh₀ : AddrRangeSeq.head ⟨[⟨0x1000, 0x2000⟩, ⟨0x3000, 0x4000⟩], 2, 0, 0x800⟩ =
      some ⟨0x1000, 0x1800⟩ := by decide
  have hh₁ : AddrRangeSeq.head ⟨[⟨0x1000, 0x2000⟩, ⟨0x3000, 0x4000⟩], 2, 0x800, 0⟩ =
      some ⟨0x1800, 0x1800⟩ := by decide
  have hcp : cplen 0x1000 0 ⟨0x1000, 0x1800⟩ = 0x800 := by decide
  refine ⟨hb, ⟨hb.inv, fun _ => by decide⟩, ?_, ?_⟩
  · rintro (_ | fuel)
    · rfl
    have hlen : (((List.replicate 0x1000 (0 : UInt8)).drop 0).take 0x800).length = 0x800 := by
      rw [List.drop_zero, List.length_take, List.length_replicate]
      rfl
    obtain ⟨m', hm'⟩ := copyOut_of_mapped (fun _ => some 0) 0x1000
      (((List.replicate 0x1000 (0 : UInt8)).drop 0).take 0x800) (fun _ _ => rfl)
    rw [hlen] at hm'
    rw [copyOutVec, List.length_replicate,
      vecLoop_of_step (by decide) (by decide) hh₀ (by dsimp only; rw [hcp, ioCopyOut, hm']) hdrop]
    exact vecLoop_stuck (fun _ _ _ => rfl) (by decide) (by decide) hh₁ (by decide) hstay fuel m'
  · rintro (_ | fuel)
    · rfl
    have hm' := copyIn_of_mapped (m := fun _ => some 0) (a := 0x1000) (n := 0x800)
      (fun _ _ => rfl)
    have hlen : (readPrefix (fun _ => some 0) (0x1000 : Addr).toNat 0x800).length = 0x800 :=
      length_readPrefix_of_mapped (fun _ _ => rfl)
    rw [copyInVec, List.length_replicate,
      vecLoop_of_step (by decide) (by decide) hh₀ (by dsimp only; rw [hcp, ioCopyIn, hm'])
        (by rw [hlen]; exact hdrop), hlen]
    refine vecLoop_stuck (fun dst a d => ?_) (by decide) (by decide) hh₁ (by decide) hstay fuel _
    simp [ioCopyIn, copyIn, readPrefix]

end Usermem
