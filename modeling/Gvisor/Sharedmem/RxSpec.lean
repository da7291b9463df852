import Gvisor.Sharedmem.Rx
import Gvisor.Lib.MachineInt

/-! What `Pull` can do from a state that `Init`, `Pull`, `Flush` and the
peer's writes reach, whatever the peer writes. The offsets of `head` and
`tail` stay multiples of 8 inside the buffer, so no access panics and every
slice returned lies inside the buffer. But `Pull` need not return: a
wrapping slot at offset 0 whose size is a whole revolution sends `head`
round to offset 0 again, and unless `tail == head` nothing frees the slot or
stops the recursion.

The comparisons of `Pull` on `uint64` and `int64` are first read in `ℕ`: with
`off` the offset of `head` and `S` the size of its slot, the slot wraps when
`L ≤ off + S`, reaches past the next revolution when `off + S - L > 2^32`, and
ends at offset `(off + S) % 2^32`. -/

namespace Sharedmem

/-! ### The index arithmetic of `Pull` in `ℕ` -/

theorem toNat_and_offsetMask (x : UInt64) : (x &&& offsetMask).toNat = x.toNat % 2 ^ 32 := by
  rw [UInt64.toNat_and, show offsetMask.toNat = 2 ^ 32 - 1 from rfl, Nat.and_two_pow_sub_one_eq_mod]

theorem toNat_and_revolutionMask (x : UInt64) :
    (x &&& revolutionMask).toNat = x.toNat / 2 ^ 32 * 2 ^ 32 := by
  rw [UInt64.toNat_and, show revolutionMask.toNat = 2 ^ 64 - 2 ^ 32 from rfl]
  exact Nat.and_two_pow_sub_two_pow x.toNat_lt (by norm_num)

theorem toNat_headWrap (x : UInt64) {L : ℕ} (hL : L < 2 ^ 32) :
    ((x &&& revolutionMask) ||| L.toUInt64).toNat = x.toNat / 2 ^ 32 * 2 ^ 32 + L := by
  have hl : L.toUInt64.toNat = L := by
    rw [Nat.toUInt64_eq, UInt64.toNat_ofNat']
    omega
  rw [UInt64.toNat_or, toNat_and_revolutionMask, hl, ← Nat.shiftLeft_eq,
    Nat.shiftLeft_add_eq_or_of_lt hL]

theorem toNat_payloadToSlotSize {p : UInt64} (hp : p.toNat < 2 ^ 32) :
    (payloadToSlotSize p).toNat = (p.toNat + 15) / 8 * 8 := by
  unfold payloadToSlotSize
  have hs : (sizeOfSlotHeader + p + sizeOfSlotHeader - 1).toNat = p.toNat + 15 := by
    rw [UInt64.toNat_sub_of_le, UInt64.toNat_add, UInt64.toNat_add]
    · simp [sizeOfSlotHeader]; omega
    · rw [UInt64.le_iff_toNat_le, UInt64.toNat_add, UInt64.toNat_add]
      simp [sizeOfSlotHeader]
      omega
  rw [UInt64.toNat_and, hs, show (~~~(sizeOfSlotHeader - 1)).toNat = 2 ^ 64 - 2 ^ 3 from rfl]
  exact Nat.and_two_pow_sub_two_pow (by omega) (by norm_num)

theorem toNat_sub_headWrap {head size : UInt64} {L : ℕ} (hL : L < 2 ^ 32)
    (hs : size.toNat ≤ 2 ^ 32 + 8) :
    (head + size - ((head &&& revolutionMask) ||| L.toUInt64)).toNat =
      if L ≤ head.toNat % 2 ^ 32 + size.toNat then head.toNat % 2 ^ 32 + size.toNat - L
      else 2 ^ 64 - (L - (head.toNat % 2 ^ 32 + size.toNat)) := by
  have hw := toNat_headWrap head hL
  rw [UInt64.toNat_sub, UInt64.toNat_add, hw]
  have := head.toNat_lt
  have hd := Nat.div_add_mod head.toNat (2 ^ 32)
  split_ifs <;> omega

theorem toInt64_nonneg_iff (d : UInt64) : 0 ≤ d.toInt64 ↔ d.toNat < 2 ^ 63 := by
  rw [Int64.le_iff_toInt_le, UInt64.toInt_toInt64, show (0 : Int64).toInt = 0 from rfl]
  have := d.toNat_lt
  split_ifs <;> omega

theorem toInt64_gt_jump_iff {d : UInt64} (h : d.toNat < 2 ^ 63) :
    d.toInt64 > jump.toInt64 ↔ 2 ^ 32 < d.toNat := by
  rw [gt_iff_lt, Int64.lt_iff_toInt_lt, show jump.toInt64.toInt = 2 ^ 32 from rfl,
    UInt64.toInt_toInt64, if_pos h]
  omega

theorem toNat_newHead_offset (head size : UInt64) :
    ((head + size) &&& offsetMask).toNat = (head.toNat % 2 ^ 32 + size.toNat) % 2 ^ 32 := by
  rw [toNat_and_offsetMask, UInt64.toNat_add]
  omega

theorem toNat_payloadSize_lt (header : UInt64) : (header &&& slotSizeMask).toNat < 2 ^ 32 := by
  rw [UInt64.toNat_and, show slotSizeMask.toNat = 2 ^ 32 - 1 from rfl, Nat.and_two_pow_sub_one_eq_mod]
  exact Nat.mod_lt _ (by norm_num)

/-- A slot holds its header and payload, is at most a revolution and a header
long, and is a multiple of 8 long. -/
theorem slotSize_bounds (header : UInt64) :
    (header &&& slotSizeMask).toNat + 8 ≤ (payloadToSlotSize (header &&& slotSizeMask)).toNat ∧
      (payloadToSlotSize (header &&& slotSizeMask)).toNat ≤ 2 ^ 32 + 8 ∧
      (payloadToSlotSize (header &&& slotSizeMask)).toNat % 8 = 0 := by
  have hp := toNat_payloadSize_lt header
  rw [toNat_payloadToSlotSize hp]
  omega

section Slot

variable {head size : UInt64} {L : ℕ}

/-- The slot at `head` wraps exactly when it ends at or past the end of the
buffer. -/
theorem wrap_iff (hL : L < 2 ^ 32) (hs : size.toNat ≤ 2 ^ 32 + 8) :
    (head + size - ((head &&& revolutionMask) ||| L.toUInt64)).toInt64 ≥ 0 ↔
      L ≤ head.toNat % 2 ^ 32 + size.toNat := by
  rw [ge_iff_le, toInt64_nonneg_iff, toNat_sub_headWrap hL hs]
  have := Nat.mod_lt head.toNat (show 0 < 2 ^ 32 by norm_num)
  split_ifs with h <;> omega

/-- A wrapping slot reaches past the next revolution exactly when it ends more
than `2^32` past the end of the buffer. -/
theorem beyond_iff (hL : L < 2 ^ 32) (hs : size.toNat ≤ 2 ^ 32 + 8)
    (hle : L ≤ head.toNat % 2 ^ 32 + size.toNat) :
    (head + size - ((head &&& revolutionMask) ||| L.toUInt64)).toInt64 > jump.toInt64 ↔
      2 ^ 32 < head.toNat % 2 ^ 32 + size.toNat - L := by
  have hd := @toNat_sub_headWrap head size L hL hs
  rw [if_pos hle] at hd
  rw [toInt64_gt_jump_iff (by rw [hd]; omega), hd]

end Slot

/-! ### The invariant -/

/-- An index whose offset is a multiple of 8 inside a buffer of length `L`. -/
def InBuffer (L : ℕ) (idx : UInt64) : Prop := idx.toNat % 2 ^ 32 % 8 = 0 ∧ idx.toNat % 2 ^ 32 < L

/-- A buffer as `Init` leaves it: a multiple of 8 long, at least one header
long, and addressed by 32-bit offsets. -/
structure Pipe.WF (p : Pipe) : Prop where
  len_mod : p.len % 8 = 0
  len_ge : 8 ≤ p.len
  len_lt : p.len < 2 ^ 32

structure Rx.Inv (L : ℕ) (r : Rx) : Prop where
  head : InBuffer L r.head
  tail : InBuffer L r.tail

theorem Pipe.WF.with_word {p : Pipe} (hp : p.WF) (word : ℕ → UInt64) :
    ({ p with word := word } : Pipe).WF :=
  ⟨hp.len_mod, hp.len_ge, hp.len_lt⟩

theorem Pipe.WF.of_len_eq {p p' : Pipe} (hp : p.WF) (h : p'.len = p.len) : p'.WF :=
  ⟨h ▸ hp.len_mod, h ▸ hp.len_ge, h ▸ hp.len_lt⟩

theorem inBuffer_of_offset_zero {L : ℕ} {idx : UInt64} (hL : 0 < L) (h : idx &&& offsetMask = 0) :
    InBuffer L idx := by
  have h0 := congrArg UInt64.toNat h
  rw [toNat_and_offsetMask] at h0
  exact ⟨by rw [h0]; rfl, by rw [h0]; exact hL⟩

/-- A slot that ends inside the buffer leaves `head` at an offset inside it. -/
theorem inBuffer_add_of_lt {L : ℕ} {head size : UInt64} (hL : L < 2 ^ 32) (hh : InBuffer L head)
    (hs : size.toNat % 8 = 0) (hlt : head.toNat % 2 ^ 32 + size.toNat < L) :
    InBuffer L (head + size) := by
  have hoff : (head + size).toNat % 2 ^ 32 = head.toNat % 2 ^ 32 + size.toNat := by
    have h := toNat_newHead_offset head size
    rw [toNat_and_offsetMask] at h
    rw [h, Nat.mod_eq_of_lt (by omega)]
  unfold InBuffer
  rw [hoff]
  exact ⟨by have := hh.1; omega, hlt⟩

namespace Pipe

variable {p : Pipe} {idx : UInt64}

theorem readAtomic_of_inBuffer (hp : p.WF) (h : InBuffer p.len idx) :
    p.readAtomic idx = .ok (p.word (idx.toNat % 2 ^ 32)) := by
  have := hp.len_mod
  unfold readAtomic
  rw [toNat_and_offsetMask, if_pos (by have := h.1; have := h.2; omega)]

theorem writeAtomic_of_inBuffer (hp : p.WF) (h : InBuffer p.len idx) (v : UInt64) :
    p.writeAtomic idx v = .ok { p with word := Function.update p.word (idx.toNat % 2 ^ 32) v } := by
  have := hp.len_mod
  unfold writeAtomic
  rw [toNat_and_offsetMask, if_pos (by have := h.1; have := h.2; omega)]

theorem data_of_le {size : UInt64} (h : idx.toNat % 2 ^ 32 + 8 + size.toNat ≤ p.len) :
    p.data idx size = .ok ⟨idx.toNat % 2 ^ 32 + 8, size.toNat⟩ := by
  unfold data
  rw [toNat_and_offsetMask, if_pos (by simp [sizeOfSlotHeader]; omega)]
  rfl

end Pipe

/-! ### `Pull` and `Flush` keep the invariant -/

/-- What `Pull` may come back with from a state that keeps the invariant: no
panic, and a state that keeps it with the same buffer, with any slice inside
the buffer. It may run out of fuel. -/
def PullOk (L : ℕ) : Outcome Empty (Pipe × Rx × Option Slice) → Prop
  | .ok (p', r', b) => p'.len = L ∧ r'.Inv L ∧ ∀ sl ∈ b, sl.start + sl.length ≤ L
  | .error e => Empty.elim e
  | .hang => True
  | .panic => False

namespace Rx

/-- Every call of `Pull` from a state that keeps the invariant, on any contents
of the buffer, stays inside the buffer. The induction is on the fuel, that is
on the recursive calls on wrapping slots; each lands at offset 0. -/
theorem pull_ok : ∀ (fuel : ℕ) {p : Pipe} {r : Rx}, p.WF → r.Inv p.len → PullOk p.len (pull fuel p r)
  | 0, _, _, _, _ => trivial
  | fuel + 1, p, r, hp, hr => by
    rw [pull]
    by_cases hend : r.head = r.tail + jump
    · rw [if_pos hend]
      exact ⟨rfl, hr, by simp⟩
    rw [if_neg hend, Pipe.readAtomic_of_inBuffer hp hr.head, Outcome.ok_bind]
    dsimp only
    obtain ⟨hS₁, hS₂, hS₃⟩ := slotSize_bounds (p.word (r.head.toNat % 2 ^ 32))
    by_cases hfree : p.word (r.head.toNat % 2 ^ 32) &&& slotFree ≠ 0
    · rw [if_pos hfree]
      exact ⟨rfl, hr, by simp⟩
    rw [if_neg hfree]
    have hL := hp.len_lt
    generalize payloadToSlotSize (p.word (r.head.toNat % 2 ^ 32) &&& slotSizeMask) = S at *
    split_ifs with hwrap hbeyond htail
    · exact ⟨rfl, hr, by simp⟩
    -- a wrapping slot that ends at offset 0 of the next revolution: recurse from there
    · have hnew : InBuffer p.len (r.head + S) :=
        inBuffer_of_offset_zero (by have := hp.len_ge; omega) (by simpa using (not_or.1 hbeyond).2)
      rw [Pipe.writeAtomic_of_inBuffer hp hr.head, Outcome.ok_bind, Outcome.pure_eq, Outcome.ok_bind]
      exact pull_ok fuel (hp.with_word _) ⟨hnew, hnew⟩
    · have hnew : InBuffer p.len (r.head + S) :=
        inBuffer_of_offset_zero (by have := hp.len_ge; omega) (by simpa using (not_or.1 hbeyond).2)
      rw [Outcome.pure_eq, Outcome.ok_bind]
      exact pull_ok fuel hp ⟨hnew, hr.tail⟩
    -- a slot that ends inside the buffer: its payload is the slice returned
    · have hlt : r.head.toNat % 2 ^ 32 + S.toNat < p.len := by
        rw [wrap_iff hL hS₂] at hwrap
        omega
      rw [Pipe.data_of_le (by omega), Outcome.ok_bind, Outcome.pure_eq]
      refine ⟨rfl, ⟨inBuffer_add_of_lt hL hr.head hS₃ hlt, hr.tail⟩, ?_⟩
      intro sl hsl
      rw [Option.mem_def, Option.some.injEq] at hsl
      rw [← hsl]
      dsimp only
      omega

theorem flush_ok {p p' : Pipe} {r r' : Rx} (hp : p.WF) (hr : r.Inv p.len)
    (h : flush p r = .ok (p', r')) : p'.len = p.len ∧ r'.Inv p.len := by
  unfold flush at h
  by_cases hht : r.head = r.tail
  · rw [if_pos hht] at h
    obtain ⟨rfl, rfl⟩ := Prod.mk.inj (Outcome.ok.inj h)
    exact ⟨rfl, hr⟩
  · rw [if_neg hht, Pipe.writeAtomic_of_inBuffer hp hr.tail, Outcome.ok_bind, Outcome.pure_eq] at h
    obtain ⟨rfl, rfl⟩ := Prod.mk.inj (Outcome.ok.inj h)
    exact ⟨rfl, ⟨hr.head, hr.head⟩⟩

theorem init_inv {b : Pipe} (hb₁ : 8 ≤ b.len) (hb₂ : b.len < 2 ^ 32) :
    (init b).1.WF ∧ (init b).2.Inv (init b).1.len := by
  have hidx : InBuffer (b.len / 8 * 8) initIndex := ⟨rfl, by simp [initIndex, jump]; omega⟩
  exact ⟨⟨by simp [init, Pipe.init], by simp [init, Pipe.init]; omega,
    by simp [init, Pipe.init]; omega⟩, ⟨hidx, hidx⟩⟩

theorem Reachable.init (b : Pipe) : Reachable b (init b) := Transition.Reachable.of_init rfl

theorem Reachable.step {b : Pipe} {s s' : Pipe × Rx} (h : Reachable b s) (hs : Step s s') :
    Reachable b s' :=
  Transition.Reachable.tail h hs

/-- Every state that `Init` of a buffer of at least one header and 32-bit
offsets, then `Pull`, `Flush` and the peer's writes reach, keeps the
invariant. -/
theorem Reachable.inv {b : Pipe} (hb₁ : 8 ≤ b.len) (hb₂ : b.len < 2 ^ 32) {s : Pipe × Rx}
    (h : Reachable b s) : s.1.WF ∧ s.2.Inv s.1.len := by
  refine Transition.Reachable.invariant (fun s => s.1.WF ∧ s.2.Inv s.1.len) ?_ ?_ h
  · rintro _ rfl
    exact init_inv hb₁ hb₂
  · rintro _ _ ⟨hp, hr⟩ hstep
    cases hstep with
    | @pull _ _ _ _ fuel _ hpull =>
      have hok := pull_ok fuel hp hr
      rw [hpull] at hok
      obtain ⟨hlen, hr', -⟩ := hok
      exact ⟨hp.of_len_eq hlen, hlen ▸ hr'⟩
    | flush hflush =>
      obtain ⟨hlen, hr'⟩ := flush_ok hp hr hflush
      exact ⟨hp.of_len_eq hlen, hlen ▸ hr'⟩
    | peer p r word => exact ⟨hp.with_word word, hr⟩

/-! ### A wrapping slot of a whole revolution -/

/-- A wrapping slot that ends at offset 0 of the next revolution, pulled when
`tail` is elsewhere: `Pull` frees nothing and calls itself from there. -/
theorem pull_wrap_skip {p : Pipe} {r : Rx} (hp : p.WF) (hh : InBuffer p.len r.head)
    (hend : r.head ≠ r.tail + jump) (hfree : p.word (r.head.toNat % 2 ^ 32) &&& slotFree = 0)
    (hends : r.head.toNat % 2 ^ 32 +
      (payloadToSlotSize (p.word (r.head.toNat % 2 ^ 32) &&& slotSizeMask)).toNat = 2 ^ 32)
    (htail : r.tail ≠ r.head) (fuel : ℕ) :
    pull (fuel + 1) p r =
      pull fuel p { r with head := r.head + payloadToSlotSize (p.word (r.head.toNat % 2 ^ 32) &&& slotSizeMask) } := by
  have hL := hp.len_lt
  obtain ⟨-, hS₂, -⟩ := slotSize_bounds (p.word (r.head.toNat % 2 ^ 32))
  rw [pull, if_neg hend, Pipe.readAtomic_of_inBuffer hp hh, Outcome.ok_bind]
  dsimp only
  rw [if_neg (not_not.2 hfree)]
  generalize payloadToSlotSize (p.word (r.head.toNat % 2 ^ 32) &&& slotSizeMask) = S at *
  have hwrap : p.len ≤ r.head.toNat % 2 ^ 32 + S.toNat := by omega
  have hbeyond := beyond_iff hL hS₂ hwrap
  have hoff : r.head + S &&& offsetMask = 0 := by
    apply UInt64.toNat_inj.1
    rw [toNat_newHead_offset, hends]
    rfl
  have hin : ¬(2 ^ 32 < r.head.toNat % 2 ^ 32 + S.toNat - p.len) := by
    have := hp.len_ge
    omega
  rw [if_pos ((wrap_iff hL hS₂).2 hwrap), if_neg (by rw [hbeyond, hoff]; simpa using hin),
    if_neg htail, Outcome.pure_eq, Outcome.ok_bind]

theorem toNat_add_jump_offset (x : UInt64) : (x + jump).toNat % 2 ^ 32 = x.toNat % 2 ^ 32 := by
  rw [UInt64.toNat_add, show jump.toNat = 2 ^ 32 from rfl]
  omega

/-- The header of a wrapping slot of a whole revolution: its payload is
`2^32 - 8`, so the slot is `jump` long. -/
def revolutionHeader : UInt64 := 0xfffffff8

/-- With a wrapping slot of a whole revolution at offset 0 and `tail` away from
offset 0, `Pull` at offset 0 goes round to offset 0 again and again: whatever
its fuel, it runs out. -/
theorem pull_revolution_hangs {p : Pipe} (hp : p.WF) (hw : p.word 0 = revolutionHeader) {t : UInt64}
    (ht : t.toNat % 2 ^ 32 ≠ 0) :
    ∀ (fuel : ℕ) (h : UInt64), h.toNat % 2 ^ 32 = 0 → pull fuel p ⟨t, h⟩ = .hang
  | 0, _, _ => rfl
  | fuel + 1, h, hh => by
    have hge := hp.len_ge
    have hend : h ≠ t + jump := fun he => ht (by rw [← toNat_add_jump_offset, ← he, hh])
    have htail : t ≠ h := fun he => ht (by rw [he, hh])
    have hword : p.word (h.toNat % 2 ^ 32) = revolutionHeader := by rw [hh, hw]
    rw [pull_wrap_skip hp ⟨by rw [hh], by rw [hh]; omega⟩ hend (by rw [hword]; rfl)
      (by rw [hword, hh]; rfl) htail fuel]
    -- the slot is `jump` long, so `head` moves one revolution on, to offset 0
    dsimp only
    rw [hword, show payloadToSlotSize (revolutionHeader &&& slotSizeMask) = jump from rfl]
    exact pull_revolution_hangs hp hw ht fuel (h + jump) (by rw [toNat_add_jump_offset, hh])

/-- `Pull` stays inside the buffer but need not return. From every state that
`Init` of a buffer of at least one header and 32-bit offsets, `Pull`, `Flush`
and the peer's writes reach, no call of `Pull` panics, and every slice it
returns lies inside the buffer, whatever the buffer holds. But the peer can
make it recurse for ever. Take a buffer of 64 bytes and pull two slots of 8
bytes with a `Flush` between them. Then let the peer write a wrapping slot at
offset 32 and a wrapping slot of a whole revolution at offset 0. The next
`Pull` wraps to offset 0 with `tail` at offset 16, and from then on it neither
frees the slot nor meets `tail + jump`. -/
theorem pull_unbounded_on_revolution_slot :
    (∀ (b : Pipe) (s : Pipe × Rx), 8 ≤ b.len → b.len < 2 ^ 32 → Reachable b s →
      ∀ fuel, PullOk s.1.len (pull fuel s.1 s.2)) ∧
    Reachable ⟨64, fun _ => 0⟩
      (⟨64, fun o => if o = 0 then revolutionHeader else if o = 32 then 0xffffffd8 else 0⟩,
        ⟨initIndex + 16, initIndex + 32⟩) ∧
    ∀ fuel, pull fuel ⟨64, fun o => if o = 0 then revolutionHeader else if o = 32 then 0xffffffd8 else 0⟩
      ⟨initIndex + 16, initIndex + 32⟩ = .hang := by
  refine ⟨fun b s hb₁ hb₂ h fuel => ?_, ?_, ?_⟩
  · obtain ⟨hp, hr⟩ := h.inv hb₁ hb₂
    exact pull_ok fuel hp hr
  · have h₁ : pull 1 ⟨64, fun o => if o = 0 then 8 else 0⟩ ⟨initIndex, initIndex⟩ =
        .ok (⟨64, fun o => if o = 0 then 8 else 0⟩, ⟨initIndex, initIndex + 16⟩, some ⟨8, 8⟩) := rfl
    have hf : flush ⟨64, fun o => if o = 0 then 8 else 0⟩ ⟨initIndex, initIndex + 16⟩ =
        .ok (⟨64, Function.update (fun o => if o = 0 then 8 else 0) 0 (slotFree ||| 8)⟩,
          ⟨initIndex + 16, initIndex + 16⟩) := rfl
    have h₂ : pull 1 ⟨64, fun o => if o = 16 then 8 else 0⟩ ⟨initIndex + 16, initIndex + 16⟩ =
        .ok (⟨64, fun o => if o = 16 then 8 else 0⟩, ⟨initIndex + 16, initIndex + 32⟩, some ⟨24, 8⟩) :=
      rfl
    exact ((((((Reachable.init _).step (Step.peer _ _ fun o => if o = 0 then 8 else 0)).step
      (Step.pull h₁)).step (Step.flush hf)).step (Step.peer _ _ fun o => if o = 16 then 8 else 0)).step
      (Step.pull h₂)).step
      (Step.peer _ _ fun o => if o = 0 then revolutionHeader else if o = 32 then 0xffffffd8 else 0)
  · have hp : Pipe.WF ⟨64, fun o => if o = 0 then revolutionHeader else if o = 32 then 0xffffffd8 else 0⟩ :=
      ⟨rfl, by decide, by decide⟩
    intro fuel
    cases fuel with
    | zero => rfl
    | succ fuel =>
      -- the slot at offset 32 wraps to offset 0 of the next revolution
      rw [pull_wrap_skip hp ⟨rfl, by decide⟩ (by decide) rfl rfl (by decide) fuel]
      exact pull_revolution_hangs hp rfl (t := initIndex + 16) (by decide) fuel _ rfl

/-- From `Init` of a buffer of 64 zero bytes, the first `Pull` reads a slot of
no payload and stays inside the buffer. -/
theorem pull_unbounded_on_revolution_slot_init :
    PullOk 64 (pull 1 (init ⟨64, fun _ => 0⟩).1 (init ⟨64, fun _ => 0⟩).2) :=
  pull_unbounded_on_revolution_slot.1 ⟨64, fun _ => 0⟩ _ (show 8 ≤ 64 by decide)
    (show 64 < 2 ^ 32 by decide) (Reachable.init _) 1

end Rx

end Sharedmem
