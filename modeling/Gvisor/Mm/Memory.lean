import Gvisor.Lib.Outcome
import Gvisor.Syserror
import Gvisor.Usermem.Addr

/-! The part of `mm.MemoryManager` (pkg/sentry/mm) that the ELF loader uses:
`MMap` with its argument checks and `findAvailableLocked`, `MUnmap` and
`ZeroOut`, over the contents of the address space. Where a non-fixed mapping
goes when its hint does not fit is the memory manager's layout policy and is
left as a parameter; limits, permissions and memory locking are not modelled.
A file mapping shows the file's bytes, zeroes up to the end of the page that
holds its last byte, and nothing readable beyond (a bus error). -/

namespace Mm

open Syserror Usermem

/-- The address space: `none` where nothing is mapped, else what a read of
the mapped address gives, `none` for a file page past the end of the file. -/
abbrev Memory := ℕ → Option (Option UInt8)

/-- `[start, start + len)` of `m` replaced by `f (a - start)`. -/
def Memory.update (m : Memory) (start len : ℕ) (f : ℕ → Option (Option UInt8)) : Memory :=
  fun a => if start ≤ a ∧ a < start + len then f (a - start) else m a

/-- No address of `[start, start + len)` is mapped. -/
def Memory.free (m : Memory) (start len : ℕ) : Bool :=
  (List.range len).all fun i => m (start + i) == none

@[simp] theorem Memory.update_apply (m : Memory) (start len : ℕ) (f : ℕ → Option (Option UInt8))
    (a : ℕ) : m.update start len f a = if start ≤ a ∧ a < start + len then f (a - start) else m a :=
  rfl

theorem Memory.free_iff (m : Memory) (start len : ℕ) :
    m.free start len = true ↔ ∀ i < len, m (start + i) = none := by
  simp [Memory.free]

structure MemoryManager where
  minAddr : ℕ
  maxAddr : ℕ
  maxAddr_lt : maxAddr < 2 ^ 64
  mem : Memory
  /-- Where a non-fixed mapping of a length goes when its hint does not fit:
  a free range of pages in the address space. -/
  findAvailable : Memory → ℕ → Option Addr
  findAvailable_spec : ∀ m n a, findAvailable m n = some a →
    a.toNat % 4096 = 0 ∧ minAddr ≤ a.toNat ∧ a.toNat + n ≤ maxAddr ∧ m.free a.toNat n = true

/-- An address space with nothing mapped, as `NewMemoryManager` makes it, whose
layout has no other place for a mapping whose hint does not fit. -/
def MemoryManager.empty (minAddr maxAddr : ℕ) (h : maxAddr < 2 ^ 64) : MemoryManager :=
  ⟨minAddr, maxAddr, h, fun _ => none, fun _ _ => none, fun _ _ _ h => by cases h⟩

/-- `memmap.MMapOpts`, with the file's bytes as the mappable. -/
structure MMapOpts where
  length : UInt64
  offset : UInt64
  addr : Addr
  fixed : Bool
  unmap : Bool
  file : Option (List UInt8)

/-- What a private mapping of `file` shows at file offset `o`. -/
def fileByte (file : List UInt8) (o : ℕ) : Option UInt8 :=
  if o < file.length then file[o]?
  else if o < (file.length + 4095) / 4096 * 4096 then some 0
  else none

/-- What the `i`-th byte of a mapping made with `opts` shows. -/
def MMapOpts.content (opts : MMapOpts) (i : ℕ) : Option (Option UInt8) :=
  match opts.file with
  | some file => some (fileByte file (opts.offset.toNat + i))
  | none => some (some 0)

namespace MemoryManager

/-- `findAvailableLocked`: the hint if the range fits in the address space and
is free (or is to be unmapped), else the layout's choice, unless fixed. -/
def findAvailableLocked (mm : MemoryManager) (length : UInt64) (addr : Addr) (fixed unmap : Bool) :
    Outcome Errno Addr :=
  let (e, ok) := Addr.addLength addr length
  if ok ∧ mm.minAddr ≤ addr.toNat ∧ e.toNat ≤ mm.maxAddr ∧
      (unmap ∨ mm.mem.free addr.toNat length.toNat) then .ok addr
  else if fixed then .error .ENOMEM
  else
    match mm.findAvailable mm.mem length.toNat with
    | some a => .ok a
    | none => .error .ENOMEM

theorem findAvailableLocked_eq_ok {mm : MemoryManager} {length : UInt64} {addr a : Addr}
    {fixed unmap : Bool} (h : mm.findAvailableLocked length addr fixed unmap = .ok a) :
    a.toNat + length.toNat ≤ mm.maxAddr ∧ (fixed = true → a = addr) ∧
      (addr.toNat % 4096 = 0 → a.toNat % 4096 = 0) ∧
      (unmap = false → mm.mem.free a.toNat length.toNat = true) := by
  unfold findAvailableLocked at h
  rcases he : Addr.addLength addr length with ⟨e, ok⟩
  simp only [he] at h
  split_ifs at h with hfit hfix
  · cases h
    obtain ⟨rfl, -, hle, hfree⟩ := hfit
    obtain ⟨-, hend⟩ := Addr.addLength_eq_true he
    refine ⟨hend ▸ hle, fun _ => rfl, id, fun hu => ?_⟩
    simpa [hu] using hfree
  · split at h
    · rename_i hfind
      cases h
      obtain ⟨halign, -, hle, hfree⟩ := mm.findAvailable_spec _ _ _ hfind
      exact ⟨hle, fun hf => absurd hf hfix, fun _ => halign, fun _ => hfree⟩
    · cases h

/-- `MMap`. -/
def mmap (mm : MemoryManager) (opts : MMapOpts) : Outcome Errno (Addr × MemoryManager) :=
  if opts.length = 0 then .error .EINVAL
  else
    let (length, ok) := Addr.roundUp opts.length
    if !ok then .error .ENOMEM
    else if opts.file.isSome ∧ Addr.roundDown opts.offset ≠ opts.offset then .error .EINVAL
    else if opts.file.isSome ∧ opts.offset + length < opts.offset then .error .ENOMEM
    else if Addr.roundDown opts.addr ≠ opts.addr ∧ opts.fixed then .error .EINVAL
    else
      let addr := Addr.roundDown opts.addr
      if opts.unmap ∧ !opts.fixed then .error .EINVAL
      else do
        let a ← mm.findAvailableLocked length addr opts.fixed opts.unmap
        pure (a, { mm with mem := mm.mem.update a.toNat length.toNat opts.content })

theorem mmap_eq_ok {mm mm' : MemoryManager} {opts : MMapOpts} {a : Addr}
    (h : mm.mmap opts = .ok (a, mm')) :
    ∃ len : UInt64, len.toNat = (opts.length.toNat + 4095) / 4096 * 4096 ∧ opts.length ≠ 0 ∧
      a.toNat % 4096 = 0 ∧ a.toNat + len.toNat ≤ mm.maxAddr ∧
      (opts.fixed = true → a = opts.addr) ∧
      (opts.unmap = false → mm.mem.free a.toNat len.toNat = true) ∧
      (opts.file.isSome → opts.offset.toNat % 4096 = 0 ∧ opts.offset.toNat + len.toNat < 2 ^ 64) ∧
      mm' = { mm with mem := mm.mem.update a.toNat len.toNat opts.content } := by
  unfold mmap at h
  rcases hr : Addr.roundUp opts.length with ⟨len, ok⟩
  simp only [hr] at h
  split_ifs at h with h0 hok hoff hover hfix hun
  obtain ⟨a', ha', hret⟩ := Outcome.bind_eq_ok.1 h
  cases hret
  cases ok
  · simp at hok
  obtain ⟨-, hlen⟩ := Addr.roundUp_eq_true hr
  have hround : (Addr.roundDown opts.addr).toNat % 4096 = 0 := by
    rw [Addr.toNat_roundDown]
    omega
  obtain ⟨hle, hfixed, halign, hfree⟩ := findAvailableLocked_eq_ok ha'
  refine ⟨len, hlen, h0, halign hround, hle, fun hf => ?_, hfree, fun hfile => ?_, rfl⟩
  · rw [hfixed hf]
    by_contra hne
    exact hfix ⟨hne, hf⟩
  · have hoff' := (Addr.roundDown_eq_self_iff _).1 (not_not.1 fun hne => hoff ⟨hfile, hne⟩)
    refine ⟨hoff', ?_⟩
    have := opts.offset.toNat_lt
    have := len.toNat_lt
    by_contra hge
    apply hover ⟨hfile, ?_⟩
    rw [UInt64.lt_iff_toNat_lt, UInt64.toNat_add]
    omega

/-- `MUnmap`. -/
def munmap (mm : MemoryManager) (addr : Addr) (length : UInt64) : Outcome Errno MemoryManager :=
  if addr ≠ Addr.roundDown addr then .error .EINVAL
  else if length = 0 then .error .EINVAL
  else
    let (la, ok) := Addr.roundUp length
    if !ok then .error .EINVAL
    else if !(Addr.addLength addr la).2 then .error .EINVAL
    else .ok { mm with mem := mm.mem.update addr.toNat la.toNat fun _ => none }

theorem munmap_eq_ok {mm mm' : MemoryManager} {addr : Addr} {length : UInt64}
    (h : mm.munmap addr length = .ok mm') :
    ∃ la : UInt64, la.toNat = (length.toNat + 4095) / 4096 * 4096 ∧
      mm' = { mm with mem := mm.mem.update addr.toNat la.toNat fun _ => none } := by
  unfold munmap at h
  rcases hr : Addr.roundUp length with ⟨la, ok⟩
  simp only [hr] at h
  split_ifs at h with ha h0 hok hfit
  cases h
  cases ok
  · simp at hok
  exact ⟨la, (Addr.roundUp_eq_true hr).2, rfl⟩

/-- `ZeroOut` of `toZero` bytes at `addr`, which faults on an address that is
not mapped or past the end of a mapped file. -/
def zeroOut (mm : MemoryManager) (addr : Addr) (toZero : ℕ) : Outcome Errno MemoryManager :=
  if addr.toNat + toZero ≥ 2 ^ 64 then .error .EFAULT
  else if (List.range toZero).all (fun i => (mm.mem (addr.toNat + i)).join.isSome) then
    .ok { mm with mem := mm.mem.update addr.toNat toZero fun _ => some (some 0) }
  else .error .EFAULT

theorem zeroOut_eq_ok {mm mm' : MemoryManager} {addr : Addr} {toZero : ℕ}
    (h : mm.zeroOut addr toZero = .ok mm') :
    addr.toNat + toZero < 2 ^ 64 ∧ (∀ i < toZero, (mm.mem (addr.toNat + i)).join.isSome) ∧
      mm' = { mm with mem := mm.mem.update addr.toNat toZero fun _ => some (some 0) } := by
  unfold zeroOut at h
  split_ifs at h with hover hall
  cases h
  simp only [List.all_eq_true, List.mem_range] at hall
  exact ⟨by omega, hall, rfl⟩

end MemoryManager
end Mm
