import Mathlib
import Gvisor.Loader.Header

/-! What `mapSegment` leaves in the address space, and what the two loops of
`loadParsedELF` compute. -/

namespace Loader

open Syserror Usermem Mm

/-- The pages `mapSegment` maps for a segment loaded at `offset`: from the page
of its first byte to the end of the page of its last file or memory byte. -/
def segmentPages (offset : ℕ) (phdr : ProgHeader) (a : ℕ) : Prop :=
  (offset + phdr.vaddr.toNat) / 4096 * 4096 ≤ a ∧
    a < (offset + phdr.vaddr.toNat + max phdr.filesz.toNat phdr.memsz.toNat + 4095) / 4096 * 4096

/-- What byte `i` of a loaded segment shows: the file's byte at `Off + i`, as a
private mapping of the file shows it, then zeroes up to `Memsz`. -/
def segmentByte (file : List UInt8) (phdr : ProgHeader) (i : ℕ) : Option (Option UInt8) :=
  if i < phdr.filesz.toNat then some (fileByte file (phdr.off.toNat + i)) else some (some 0)

theorem mapFilePages_eq_ok {mm mm' : MemoryManager} {file : List UInt8} {phdr : ProgHeader}
    {addr : Addr} {adjust fileSize mapSize : UInt64}
    (h : mapFilePages mm file phdr addr adjust fileSize mapSize = .ok mm')
    (hadj : adjust.toNat < 4096) (hsize : mapSize.toNat = (fileSize.toNat + 4095) / 4096 * 4096) :
    addr.toNat % 4096 = 0 ∧ adjust.toNat ≤ phdr.off.toNat ∧ ∀ a, mm'.mem a =
      if addr.toNat ≤ a ∧ a < addr.toNat + fileSize.toNat then
        some (fileByte file (phdr.off.toNat - adjust.toNat + (a - addr.toNat)))
      else if addr.toNat + fileSize.toNat ≤ a ∧ a < addr.toNat + mapSize.toNat then some (some 0)
      else mm.mem a := by
  unfold mapFilePages at h
  obtain ⟨⟨a0, mm1⟩, hmap, hrest⟩ := Outcome.bind_eq_ok.1 h
  obtain ⟨len, hlen, -, halign, hle, hfixed, -, hfile, rfl⟩ := MemoryManager.mmap_eq_ok hmap
  obtain rfl : addr = a0 := (hfixed rfl).symm
  obtain ⟨hoff, hover⟩ := hfile rfl
  dsimp only at hlen hoff hover
  have hlen' : len.toNat = mapSize.toNat := by omega
  have hoffset : adjust.toNat ≤ phdr.off.toNat ∧
      (phdr.off - adjust).toNat = phdr.off.toNat - adjust.toNat := by
    have := phdr.off.toNat_lt
    rw [UInt64.toNat_sub] at hoff ⊢
    omega
  refine ⟨halign, hoffset.1, fun a => ?_⟩
  simp only at hrest
  split_ifs at hrest with hgt hok
  · obtain ⟨-, -, rfl⟩ := MemoryManager.zeroOut_eq_ok hrest
    have hza := Addr.toNat_addLength (by simpa using hok)
    simp only [Memory.update_apply, MMapOpts.content, hza, hlen', hoffset.2]
    have hmf : (mapSize - fileSize).toNat = mapSize.toNat - fileSize.toNat := by
      rw [UInt64.toNat_sub_of_le _ _ (UInt64.le_of_lt hgt)]
    rw [hmf]
    split_ifs <;> first | rfl | omega
  · cases hrest
    have hle' : mapSize.toNat ≤ fileSize.toNat := by simpa [UInt64.lt_iff_toNat_lt] using hgt
    simp only [Memory.update_apply, MMapOpts.content, hlen', hoffset.2]
    split_ifs <;> first | rfl | omega

theorem mapAnonPages_eq_ok {mm mm' : MemoryManager} {addr : Addr} {mapSize memSize : UInt64}
    (h : mapAnonPages mm addr mapSize memSize = .ok mm') (hmap : mapSize.toNat % 4096 = 0) :
    (mapSize.toNat < memSize.toNat → (addr.toNat + mapSize.toNat) % 4096 = 0) ∧ ∀ a, mm'.mem a =
      if mapSize.toNat < memSize.toNat ∧ addr.toNat + mapSize.toNat ≤ a ∧
          a < addr.toNat + (memSize.toNat + 4095) / 4096 * 4096 then some (some 0)
      else mm.mem a := by
  unfold mapAnonPages at h
  simp only at h
  split_ifs at h with hlt hok hok2
  · obtain ⟨⟨a0, mm1⟩, hmmap, hret⟩ := Outcome.bind_eq_ok.1 h
    cases hret
    obtain ⟨len, hlen, -, halign, -, hfixed, -, -, rfl⟩ := MemoryManager.mmap_eq_ok hmmap
    dsimp only at hlen hfixed
    obtain rfl := hfixed rfl
    have hanon := Addr.toNat_addLength (by simpa using hok)
    have hsz := Addr.toNat_roundUp (by simpa using hok2)
    have hlt' : mapSize.toNat < memSize.toNat := UInt64.lt_iff_toNat_lt.1 hlt
    have hsub : (memSize - mapSize).toNat = memSize.toNat - mapSize.toNat :=
      UInt64.toNat_sub_of_le _ _ (UInt64.le_of_lt hlt)
    rw [hanon] at halign
    refine ⟨fun _ => halign, fun a => ?_⟩
    simp only [Memory.update_apply, MMapOpts.content, hanon]
    split_ifs <;> first | rfl | omega
  · cases h
    have hge : ¬mapSize.toNat < memSize.toNat := fun h' => hlt (UInt64.lt_iff_toNat_lt.2 h')
    simp [hge]

theorem mapSegment_eq_ok {mm mm' : MemoryManager} {file : List UInt8} {phdr : ProgHeader}
    {offset : Addr} (h : mapSegment mm file phdr offset = .ok mm') (hm : phdr.memsz ≠ 0) :
    (∀ i < phdr.memsz.toNat,
      mm'.mem (offset.toNat + phdr.vaddr.toNat + i) = segmentByte file phdr i) ∧
    ∀ a, ¬segmentPages offset.toNat phdr a → mm'.mem a = mm.mem a := by
  unfold mapSegment at h
  simp only at h
  split at h
  · cases h
  rename_i hok
  split at h
  · cases h
  rename_i hfs
  split at h
  · cases h
  rename_i hok2
  have hadj : (Addr.pageOffset phdr.vaddr).toNat = phdr.vaddr.toNat % 4096 :=
    Addr.toNat_pageOffset _
  have hP := Addr.toNat_addLength (by simpa using hok)
  have hA : ((offset.addLength phdr.vaddr).1 - Addr.pageOffset phdr.vaddr).toNat =
      offset.toNat + phdr.vaddr.toNat - phdr.vaddr.toNat % 4096 := by
    rw [UInt64.toNat_sub_of_le _ _ (UInt64.le_iff_toNat_le.2 (by omega)), hP, hadj]
  have hF : (phdr.filesz + Addr.pageOffset phdr.vaddr).toNat =
      phdr.filesz.toNat + phdr.vaddr.toNat % 4096 := by
    have := phdr.filesz.toNat_lt
    rw [UInt64.lt_iff_toNat_lt, UInt64.toNat_add] at hfs
    rw [UInt64.toNat_add, hadj]
    omega
  have hM := Addr.toNat_roundUp (by simpa using hok2)
  rw [hF] at hM
  generalize ((offset.addLength phdr.vaddr).1 - Addr.pageOffset phdr.vaddr) = addr at h hA
  generalize (Addr.roundUp (phdr.filesz + Addr.pageOffset phdr.vaddr)).1 = mapSize at h hM
  generalize phdr.filesz + Addr.pageOffset phdr.vaddr = fileSize at h hF
  generalize hS : phdr.memsz + Addr.pageOffset phdr.vaddr = memSize at h
  generalize Addr.pageOffset phdr.vaddr = adjust at h hadj hS
  obtain ⟨mm1, ⟨halign, hoff, hmem1⟩, hS', hanon⟩ : ∃ mm1,
      ((0 < mapSize.toNat → addr.toNat % 4096 = 0) ∧
        (0 < mapSize.toNat → adjust.toNat ≤ phdr.off.toNat) ∧ ∀ a, mm1.mem a =
          if 0 < mapSize.toNat ∧ addr.toNat ≤ a ∧ a < addr.toNat + fileSize.toNat then
            some (fileByte file (phdr.off.toNat - adjust.toNat + (a - addr.toNat)))
          else if 0 < mapSize.toNat ∧ addr.toNat + fileSize.toNat ≤ a ∧
            a < addr.toNat + mapSize.toNat then some (some 0)
          else mm.mem a) ∧
      ¬memSize < phdr.memsz ∧ mapAnonPages mm1 addr mapSize memSize = .ok mm' := by
    split at h
    · rename_i hpos
      obtain ⟨mm1, hm1, hrest⟩ := Outcome.bind_eq_ok.1 h
      split at hrest
      · cases hrest
      obtain ⟨halign, hoff, hmem⟩ := mapFilePages_eq_ok hm1 (by omega) (by rw [hM, hF])
      have hpos' : 0 < mapSize.toNat := UInt64.lt_iff_toNat_lt.1 hpos
      refine ⟨mm1, ⟨fun _ => halign, fun _ => hoff, fun a => ?_⟩, ‹_›, hrest⟩
      simpa only [hpos', true_and] using hmem a
    · rename_i hpos
      simp only [Outcome.pure_eq, Outcome.ok_bind] at h
      split at h
      · cases h
      have hpos' : ¬0 < mapSize.toNat := fun h' => hpos (UInt64.lt_iff_toNat_lt.2 h')
      exact ⟨mm, ⟨fun h' => absurd h' hpos', fun h' => absurd h' hpos', fun a => by simp [hpos']⟩,
        ‹_›, h⟩
  have hmemSize : memSize.toNat = phdr.memsz.toNat + phdr.vaddr.toNat % 4096 := by
    have := phdr.memsz.toNat_lt
    rw [← hS, UInt64.toNat_add, hadj]
    rw [← hS, UInt64.lt_iff_toNat_lt, UInt64.toNat_add, hadj] at hS'
    omega
  have hmemsz : 0 < phdr.memsz.toNat := by
    have h0 : phdr.memsz.toNat ≠ (0 : UInt64).toNat := fun h0 => hm (UInt64.toNat_inj.1 h0)
    simpa [Nat.pos_iff_ne_zero] using h0
  obtain ⟨hanonAlign, hmem'⟩ := mapAnonPages_eq_ok hanon (by rw [hM]; omega)
  have hAalign : addr.toNat % 4096 = 0 := by
    by_cases hpos : 0 < mapSize.toNat
    · exact halign hpos
    · have := hanonAlign (by omega)
      omega
  -- from here on only the arithmetic of the page layout matters
  clear h hanon hok hfs hok2 hP hS hS' hanonAlign halign
  have hvadj : phdr.vaddr.toNat % 4096 ≤ phdr.vaddr.toNat := Nat.mod_le _ _
  have hadjlt : phdr.vaddr.toNat % 4096 < 4096 := Nat.mod_lt _ (by norm_num)
  rw [hadj] at hoff hmem1
  generalize phdr.vaddr.toNat % 4096 = adj at *
  constructor
  · intro i hi
    rw [hmem', hmem1]
    unfold segmentByte
    by_cases hf : i < phdr.filesz.toNat
    · have hpos : 0 < mapSize.toNat := by omega
      have hidx : phdr.off.toNat - adj + (offset.toNat + phdr.vaddr.toNat + i - addr.toNat) =
          phdr.off.toNat + i := by
        have := hoff hpos
        omega
      rw [if_neg (by omega), if_pos ⟨hpos, by omega, by omega⟩, if_pos hf, hidx]
    · rw [if_neg hf]
      split_ifs <;> first | rfl | omega
  · intro a ha
    unfold segmentPages at ha
    rw [hmem', hmem1]
    split_ifs <;> first | rfl | omega

/-- A program header that the second loop of `loadParsedELF` maps. -/
def ProgHeader.Loadable (phdr : ProgHeader) : Prop := phdr.type = ptLoad ∧ phdr.memsz ≠ 0

theorem mapPhdr_of_loadable {file : List UInt8} {offset : Addr} {mm : MemoryManager}
    {phdr : ProgHeader} (h : phdr.Loadable) :
    mapPhdr file offset mm phdr = mapSegment mm file phdr offset :=
  if_pos h

theorem mapPhdr_of_not_loadable {file : List UInt8} {offset : Addr} {mm : MemoryManager}
    {phdr : ProgHeader} (h : ¬phdr.Loadable) : mapPhdr file offset mm phdr = .ok mm :=
  if_neg h

/-- The second loop leaves alone every address outside the pages of the
headers it maps. -/
theorem foldlM_mapPhdr_frame {file : List UInt8} {offset : Addr} {a : ℕ} :
    ∀ {l : List ProgHeader} {mm mm' : MemoryManager},
      l.foldlM (mapPhdr file offset) mm = .ok mm' →
      (∀ q ∈ l, q.Loadable → ¬segmentPages offset.toNat q a) → mm'.mem a = mm.mem a
  | [], _, _, h, _ => by cases h; rfl
  | q :: l, mm, mm', h, ha => by
    rw [List.foldlM_cons] at h
    obtain ⟨mm1, h1, h2⟩ := Outcome.bind_eq_ok.1 h
    have hstep : mm1.mem a = mm.mem a := by
      by_cases hq : q.Loadable
      · rw [mapPhdr_of_loadable hq] at h1
        exact (mapSegment_eq_ok h1 hq.2).2 a (ha q List.mem_cons_self hq)
      · rw [mapPhdr_of_not_loadable hq] at h1
        cases h1
        rfl
    rw [foldlM_mapPhdr_frame h2 fun q' hq' => ha q' (List.mem_cons_of_mem q hq'), hstep]

/-- A byte of a mapped segment stays as `mapSegment` left it unless a later
header maps its page again. -/
theorem foldlM_mapPhdr_segment {file : List UInt8} {offset : Addr} {mm mm' : MemoryManager}
    {pre post : List ProgHeader} {phdr : ProgHeader} {i : ℕ}
    (h : (pre ++ phdr :: post).foldlM (mapPhdr file offset) mm = .ok mm') (hl : phdr.Loadable)
    (hi : i < phdr.memsz.toNat)
    (hpost : ∀ q ∈ post, q.Loadable →
      ¬segmentPages offset.toNat q (offset.toNat + phdr.vaddr.toNat + i)) :
    mm'.mem (offset.toNat + phdr.vaddr.toNat + i) = segmentByte file phdr i := by
  rw [List.foldlM_append] at h
  obtain ⟨mm1, -, h⟩ := Outcome.bind_eq_ok.1 h
  rw [List.foldlM_cons] at h
  obtain ⟨mm2, h2, h3⟩ := Outcome.bind_eq_ok.1 h
  rw [mapPhdr_of_loadable hl] at h2
  rw [foldlM_mapPhdr_frame h3 hpost]
  exact (mapSegment_eq_ok h2 hl.2).1 i hi

/-- What the first loop of `loadParsedELF` knows of the headers it has read:
`start` is the first `PT_LOAD` address, and every `PT_LOAD` segment read so far
lies in `[start, end)`. -/
structure ScanInv (l : List ProgHeader) (s : Scan) : Prop where
  first : s.first = true → s.End = 0
  start_le_end : s.start.toNat ≤ s.End.toNat
  loaded : ∀ p ∈ l, p.type = ptLoad → s.first = false
  mem : ∀ p ∈ l, p.type = ptLoad →
    s.start.toNat ≤ p.vaddr.toNat ∧ p.vaddr.toNat + p.memsz.toNat ≤ s.End.toNat

theorem scanInv_nil : ScanInv [] ⟨true, 0, 0, []⟩ :=
  ⟨fun _ => rfl, Nat.le_refl _, by simp, by simp⟩

theorem scanPhdr_load {file : List UInt8} {s s' : Scan} {p : ProgHeader}
    (h : scanPhdr file s p = .ok s') (hl : p.type = ptLoad) :
    s'.first = false ∧ s'.start = (if s.first then p.vaddr else s.start) ∧
      s.End.toNat ≤ p.vaddr.toNat ∧ s'.End.toNat = p.vaddr.toNat + p.memsz.toNat := by
  unfold scanPhdr at h
  simp only [hl, if_true] at h
  split_ifs at h with hfirst hlt hok hlt hok
  · cases h
    have hend := Addr.toNat_addLength (by simpa using hok)
    simp only [hfirst, if_true] at hlt ⊢
    exact ⟨trivial, trivial, by simpa [UInt64.lt_iff_toNat_lt] using hlt, hend⟩
  · cases h
    have hend := Addr.toNat_addLength (by simpa using hok)
    simp only [hfirst, Bool.not_eq_true] at hfirst ⊢
    exact ⟨hfirst, rfl, by simpa [UInt64.lt_iff_toNat_lt] using hlt, hend⟩

theorem scanPhdr_not_load {file : List UInt8} {s s' : Scan} {p : ProgHeader}
    (h : scanPhdr file s p = .ok s') (hl : p.type ≠ ptLoad) :
    s'.first = s.first ∧ s'.start = s.start ∧ s'.End = s.End := by
  unfold scanPhdr at h
  simp only [hl, if_false] at h
  split_ifs at h
  · split at h
    · cases h
    · split_ifs at h
      cases h
      exact ⟨rfl, rfl, rfl⟩
  · cases h
    exact ⟨rfl, rfl, rfl⟩

theorem ScanInv.step {file : List UInt8} {l : List ProgHeader} {s s' : Scan} {p : ProgHeader}
    (hs : ScanInv l s) (h : scanPhdr file s p = .ok s') : ScanInv (l ++ [p]) s' := by
  by_cases hl : p.type = ptLoad
  · obtain ⟨hfirst, hstart, hend, hEnd⟩ := scanPhdr_load h hl
    -- the new `start` is the old one, or this segment's address if it is the first
    have hstart' : s'.start.toNat ≤ s.start.toNat ∧ s'.start.toNat ≤ p.vaddr.toNat ∨
        s.first = true ∧ s'.start = p.vaddr := by
      cases hf : s.first
      · rw [hf, if_neg Bool.false_ne_true] at hstart
        rw [hstart]
        exact .inl ⟨Nat.le_refl _, hs.start_le_end.trans hend⟩
      · rw [hf, if_pos rfl] at hstart
        exact .inr ⟨rfl, hstart⟩
    refine ⟨fun hf => absurd hf (by simp [hfirst]), ?_, fun _ _ _ => hfirst, fun q hq hql => ?_⟩
    · rcases hstart' with hstart' | ⟨-, hstart'⟩
      · omega
      · rw [hstart']
        omega
    rcases List.mem_append.1 hq with hq | hq
    · have hfalse := hs.loaded q hq hql
      rcases hstart' with hstart' | ⟨htrue, -⟩
      · have := hs.mem q hq hql
        omega
      · exact absurd htrue (by simp [hfalse])
    · rw [List.mem_singleton] at hq
      subst hq
      rcases hstart' with hstart' | ⟨-, hstart'⟩
      · omega
      · rw [hstart']
        omega
  · obtain ⟨hf, hst, hE⟩ := scanPhdr_not_load h hl
    refine ⟨hf ▸ hE ▸ hs.first, hst ▸ hE ▸ hs.start_le_end, fun q hq hql => ?_,
      fun q hq hql => ?_⟩
    · rcases List.mem_append.1 hq with hq | hq
      · exact hf ▸ hs.loaded q hq hql
      · exact absurd (List.mem_singleton.1 hq ▸ hql) hl
    · rcases List.mem_append.1 hq with hq | hq
      · exact hst ▸ hE ▸ hs.mem q hq hql
      · exact absurd (List.mem_singleton.1 hq ▸ hql) hl

/-- The first loop of `loadParsedELF`, when it returns, has found the range of
all `PT_LOAD` segments. -/
theorem scanInv_foldlM {file : List UInt8} {l : List ProgHeader} {s : Scan}
    (h : l.foldlM (scanPhdr file) ⟨true, 0, 0, []⟩ = .ok s) : ScanInv l s := by
  simpa using Outcome.foldlM_eq_ok_induction (fun _ _ _ _ hs hstep => ScanInv.step hs hstep)
    scanInv_nil h

theorem relocate_eq_some {mm mm' : MemoryManager} {start End entry base offset start' End' entry' : Addr}
    (h : relocate mm start End entry base = .ok (mm', some (offset, start', End', entry'))) :
    offset.toNat % 4096 = 0 ∧ start'.toNat = start.toNat + offset.toNat ∧
      End'.toNat = End.toNat + offset.toNat ∧ entry'.toNat = entry.toNat + offset.toNat := by
  unfold relocate at h
  simp only at h
  split_ifs at h with hok
  obtain ⟨⟨a, mm1⟩, hmmap, h⟩ := Outcome.bind_eq_ok.1 h
  obtain ⟨-, -, -, halign, -⟩ := MemoryManager.mmap_eq_ok hmmap
  simp only at h
  split at h
  · split_ifs at h with h1 h2 h3 <;> cases h
    exact ⟨halign, Addr.toNat_addLength (by simpa using h1), Addr.toNat_addLength (by simpa using h2),
      Addr.toNat_addLength (by simpa using h3)⟩
  · cases h

/-- `loadParsedELF` is its first loop, the relocation of a shared object, and
its second loop. -/
theorem loadParsedELF_eq_ok {mm mm' : MemoryManager} {file : List UInt8} {info : ElfInfo}
    {base : Addr} {le : LoadedELF} (h : loadParsedELF mm file info base = .ok (le, mm'))
    (hne : le ≠ LoadedELF.zero) :
    ∃ s offset mm1, info.phdrs.foldlM (scanPhdr file) ⟨true, 0, 0, []⟩ = .ok s ∧
      (info.sharedObject = false → offset = 0) ∧ offset.toNat % 4096 = 0 ∧
      le.start.toNat = s.start.toNat + offset.toNat ∧ le.End.toNat = s.End.toNat + offset.toNat ∧
      le.entry.toNat = info.entry.toNat + offset.toNat ∧
      info.phdrs.foldlM (mapPhdr file offset) mm1 = .ok mm' := by
  unfold loadParsedELF at h
  obtain ⟨s, hscan, h⟩ := Outcome.bind_eq_ok.1 h
  simp only at h
  split at h
  · rename_i hshared
    obtain ⟨⟨mm1, r⟩, hrel, h⟩ := Outcome.bind_eq_ok.1 h
    rcases r with _ | ⟨offset, start, End, entry⟩
    · cases h
      exact absurd rfl hne
    obtain ⟨mm2, hmap, h⟩ := Outcome.bind_eq_ok.1 h
    simp only [Outcome.pure_eq, Outcome.ok.injEq, Prod.mk.injEq] at h
    obtain ⟨rfl, rfl⟩ := h
    obtain ⟨halign, hstart, hend, hentry⟩ := relocate_eq_some hrel
    exact ⟨s, offset, mm1, hscan, fun h' => absurd h' (by simp [hshared]), halign, hstart, hend,
      hentry, hmap⟩
  · simp only [Outcome.pure_eq, Outcome.ok_bind] at h
    obtain ⟨mm2, hmap, h⟩ := Outcome.bind_eq_ok.1 h
    simp only [Outcome.ok.injEq, Prod.mk.injEq] at h
    obtain ⟨rfl, rfl⟩ := h
    exact ⟨s, 0, mm, hscan, fun _ => rfl, rfl, rfl, rfl, rfl, hmap⟩

theorem loadParsedELF_loads {mm mm' : MemoryManager} {file : List UInt8} {info : ElfInfo}
    {base : Addr} {le : LoadedELF} (hinfo : parseHeader file = .ok info)
    (h : loadParsedELF mm file info base = .ok (le, mm')) (hne : le ≠ LoadedELF.zero) :
    let hdr := Header64.unmarshal file
    info.phdrs = (List.range hdr.phnum.toNat).map (fun i =>
        ProgHeader.unmarshal (file.drop (hdr.phoff.toNat + i * prog64Size))) ∧
    ∃ offset : ℕ, offset % 4096 = 0 ∧ (hdr.type = etExec → offset = 0) ∧
      le.entry.toNat = hdr.entry.toNat + offset ∧ le.start.toNat ≤ le.End.toNat ∧
      (∀ p ∈ info.phdrs, p.type = ptLoad →
        le.start.toNat ≤ offset + p.vaddr.toNat ∧
          offset + p.vaddr.toNat + p.memsz.toNat ≤ le.End.toNat) ∧
      ∀ pre p post, info.phdrs = pre ++ p :: post → p.Loadable → ∀ i < p.memsz.toNat,
        (∀ q ∈ post, q.Loadable → ¬segmentPages offset q (offset + p.vaddr.toNat + i)) →
        mm'.mem (offset + p.vaddr.toNat + i) = segmentByte file p i := by
  obtain ⟨-, -, -, -, -, htype, -, -, -, -, hentry', -, -, hphdrs⟩ := parseHeader_eq_ok hinfo
  obtain ⟨s, offset, mm1, hscan, hexec, halign, hstart, hend, hentry, hmap⟩ :=
    loadParsedELF_eq_ok h hne
  have hinv := scanInv_foldlM hscan
  refine ⟨hphdrs, offset.toNat, halign, fun hex => ?_, by rw [hentry, hentry'], by
    rw [hstart, hend]
    have := hinv.start_le_end
    omega, fun p hp hpl => ?_, fun pre p post hsplit hl i hi hpost => ?_⟩
  · have hso : info.sharedObject = false := by
      rcases htype with ⟨-, hso⟩ | ⟨hdyn, -⟩
      · exact hso
      · exact absurd (hex.symm.trans hdyn) (by decide)
    rw [hexec hso]
    rfl
  · have := hinv.mem p hp hpl
    omega
  · rw [hsplit] at hmap
    exact foldlM_mapPhdr_segment hmap hl hi hpost

set_option maxRecDepth 20000 in
theorem loadParsedELF_loads_exec :
    let file := elfImage etExec emX86_64 0x400000 [⟨ptLoad, 0, 0x400000, 0, 0x1000⟩] []
    let info : ElfInfo := ⟨.amd64, 0x400000, [⟨ptLoad, 0, 0x400000, 0, 0x1000⟩], 56, 64, false⟩
    let mm := MemoryManager.empty 0x10000 0x800000000000 (by norm_num)
    let le : LoadedELF := ⟨.amd64, 0x400000, 0x400000, 0x401000, [], 0x400040, 56, 1⟩
    let mm' : MemoryManager :=
      { mm with mem := mm.mem.update 0x400000 0x1000 fun _ => some (some 0) }
    parseHeader file = .ok info ∧ loadParsedELF mm file info 0 = .ok (le, mm') ∧
      le ≠ LoadedELF.zero ∧
      let hdr := Header64.unmarshal file
      info.phdrs = (List.range hdr.phnum.toNat).map (fun i =>
          ProgHeader.unmarshal (file.drop (hdr.phoff.toNat + i * prog64Size))) ∧
      ∃ offset : ℕ, offset % 4096 = 0 ∧ (hdr.type = etExec → offset = 0) ∧
        le.entry.toNat = hdr.entry.toNat + offset ∧ le.start.toNat ≤ le.End.toNat ∧
        (∀ p ∈ info.phdrs, p.type = ptLoad →
          le.start.toNat ≤ offset + p.vaddr.toNat ∧
            offset + p.vaddr.toNat + p.memsz.toNat ≤ le.End.toNat) ∧
        ∀ pre p post, info.phdrs = pre ++ p :: post → p.Loadable → ∀ i < p.memsz.toNat,
          (∀ q ∈ post, q.Loadable → ¬segmentPages offset q (offset + p.vaddr.toNat + i)) →
          mm'.mem (offset + p.vaddr.toNat + i) = segmentByte file p i := by
  intro file info mm le mm'
  have hinfo : parseHeader file = .ok info :=
    parseHeader_elfImage [] (.inl rfl) (.inl rfl) (by decide) (by decide)
  have hload : loadParsedELF mm file info 0 = .ok (le, mm') := rfl
  have hne : le ≠ LoadedELF.zero := by decide
  exact ⟨hinfo, hload, hne, loadParsedELF_loads hinfo hload hne⟩

set_option maxRecDepth 20000 in
/-- A shared object whose one segment starts at `0x1000`: the loader reserves
one page at `0x100000`, the size of `end - start`, leaves it unmapped, and maps
the segment at `0x101000`, past the reservation. -/
theorem loadParsedELF_segment_outside_reservation :
    let file := elfImage etDyn emX86_64 0x1000 [⟨ptLoad, 0, 0x1000, 0, 0x1000⟩] []
    let info : ElfInfo := ⟨.amd64, 0x1000, [⟨ptLoad, 0, 0x1000, 0, 0x1000⟩], 56, 64, true⟩
    let mm := MemoryManager.empty 0x10000 0x800000000000 (by norm_num)
    parseHeader file = .ok info ∧ Addr.roundUp (0x2000 - 0x1000) = (0x1000, true) ∧
      (fun r : MemoryManager × Option (Addr × Addr × Addr × Addr) => r.2.map (·.1)) <$>
          relocate mm 0x1000 0x2000 0x1000 0x100000 = .ok (some 0x100000) ∧
      (fun r : LoadedELF × MemoryManager => (r.1.start, r.2.mem 0x101000, r.2.mem 0x100000)) <$>
          loadParsedELF mm file info 0x100000 = .ok (0x101000, some (some 0), none) := by
  intro file info mm
  exact ⟨parseHeader_elfImage [] (.inl rfl) (.inr rfl) (by decide) (by decide), by decide +kernel,
    by decide +kernel, by decide +kernel⟩

set_option maxRecDepth 20000 in
/-- Two shared objects that `parseHeader` accepts, loaded at `0x100000`. In the first the
entry point plus the load offset wraps around: the loader returns `loadedELF{}`, and with
it the `err` of its `sharedObject` block, which is nil. In the second the first `PT_LOAD`
segment lies at the top of the address space, and `start` plus the load offset wraps:
the loader panics. -/
theorem loadParsedELF_relocation_wraps :
    parseHeader (elfImage etDyn emX86_64 0xfffffffffffff000 [⟨ptLoad, 0, 0, 0, 0x1000⟩] []) =
        .ok ⟨.amd64, 0xfffffffffffff000, [⟨ptLoad, 0, 0, 0, 0x1000⟩], 56, 64, true⟩ ∧
      (·.1) <$> loadParsedELF (MemoryManager.empty 0x10000 0x800000000000 (by norm_num))
          (elfImage etDyn emX86_64 0xfffffffffffff000 [⟨ptLoad, 0, 0, 0, 0x1000⟩] [])
          ⟨.amd64, 0xfffffffffffff000, [⟨ptLoad, 0, 0, 0, 0x1000⟩], 56, 64, true⟩ 0x100000 =
        .ok LoadedELF.zero ∧
      parseHeader (elfImage etDyn emX86_64 0 [⟨ptLoad, 0, 0xffffffffffffe000, 0, 0x1000⟩] []) =
        .ok ⟨.amd64, 0, [⟨ptLoad, 0, 0xffffffffffffe000, 0, 0x1000⟩], 56, 64, true⟩ ∧
      (·.1) <$> loadParsedELF (MemoryManager.empty 0x10000 0x800000000000 (by norm_num))
          (elfImage etDyn emX86_64 0 [⟨ptLoad, 0, 0xffffffffffffe000, 0, 0x1000⟩] [])
          ⟨.amd64, 0, [⟨ptLoad, 0, 0xffffffffffffe000, 0, 0x1000⟩], 56, 64, true⟩ 0x100000 =
        .panic :=
  ⟨parseHeader_elfImage [] (.inl rfl) (.inr rfl) (by decide) (by decide), by decide +kernel,
    parseHeader_elfImage [] (.inl rfl) (.inr rfl) (by decide) (by decide), by decide +kernel⟩

end Loader
