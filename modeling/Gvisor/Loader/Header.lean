import Gvisor.Loader.Elf
import Gvisor.Lib.MachineInt

/-! The ELF header as `parseHeader` reads it: what it accepts is a 64-bit
little-endian ELF of a known machine and type, whose program headers are the
`Phnum` entries of 56 bytes at `Phoff`; and the bytes of such a header, as
`elfImage` lays them out, are accepted and read back. -/

namespace Loader

open Syserror Usermem

theorem leNat_congr {b b' : List UInt8} :
    ∀ {off off' n : ℕ}, (∀ j < n, b.getD (off + j) 0 = b'.getD (off' + j) 0) →
      leNat b off n = leNat b' off' n
  | _, _, 0, _ => rfl
  | off, off', n + 1, h => by
    have h0 := h 0 (Nat.succ_pos n)
    rw [Nat.add_zero, Nat.add_zero] at h0
    have hrest : leNat b (off + 1) n = leNat b' (off' + 1) n :=
      leNat_congr fun j hj => by
        have := h (j + 1) (by omega)
        rwa [show off + (j + 1) = off + 1 + j by omega,
          show off' + (j + 1) = off' + 1 + j by omega] at this
    rw [leNat, leNat, ← h0, hrest]

theorem getD_take_of_lt {l : List UInt8} {n j : ℕ} (h : j < n) : (l.take n).getD j 0 = l.getD j 0 := by
  simp [List.getD_eq_getElem?_getD, h]

theorem getD_drop (l : List UInt8) (d j : ℕ) : (l.drop d).getD j 0 = l.getD (d + j) 0 := by
  simp [List.getD_eq_getElem?_getD, List.getElem?_drop]

theorem Header64.unmarshal_take {b : List UInt8} {n : ℕ} (hn : 64 ≤ n) :
    Header64.unmarshal (b.take n) = Header64.unmarshal b := by
  have hc : ∀ off k, off + k ≤ 64 → leNat (b.take n) off k = leNat b off k := fun off k hk =>
    leNat_congr fun j hj => getD_take_of_lt (by omega)
  simp only [Header64.unmarshal, hc 16 2 (by norm_num), hc 18 2 (by norm_num), hc 24 8 (by norm_num),
    hc 32 8 (by norm_num), hc 54 2 (by norm_num), hc 56 2 (by norm_num)]

theorem ProgHeader.unmarshal_take_drop {b : List UInt8} {n d : ℕ} (hn : d + 48 ≤ n) :
    ProgHeader.unmarshal ((b.take n).drop d) = ProgHeader.unmarshal (b.drop d) := by
  have hc : ∀ off k, off + k ≤ 48 → leNat ((b.take n).drop d) off k = leNat (b.drop d) off k :=
    fun off k hk => leNat_congr fun j hj => by
      rw [getD_drop, getD_drop, getD_take_of_lt (by omega)]
  simp only [ProgHeader.unmarshal, hc 0 4 (by norm_num), hc 8 8 (by norm_num),
    hc 16 8 (by norm_num), hc 32 8 (by norm_num), hc 40 8 (by norm_num)]

theorem readFull_eq_ok {file got : List UInt8} {n : ℕ} {offset : ℤ}
    (h : readFull file n offset = .ok got) (hn : 0 < n) :
    0 ≤ offset ∧ offset.toNat + n ≤ file.length ∧ got = (file.drop offset.toNat).take n := by
  unfold readFull at h
  simp only at h
  split_ifs at h with h0 hneg hlen
  · omega
  cases h
  simp only [List.length_take, List.length_drop] at hlen
  exact ⟨by omega, by omega, rfl⟩

/-- What `parseHeader` accepts: the ident of a 64-bit little-endian ELF, a
header of a known machine and type, and one to 73 program headers, which it
reads from `Phoff` on. -/
theorem parseHeader_eq_ok {file : List UInt8} {info : ElfInfo} (h : parseHeader file = .ok info) :
    let hdr := Header64.unmarshal file
    file.take 4 = elfMagic ∧ file.getD eiClass 0 = elfClass64 ∧
      file.getD eiData 0 = elfData2LSB ∧ file.getD eiVersion 0 = evCurrent ∧
      (hdr.machine = emX86_64 ∧ info.arch = .amd64 ∨ hdr.machine = emAArch64 ∧ info.arch = .arm64) ∧
      (hdr.type = etExec ∧ info.sharedObject = false ∨ hdr.type = etDyn ∧ info.sharedObject = true) ∧
      hdr.phentsize.toNat = prog64Size ∧ 0 < hdr.phnum.toNat ∧
      prog64Size * hdr.phnum.toNat ≤ maxTotalPhdrSize ∧
      hdr.phoff.toNat + prog64Size * hdr.phnum.toNat ≤ file.length ∧
      info.entry = hdr.entry ∧ info.phdrOff = hdr.phoff ∧ info.phdrSize = prog64Size ∧
      info.phdrs = (List.range hdr.phnum.toNat).map fun i =>
        ProgHeader.unmarshal (file.drop (hdr.phoff.toNat + i * prog64Size)) := by
  unfold parseHeader at h
  split at h
  · cases h
  rename_i ident hident
  obtain ⟨-, hlen16, rfl⟩ := readFull_eq_ok hident (by norm_num)
  split_ifs at h with hmag hcls hdata hver
  split at h
  · cases h
  rename_i hdrBuf hhdr
  obtain ⟨-, hlen64, rfl⟩ := readFull_eq_ok hhdr (by norm_num [header64Size])
  simp only [Int.toNat_zero, List.drop_zero, header64Size, Header64.unmarshal_take (Nat.le_refl 64)]
    at h hmag hcls hdata hver
  simp only [List.take_take, ne_eq, not_not] at hmag hcls hdata hver
  dsimp only
  split at h
  · cases h
  · cases h
  rename_i a so harch hso
  split_ifs at h with hent hlo hhi
  split at h
  · cases h
  rename_i phdrBuf hphdr
  cases h
  obtain ⟨hoff, hlen, rfl⟩ := readFull_eq_ok hphdr (by unfold prog64Size at hlo ⊢; omega)
  have hphoff : (Header64.unmarshal file).phoff.toInt64.toInt.toNat = (Header64.unmarshal file).phoff.toNat := by
    have := (Header64.unmarshal file).phoff.toNat_lt
    rw [UInt64.toInt_toInt64] at hoff ⊢
    split_ifs at hoff ⊢ <;> omega
  rw [hphoff] at hlen
  have hident : ∀ j < 16, (List.take 16 file).getD j 0 = file.getD j 0 := fun j hj => getD_take_of_lt hj
  refine ⟨by simpa using hmag, (hident _ (by decide)).symm.trans hcls,
    (hident _ (by decide)).symm.trans hdata, (hident _ (by decide)).symm.trans hver, ?_, ?_,
    not_not.1 hent, by unfold prog64Size at hlo; omega, not_lt.1 hhi, hlen, rfl, rfl, rfl, ?_⟩
  · split_ifs at harch with hm1 hm2 <;> cases harch
    · exact .inl ⟨hm1, rfl⟩
    · exact .inr ⟨hm2, rfl⟩
  · split_ifs at hso with ht1 ht2 <;> cases hso
    · exact .inl ⟨ht1, rfl⟩
    · exact .inr ⟨ht2, rfl⟩
  · refine List.map_congr_left fun i hi => ?_
    rw [List.mem_range] at hi
    rw [hphoff, ProgHeader.unmarshal_take_drop (by unfold prog64Size; omega),
      List.drop_drop]

theorem leNat_append_of_le {xs ys : List UInt8} {off n : ℕ} (h : xs.length ≤ off) :
    leNat (xs ++ ys) off n = leNat ys (off - xs.length) n :=
  leNat_congr fun j _ => by
    rw [List.getD_append_right _ _ _ _ (by omega)]
    congr 1
    omega

theorem leNat_append_of_lt {xs ys : List UInt8} {off n : ℕ} (h : off + n ≤ xs.length) :
    leNat (xs ++ ys) off n = leNat xs off n :=
  leNat_congr fun j hj => List.getD_append _ _ _ _ (by omega)

/-- The `n` bytes of `k`, least significant first. -/
def leBytes : ℕ → ℕ → List UInt8
  | 0, _ => []
  | n + 1, k => UInt8.ofNat k :: leBytes n (k / 256)

@[simp] theorem length_leBytes : ∀ n k, (leBytes n k).length = n
  | 0, _ => rfl
  | n + 1, k => by rw [leBytes, List.length_cons, length_leBytes n]

theorem leNat_leBytes : ∀ {n k : ℕ}, k < 256 ^ n → leNat (leBytes n k) 0 n = k
  | 0, k, h => by simp at h; simp [leNat, h]
  | n + 1, k, h => by
    have hrest : leNat (leBytes (n + 1) k) 1 n = leNat (leBytes n (k / 256)) 0 n :=
      leNat_congr fun j _ => by
        rw [leBytes, show 1 + j = j + 1 by omega, Nat.zero_add]
        rfl
    have hk : k / 256 < 256 ^ n := by
      rw [Nat.div_lt_iff_lt_mul (by norm_num), ← pow_succ]
      exact h
    rw [leNat, hrest, leNat_leBytes hk]
    simp only [leBytes, List.getD_cons_zero, UInt8.toNat_ofNat']
    omega

/-- The ident of a 64-bit little-endian ELF of the current version. -/
def elfIdent : List UInt8 := elfMagic ++ [elfClass64, elfData2LSB, evCurrent] ++ List.replicate 9 0

/-- The bytes of an `elf.Header64` with `phnum` program headers right after it,
and no section headers. -/
def Header64.marshal (type machine : UInt16) (entry : UInt64) (phnum : ℕ) : List UInt8 :=
  elfIdent ++ leBytes 2 type.toNat ++ leBytes 2 machine.toNat ++ leBytes 4 1 ++
    leBytes 8 entry.toNat ++ leBytes 8 64 ++ leBytes 8 0 ++ leBytes 4 0 ++ leBytes 2 64 ++
    leBytes 2 56 ++ leBytes 2 phnum ++ leBytes 6 0

/-- The bytes of an `elf.Prog64`, with no flags, physical address or alignment. -/
def ProgHeader.marshal (p : ProgHeader) : List UInt8 :=
  leBytes 4 p.type.toNat ++ leBytes 4 0 ++ leBytes 8 p.off.toNat ++ leBytes 8 p.vaddr.toNat ++
    leBytes 8 0 ++ leBytes 8 p.filesz.toNat ++ leBytes 8 p.memsz.toNat ++ leBytes 8 0

/-- An ELF file: its header, its program headers, then `body`. -/
def elfImage (type machine : UInt16) (entry : UInt64) (phdrs : List ProgHeader)
    (body : List UInt8) : List UInt8 :=
  Header64.marshal type machine entry phdrs.length ++ (phdrs.map ProgHeader.marshal).flatten ++ body

@[simp] theorem length_elfIdent : elfIdent.length = 16 := rfl

@[simp] theorem length_marshal (type machine : UInt16) (entry : UInt64) (phnum : ℕ) :
    (Header64.marshal type machine entry phnum).length = 64 := by
  simp [Header64.marshal, elfIdent, elfMagic]

@[simp] theorem ProgHeader.length_marshal (p : ProgHeader) : p.marshal.length = 56 := by
  simp [ProgHeader.marshal]

theorem Header64.unmarshal_marshal (type machine : UInt16) (entry : UInt64) {phnum : ℕ}
    (hn : phnum < 2 ^ 16) (rest : List UInt8) :
    Header64.unmarshal (Header64.marshal type machine entry phnum ++ rest) =
      ⟨type, machine, entry, 64, 56, UInt16.ofNat phnum⟩ := by
  have := type.toNat_lt
  have := machine.toNat_lt
  have := entry.toNat_lt
  simp (disch := simp) only [Header64.unmarshal, Header64.marshal, leNat_append_of_le,
    leNat_append_of_lt, List.length_append, length_leBytes, length_elfIdent]
  rw [leNat_append_of_le (Nat.le_of_eq length_elfIdent)]
  simp (disch := omega) only [length_elfIdent, Nat.reduceAdd, Nat.sub_self, leNat_leBytes,
    UInt16.ofNat_toNat, UInt64.ofNat_toNat]
  rfl

theorem ProgHeader.unmarshal_marshal (p : ProgHeader) (rest : List UInt8) :
    ProgHeader.unmarshal (p.marshal ++ rest) = p := by
  have := p.type.toNat_lt
  have := p.off.toNat_lt
  have := p.vaddr.toNat_lt
  have := p.filesz.toNat_lt
  have := p.memsz.toNat_lt
  simp (disch := simp) only [ProgHeader.unmarshal, ProgHeader.marshal, leNat_append_of_le,
    leNat_append_of_lt, List.length_append, length_leBytes]
  simp (disch := omega) only [Nat.reduceAdd, Nat.sub_self, leNat_leBytes, UInt32.ofNat_toNat,
    UInt64.ofNat_toNat]

/-- The program headers of an image, from the `i`-th on. -/
theorem drop_flatten_marshal :
    ∀ {l : List ProgHeader} {i : ℕ} (h : i < l.length),
      ((l.map ProgHeader.marshal).flatten).drop (i * 56) =
        l[i].marshal ++ (((l.drop (i + 1)).map ProgHeader.marshal).flatten)
  | p :: l, 0, _ => by simp
  | p :: l, i + 1, h => by
    have hi : i < l.length := by simpa using h
    rw [List.map_cons, List.flatten_cons, show (i + 1) * 56 = 56 + i * 56 by omega,
      ← List.drop_drop, List.drop_left' (ProgHeader.length_marshal p), drop_flatten_marshal hi]
    rfl

@[simp] theorem length_flatten_marshal :
    ∀ l : List ProgHeader, ((l.map ProgHeader.marshal).flatten).length = prog64Size * l.length
  | [] => rfl
  | p :: l => by
    rw [List.map_cons, List.flatten_cons, List.length_append, length_flatten_marshal l,
      ProgHeader.length_marshal, List.length_cons, prog64Size]
    omega

theorem readFull_of_le {file : List UInt8} {n : ℕ} {offset : ℤ} (hn : 0 < n) (h0 : 0 ≤ offset)
    (hlen : offset.toNat + n ≤ file.length) :
    readFull file n offset = .ok ((file.drop offset.toNat).take n) := by
  unfold readFull
  simp only [List.length_take, List.length_drop]
  rw [if_neg (by omega), if_neg (by omega), if_pos (by omega)]

theorem map_unmarshal_flatten (l : List ProgHeader) :
    (List.range l.length).map (fun i =>
      ProgHeader.unmarshal (((l.map ProgHeader.marshal).flatten).drop (i * prog64Size))) = l := by
  refine List.ext_getElem (by simp) fun i h₁ h₂ => ?_
  rw [List.getElem_map, List.getElem_range, prog64Size, drop_flatten_marshal h₂,
    ProgHeader.unmarshal_marshal]

/-- `parseHeader` reads back the header and the program headers of an ELF image
of a known machine and type with one to 73 program headers. -/
theorem parseHeader_elfImage {type machine : UInt16} {entry : UInt64} {phdrs : List ProgHeader}
    (body : List UInt8) (hm : machine = emX86_64 ∨ machine = emAArch64)
    (ht : type = etExec ∨ type = etDyn) (hn : 0 < phdrs.length)
    (hmax : prog64Size * phdrs.length ≤ maxTotalPhdrSize) :
    parseHeader (elfImage type machine entry phdrs body) =
      .ok ⟨if machine = emX86_64 then .amd64 else .arm64, entry, phdrs, prog64Size, 64,
        type = etDyn⟩ := by
  have hn16 : phdrs.length < 2 ^ 16 := by unfold prog64Size maxTotalPhdrSize at hmax; omega
  have himage : elfImage type machine entry phdrs body =
      Header64.marshal type machine entry phdrs.length ++
        ((phdrs.map ProgHeader.marshal).flatten ++ body) := by
    rw [elfImage, List.append_assoc]
  have hident : (elfImage type machine entry phdrs body).take 16 = elfIdent := by
    rw [himage, List.take_append_of_le_length (by simp), Header64.marshal]
    simp only [List.append_assoc]
    exact List.take_left' length_elfIdent
  have hheader : (elfImage type machine entry phdrs body).take 64 =
      Header64.marshal type machine entry phdrs.length := by
    rw [himage, List.take_left' (length_marshal _ _ _ _)]
  have hphdrs : ((elfImage type machine entry phdrs body).drop 64).take (prog64Size * phdrs.length) =
      (phdrs.map ProgHeader.marshal).flatten := by
    rw [himage, List.drop_left' (length_marshal _ _ _ _),
      List.take_left' (length_flatten_marshal phdrs)]
  have hlen : 64 + prog64Size * phdrs.length ≤ (elfImage type machine entry phdrs body).length := by
    simp only [himage, List.length_append, length_marshal, length_flatten_marshal]
    omega
  unfold parseHeader
  rw [readFull_of_le (by norm_num) le_rfl (by simp; omega)]
  simp only [Int.toNat_zero, List.drop_zero, hident]
  rw [if_neg (by decide), if_neg (by decide), if_neg (by decide), if_neg (by decide),
    readFull_of_le (by norm_num [header64Size]) le_rfl (by simp [header64Size]; omega)]
  simp only [Int.toNat_zero, List.drop_zero, header64Size, hheader]
  rw [← List.append_nil (Header64.marshal _ _ _ _), Header64.unmarshal_marshal _ _ _ hn16]
  have hphnum : (UInt16.ofNat phdrs.length).toNat = phdrs.length := by
    rw [UInt16.toNat_ofNat']
    omega
  have hphoff : ((64 : UInt64).toInt64.toInt) = ((64 : ℕ) : ℤ) := by decide
  simp only [hphnum, hphoff]
  have hread : readFull (elfImage type machine entry phdrs body) (prog64Size * phdrs.length)
      ((64 : ℕ) : ℤ) = .ok ((phdrs.map ProgHeader.marshal).flatten) := by
    rw [readFull_of_le (by unfold prog64Size; omega) (by norm_num) (by simpa using hlen),
      Int.toNat_natCast, hphdrs]
  have hsize : ¬UInt16.toNat 56 ≠ prog64Size := by decide
  have hlo : ¬prog64Size * phdrs.length < prog64Size := by unfold prog64Size; omega
  have hhi : ¬prog64Size * phdrs.length > maxTotalPhdrSize := by omega
  have hx : emAArch64 ≠ emX86_64 := by decide
  have hd : etDyn ≠ etExec := by decide
  rcases hm with rfl | rfl <;> rcases ht with rfl | rfl <;>
    simp only [hx, hd, ↓reduceIte, hsize, hlo, hhi, hread, map_unmarshal_flatten] <;> rfl

end Loader
