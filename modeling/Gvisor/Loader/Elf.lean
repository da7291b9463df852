import Gvisor.Mm.Memory

/-! The ELF loader (pkg/sentry/loader/elf.go): `parseHeader` over the bytes of
the file, `loadParsedELF` with its two loops over the program headers, and
`mapSegment`. Files are regular files holding a list of bytes; `readFull`
reads them as `Preadv` does. Permissions of the mappings, the file's
`ConfigureMMap` and the reference counts of mapping identities are not
modelled; `EI_OSABI` is ignored, as by the loader, so every ELF is for Linux. -/

namespace Loader

open Syserror Usermem Mm

def elfMagic : List UInt8 := [0x7f, 0x45, 0x4c, 0x46]

/-- `binary.Size(elf.Header64{})`. -/
def header64Size : ℕ := 64

/-- `binary.Size(elf.Prog64{})`. -/
def prog64Size : ℕ := 56

/-- `maxTotalPhdrSize`, one page. -/
def maxTotalPhdrSize : ℕ := 4096

/-- `linux.PATH_MAX`. -/
def pathMax : UInt64 := 4096

/-- `elf.EI_CLASS`, `elf.EI_DATA` and `elf.EI_VERSION`, indices into the ident. -/
def eiClass : ℕ := 4
def eiData : ℕ := 5
def eiVersion : ℕ := 6

/-- `elf.ELFCLASS64`, `elf.ELFDATA2LSB` and `elf.EV_CURRENT`. -/
def elfClass64 : UInt8 := 2
def elfData2LSB : UInt8 := 1
def evCurrent : UInt8 := 1

/-- `elf.EM_X86_64` and `elf.EM_AARCH64`. -/
def emX86_64 : UInt16 := 62
def emAArch64 : UInt16 := 183

/-- `elf.ET_EXEC` and `elf.ET_DYN`. -/
def etExec : UInt16 := 2
def etDyn : UInt16 := 3

/-- `elf.PT_LOAD` and `elf.PT_INTERP`. -/
def ptLoad : UInt32 := 1
def ptInterp : UInt32 := 3

/-- `arch.Arch`; `AMD64` is its zero value. -/
inductive Arch where
  | amd64
  | arm64
  deriving DecidableEq, Repr

/-- The number of `n` bytes of `b` from `off` on, little-endian. -/
def leNat (b : List UInt8) (off : ℕ) : ℕ → ℕ
  | 0 => 0
  | n + 1 => (b.getD off 0).toNat + 256 * leNat b (off + 1) n

/-- The fields of `elf.Header64` that the loader reads. -/
structure Header64 where
  type : UInt16
  machine : UInt16
  entry : UInt64
  phoff : UInt64
  phentsize : UInt16
  phnum : UInt16
  deriving DecidableEq, Repr

/-- `binary.Unmarshal` of an `elf.Header64`, little-endian. -/
def Header64.unmarshal (b : List UInt8) : Header64 where
  type := UInt16.ofNat (leNat b 16 2)
  machine := UInt16.ofNat (leNat b 18 2)
  entry := UInt64.ofNat (leNat b 24 8)
  phoff := UInt64.ofNat (leNat b 32 8)
  phentsize := UInt16.ofNat (leNat b 54 2)
  phnum := UInt16.ofNat (leNat b 56 2)

/-- The fields of `elf.ProgHeader` that the loader reads. -/
structure ProgHeader where
  type : UInt32
  off : UInt64
  vaddr : UInt64
  filesz : UInt64
  memsz : UInt64
  deriving DecidableEq, Repr

/-- `binary.Unmarshal` of an `elf.Prog64`, little-endian. -/
def ProgHeader.unmarshal (b : List UInt8) : ProgHeader where
  type := UInt32.ofNat (leNat b 0 4)
  off := UInt64.ofNat (leNat b 8 8)
  vaddr := UInt64.ofNat (leNat b 16 8)
  filesz := UInt64.ofNat (leNat b 32 8)
  memsz := UInt64.ofNat (leNat b 40 8)

/-- `elfInfo`. -/
structure ElfInfo where
  arch : Arch
  entry : Addr
  phdrs : List ProgHeader
  phdrSize : ℕ
  phdrOff : UInt64
  sharedObject : Bool
  deriving DecidableEq, Repr

/-- `loadedELF`. -/
structure LoadedELF where
  arch : Arch
  entry : Addr
  start : Addr
  End : Addr
  interpreter : List UInt8
  phdrAddr : Addr
  phdrSize : ℕ
  phdrNum : ℕ
  deriving DecidableEq, Repr

/-- `loadedELF{}`. -/
def LoadedELF.zero : LoadedELF := ⟨.amd64, 0, 0, 0, [], 0, 0, 0⟩

/-- How `readFull` fails: `io.EOF` if nothing was read, `io.ErrUnexpectedEOF`
if part of the bytes were, or the error of the read. -/
inductive ReadError where
  | eof
  | unexpectedEOF
  | errno (e : Errno)
  deriving DecidableEq, Repr

/-- The error `parseHeader` returns for a failed read: short reads are
`ENOEXEC`. -/
def ReadError.toErrno : ReadError → Errno
  | .eof => .ENOEXEC
  | .unexpectedEOF => .ENOEXEC
  | .errno e => e

/-- `readFull` of `n` bytes at `offset`; a read of a regular file at a
negative offset fails with `EINVAL`. -/
def readFull (file : List UInt8) (n : ℕ) (offset : Int) : Except ReadError (List UInt8) :=
  if n = 0 then .ok []
  else if offset < 0 then .error (.errno .EINVAL)
  else
    let got := (file.drop offset.toNat).take n
    if got.length = n then .ok got
    else if got.length = 0 then .error .eof
    else .error .unexpectedEOF

/-- `parseHeader`. -/
def parseHeader (file : List UInt8) : Outcome Errno ElfInfo :=
  match readFull file 16 0 with
  | .error e => .error e.toErrno
  | .ok ident =>
    if ident.take 4 ≠ elfMagic then .error .ENOEXEC
    else if ident.getD eiClass 0 ≠ elfClass64 then .error .ENOEXEC
    else if ident.getD eiData 0 ≠ elfData2LSB then .error .ENOEXEC
    else if ident.getD eiVersion 0 ≠ evCurrent then .error .ENOEXEC
    else
      match readFull file header64Size 0 with
      | .error e => .error e.toErrno
      | .ok hdrBuf =>
        let hdr := Header64.unmarshal hdrBuf
        let arch? : Option Arch :=
          if hdr.machine = emX86_64 then some .amd64
          else if hdr.machine = emAArch64 then some .arm64 else none
        let sharedObject? : Option Bool :=
          if hdr.type = etExec then some false
          else if hdr.type = etDyn then some true else none
        match arch?, sharedObject? with
        | none, _ => .error .ENOEXEC
        | some _, none => .error .ENOEXEC
        | some a, some sharedObject =>
          if hdr.phentsize.toNat ≠ prog64Size then .error .ENOEXEC
          else
            let totalPhdrSize := prog64Size * hdr.phnum.toNat
            if totalPhdrSize < prog64Size then .error .ENOEXEC
            else if totalPhdrSize > maxTotalPhdrSize then .error .ENOEXEC
            else
              match readFull file totalPhdrSize hdr.phoff.toInt64.toInt with
              | .error e => .error e.toErrno
              | .ok phdrBuf =>
                let phdrs := (List.range hdr.phnum.toNat).map fun i =>
                  ProgHeader.unmarshal (phdrBuf.drop (i * prog64Size))
                .ok ⟨a, hdr.entry, phdrs, prog64Size, hdr.phoff, sharedObject⟩

/-- The file mapping of `mapSegment`, for a non-empty `mapSize`: the pages of
the file at `addr`, and zeroes over the end of the last one past `fileSize`. -/
def mapFilePages (mm : MemoryManager) (file : List UInt8) (phdr : ProgHeader)
    (addr : Addr) (adjust fileSize mapSize : UInt64) : Outcome Errno MemoryManager := do
  let fileOffset := phdr.off - adjust
  let (_, mm) ← mm.mmap ⟨mapSize, fileOffset, addr, true, true, some file⟩
  if mapSize > fileSize then
    let (zeroAddr, ok) := Addr.addLength addr fileSize
    if !ok then .panic
    else
      let zeroSize := mapSize - fileSize
      if zeroSize.toInt64 < 0 then .panic
      else mm.zeroOut zeroAddr zeroSize.toNat
  else pure mm

/-- The anonymous mapping of `mapSegment`, past the file pages, up to `memSize`. -/
def mapAnonPages (mm : MemoryManager) (addr : Addr) (mapSize memSize : UInt64) :
    Outcome Errno MemoryManager :=
  if mapSize < memSize then
    let (anonAddr, ok) := Addr.addLength addr mapSize
    if !ok then .panic
    else
      let (anonSize, ok) := Addr.roundUp (memSize - mapSize)
      if !ok then .error .ENOEXEC
      else do
        let (_, mm) ← mm.mmap ⟨anonSize, 0, anonAddr, true, false, none⟩
        pure mm
  else pure mm

/-- `mapSegment`. -/
def mapSegment (mm : MemoryManager) (file : List UInt8) (phdr : ProgHeader) (offset : Addr) :
    Outcome Errno MemoryManager :=
  let adjust := Addr.pageOffset phdr.vaddr
  let (addr, ok) := Addr.addLength offset phdr.vaddr
  if !ok then .error .ENOEXEC
  else
    let addr := addr - adjust
    let fileSize := phdr.filesz + adjust
    if fileSize < phdr.filesz then .error .ENOEXEC
    else
      let (mapSize, ok) := Addr.roundUp fileSize
      if !ok then .error .ENOEXEC
      else do
        let mm ← if mapSize > 0 then mapFilePages mm file phdr addr adjust fileSize mapSize
          else pure mm
        let memSize := phdr.memsz + adjust
        if memSize < phdr.memsz then .error .ENOEXEC
        else mapAnonPages mm addr mapSize memSize

/-- What the first loop of `loadParsedELF` keeps. -/
structure Scan where
  first : Bool
  start : Addr
  End : Addr
  interpreter : List UInt8
  deriving DecidableEq, Repr

/-- One turn of the first loop of `loadParsedELF`: `PT_LOAD` headers must come
in ascending order of addresses, and `PT_INTERP` names the interpreter. -/
def scanPhdr (file : List UInt8) (s : Scan) (phdr : ProgHeader) : Outcome Errno Scan :=
  if phdr.type = ptLoad then
    let vaddr := phdr.vaddr
    let s := if s.first then { s with first := false, start := vaddr } else s
    if vaddr < s.End then .error .ENOEXEC
    else
      let (e, ok) := Addr.addLength vaddr phdr.memsz
      if !ok then .error .ENOEXEC else .ok { s with End := e }
  else if phdr.type = ptInterp then
    if phdr.filesz < 2 then .error .ENOEXEC
    else if phdr.filesz > pathMax then .error .ENOEXEC
    else
      match readFull file phdr.filesz.toNat phdr.off.toInt64.toInt with
      | .error _ => .error .ENOEXEC
      | .ok path =>
        if path.getLast? ≠ some 0 then .error .ENOEXEC
        else
          let interpreter := path.takeWhile (· ≠ 0)
          if interpreter = [] then .error .EACCES
          else .ok { s with interpreter := interpreter }
  else .ok s

/-- The `sharedObject` branch of `loadParsedELF`: reserve room for the image,
and move `start`, `end` and the entry point by the load offset. The second
component is `none` where the entry point wraps around, at which the loader
returns `loadedELF{}` with the nil `err` of this block. -/
def relocate (mm : MemoryManager) (start End entry sharedLoadOffset : Addr) :
    Outcome Errno (MemoryManager × Option (Addr × Addr × Addr × Addr)) :=
  let (totalSize, ok) := Addr.roundUp (End - start)
  if !ok then .error .ENOEXEC
  else do
    let (offset, mm) ← mm.mmap ⟨totalSize, 0, sharedLoadOffset, false, false, none⟩
    match mm.munmap offset totalSize with
    | .ok mm =>
      let (start, ok) := Addr.addLength start offset
      if !ok then .panic
      else
        let (End, ok) := Addr.addLength End offset
        if !ok then .panic
        else
          let (entry, ok) := Addr.addLength entry offset
          if !ok then .ok (mm, none)
          else .ok (mm, some (offset, start, End, entry))
    | _ => .panic

/-- One turn of the second loop of `loadParsedELF`. -/
def mapPhdr (file : List UInt8) (offset : Addr) (mm : MemoryManager) (phdr : ProgHeader) :
    Outcome Errno MemoryManager :=
  if phdr.type = ptLoad ∧ phdr.memsz ≠ 0 then mapSegment mm file phdr offset else .ok mm

/-- `loadParsedELF`. -/
def loadParsedELF (mm : MemoryManager) (file : List UInt8) (info : ElfInfo)
    (sharedLoadOffset : Addr) : Outcome Errno (LoadedELF × MemoryManager) := do
  let s ← info.phdrs.foldlM (scanPhdr file) ⟨true, 0, 0, []⟩
  let (mm, r) ← if info.sharedObject then relocate mm s.start s.End info.entry sharedLoadOffset
    else pure (mm, some (0, s.start, s.End, info.entry))
  match r with
  | none => pure (LoadedELF.zero, mm)
  | some (offset, start, End, entry) =>
    let mm ← info.phdrs.foldlM (mapPhdr file offset) mm
    let (phdrAddr, ok) := Addr.addLength start info.phdrOff
    pure (⟨info.arch, entry, start, End, s.interpreter, if ok then phdrAddr else 0,
      info.phdrSize, info.phdrs.length⟩, mm)

/-- `loadInitialELF`, with the host's architecture and the layout's
`PIELoadAddress` as parameters. -/
def loadInitialELF (host : Arch) (mm : MemoryManager) (file : List UInt8)
    (pieLoadAddress : Addr) : Outcome Errno (LoadedELF × MemoryManager) := do
  let info ← parseHeader file
  if host ≠ info.arch then .error .ENOEXEC
  else loadParsedELF mm file info pieLoadAddress

/-- `loadInterpreterELF`. -/
def loadInterpreterELF (mm : MemoryManager) (file : List UInt8) (initial : LoadedELF) :
    Outcome Errno (LoadedELF × MemoryManager) :=
  match parseHeader file with
  | .error e => .error (if e = .ENOEXEC then .ELIBBAD else e)
  | .ok info => if info.arch ≠ initial.arch then .error .ELIBBAD else loadParsedELF mm file info 0
  | .hang => .hang
  | .panic => .panic

end Loader
