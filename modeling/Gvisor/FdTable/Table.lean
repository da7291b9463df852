import Gvisor.FsLock.Lock
import Gvisor.Syserror

/-! The descriptor table of a task (pkg/sentry/kernel/fd_table.go and
fd_table_unsafe.go). The table is a slice of descriptors, `nil` where a
descriptor is free, and a count `used` of the others; `set` grows the slice
as needed and takes or drops the table's reference on the files it installs
or replaces. Dropping a file does three things outside the table: it releases
the POSIX locks the table's uid holds on the file's inode, sends the close
event of the file to inotify, and gives back the reference. The state here is
the table together with those three, the reference count of each file, the
lock set of each inode and the events sent so far.

`NewFDs` installs its files one at a time into the free slots from `fd` on,
below the limit `RLIMIT_NOFILE` gives it, and clears what it installed when
there were not enough; `NewFDAt` installs one file at the descriptor it is
given. The limit reaches `NewFDs` as `int32(lim.Cur)`, and `NewFDAt` compares
it as a `uint64`. -/

namespace FdTable

open Syserror FsLock Segment

/-- `FDFlags`. -/
structure FDFlags where
  closeOnExec : Bool
  deriving DecidableEq, Repr

/-- An `*fs.File`, by what the table reads of it: its identity, the inode of
its dirent, whether that inode is a directory, and whether the file was opened
for writing. -/
structure File where
  id : ℕ
  inode : ℕ
  isDir : Bool
  write : Bool
  deriving DecidableEq, Repr

/-- `descriptor`. -/
structure Descriptor where
  file : File
  flags : FDFlags
  deriving DecidableEq, Repr

/-- An `FDTable` with the reference counts of the files, the lock sets of the
inodes and the inotify events, which `drop` changes. -/
structure State where
  uid : UniqueID
  used : ℤ
  slice : List (Option Descriptor)
  refs : ℕ → ℤ
  locks : ℕ → LockSet
  events : List (ℕ × UInt32)

/-- `limits.Infinity`. -/
def infinity : UInt64 := 0xFFFFFFFFFFFFFFFF

def inIsdir : UInt32 := 0x40000000

def inCloseWrite : UInt32 := 0x00000008

def inCloseNowrite : UInt32 := 0x00000010

/-- The event `drop` sends for a file. -/
def closeEvent (file : File) : ℕ × UInt32 :=
  (file.inode, (if file.isDir then inIsdir else 0) ||| (if file.write then inCloseWrite else inCloseNowrite))

/-- The slice grown to hold `fd`, as `set` grows it: to `fd + 1` entries, or
twice its length if that is more. -/
def grow (slice : List (Option Descriptor)) (fd : ℕ) : List (Option Descriptor) :=
  if fd ≥ slice.length then slice ++ List.replicate (max (fd + 1) (2 * slice.length) - slice.length) none
  else slice

/-- The end of the descriptors `NewFDs` allocates from: `int32(lim.Cur)`
for a finite soft limit, `MaxInt32` otherwise. -/
def allocEnd (cur : Option UInt64) : Int32 :=
  match cur with
  | some c => if c ≠ infinity then c.toUInt32.toInt32 else Int32.maxValue
  | none => Int32.maxValue

/-- `NewFDTable`: an empty table under the uid the kernel hands out, with no
references taken, no locks held and no events sent yet. -/
def newFDTable (uid : UniqueID) : State := ⟨uid, 0, [], fun _ => 0, fun _ => [], []⟩

namespace State

/-- `get`: the descriptor at `fd`, and whether `fd` is within the slice. -/
def get (s : State) (fd : ℕ) : Option Descriptor × Bool :=
  if fd ≥ s.slice.length then (none, false) else (s.slice.getD fd none, true)

/-- `drop`. -/
def drop (s : State) (file : File) : Outcome Unit State := do
  let l ← (s.locks file.inode).unlock s.uid ⟨0, lockEOF⟩
  pure { s with
    locks := Function.update s.locks file.inode l
    events := s.events ++ [closeEvent file]
    refs := Function.update s.refs file.id (s.refs file.id - 1) }

/-- `set`. -/
def set (s : State) (fd : ℕ) (file : Option File) (flags : FDFlags) : Outcome Unit State :=
  let slice := grow s.slice fd
  let orig := slice.getD fd none
  let s := { s with slice := slice.set fd (file.map fun f => ⟨f, flags⟩) }
  -- acquire a table reference for a file that was not there
  let s := match file with
    | some f => if orig.map Descriptor.file ≠ some f then
        { s with refs := Function.update s.refs f.id (s.refs f.id + 1) } else s
    | none => s
  do
    let s ← match orig with
      | some o => if file ≠ some o.file then s.drop o.file else pure s
      | none => pure s
    pure (match orig, file with
      | none, some _ => { s with used := s.used + 1 }
      | some _, none => { s with used := s.used - 1 }
      | _, _ => s)

/-- The install loop of `NewFDs` from the descriptor `i`, with one turn for
each descriptor left below the limit. -/
def installLoop (files : List File) (flags : FDFlags) : ℕ → ℕ → List ℕ → State → Outcome Unit (List ℕ × State)
  | 0, _, fds, s => .ok (fds, s)
  | fuel + 1, i, fds, s =>
    if h : fds.length < files.length then
      if (s.get i).1 = none then do
        let s ← s.set i (some files[fds.length]) flags
        installLoop files flags fuel (i + 1) (fds ++ [i]) s
      else installLoop files flags fuel (i + 1) fds s
    else .ok (fds, s)

/-- `NewFDs`, with the soft limit `RLIMIT_NOFILE` of the context, `none`
where the context has no limits. -/
def newFDs (s : State) (cur : Option UInt64) (fd : Int32) (files : List File) (flags : FDFlags) :
    Outcome Unit (Except Errno (List ℕ) × State) :=
  if fd < 0 then .ok (.error .EINVAL, s)
  else
    if cur.isSome ∧ fd ≥ allocEnd cur then .ok (.error .EMFILE, s)
    else do
      let (fds, s) ← installLoop files flags ((allocEnd cur).toInt - fd.toInt).toNat fd.toInt.toNat [] s
      if fds.length < files.length then do
        -- unwind what was installed
        let s ← fds.foldlM (fun s i => s.set i none ⟨false⟩) s
        pure (.error .EMFILE, s)
      else pure (.ok fds, s)

/-- `NewFDAt`. -/
def newFDAt (s : State) (cur : Option UInt64) (fd : Int32) (file : File) (flags : FDFlags) :
    Outcome Unit (Except Errno Unit × State) :=
  if fd < 0 then .ok (.error .EBADF, s)
  else if (match cur with
      | some c => c != infinity && decide (fd.toInt.toNat ≥ c.toNat)
      | none => false) then .ok (.error .EMFILE, s)
  else do
    let s ← s.set fd.toInt.toNat (some file) flags
    pure (.ok (), s)

/-- `Remove`: the file at `fd`, with a reference for the caller, and the
entry cleared. -/
def remove (s : State) (fd : Int32) : Outcome Unit (Option File × State) :=
  if fd < 0 then .ok (none, s)
  else
    match (s.get fd.toInt.toNat).1 with
    | some d => do
      let s := { s with refs := Function.update s.refs d.file.id (s.refs d.file.id + 1) }
      let s ← s.set fd.toInt.toNat none ⟨false⟩
      pure (some d.file, s)
    | none => .ok (none, s)

end State

end FdTable
