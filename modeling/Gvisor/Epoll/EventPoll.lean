import Gvisor.Syserror
import Gvisor.Lib.Reachable
import Mathlib.Logic.Function.Basic
import Mathlib.Data.List.Basic
import Mathlib.Data.Int.Notation

/-! One `EventPoll` of pkg/sentry/kernel/epoll: the files it observes, each
with its `pollEntry`, and the three lists an entry moves between. Each
operation is one step, atomic under the locks it takes. An entry is named by
its `FileIdentifier`, and `entry` gives the `pollEntry` last created for each
identifier, so that a removed entry keeps its `curList = nil`. The lists hold
identifiers in order.

What a file reports through `Readiness` is given to each step as `rd`: the
mask an observed file returns for a mask asked. A file that is itself an
`EventPoll` computes it from its own lists; that is the concern of that poll's
steps, and here only its answer is used.

The event polls of the kernel are numbered; a file that is an event poll names
its number. `observes` and `AddEntry` read the files of other polls, so they
are functions of the whole `System`; every other operation reads and changes
only its own poll. Go's map of files is a list here: `observes` only asks
whether some file satisfies a test, which does not depend on the order in
which the map is walked. -/

namespace Epoll

open Syserror

/-- `waiter.EventMask`. -/
abbrev EventMask := UInt64

def eventIn : EventMask := 0x01

/-- `EntryFlags`, an `int`. -/
abbrev EntryFlags := Int64

def oneShot : EntryFlags := 1
def edgeTriggered : EntryFlags := 2

/-- An observed file: another event poll, by its number, or any other file. -/
inductive File where
  | eventPoll (k : ℕ)
  | other (n : ℕ)
  deriving DecidableEq, Repr

structure FileIdentifier where
  file : File
  fd : Int32
  deriving DecidableEq, Repr

structure Event where
  events : UInt32
  data : Int32 × Int32
  deriving DecidableEq, Repr

/-- The list an entry is on. -/
inductive ListKind where
  | ready
  | waiting
  | disabled
  deriving DecidableEq, Repr

structure PollEntry where
  userData : Int32 × Int32
  mask : EventMask
  flags : EntryFlags
  curList : Option ListKind
  deriving DecidableEq, Repr

def newPollEntry : PollEntry := ⟨(0, 0), 0, 0, none⟩

structure EventPoll where
  files : List FileIdentifier
  entry : FileIdentifier → PollEntry
  readyList : List FileIdentifier
  waitingList : List FileIdentifier
  disabledList : List FileIdentifier

/-- An event poll with no files. -/
def newEventPoll : EventPoll := ⟨[], fun _ => newPollEntry, [], [], []⟩

/-- `Readiness` of each observed file, for the mask asked. -/
abbrev Readiness := FileIdentifier → EventMask → EventMask

namespace EventPoll

def list (e : EventPoll) : ListKind → List FileIdentifier
  | .ready => e.readyList
  | .waiting => e.waitingList
  | .disabled => e.disabledList

def modifyList (e : EventPoll) (k : ListKind) (f : List FileIdentifier → List FileIdentifier) :
    EventPoll :=
  match k with
  | .ready => { e with readyList := f e.readyList }
  | .waiting => { e with waitingList := f e.waitingList }
  | .disabled => { e with disabledList := f e.disabledList }

def setEntry (e : EventPoll) (id : FileIdentifier) (en : PollEntry) : EventPoll :=
  { e with entry := Function.update e.entry id en }

/-- `list.Remove(entry)`. -/
def removeFrom (e : EventPoll) (k : ListKind) (id : FileIdentifier) : EventPoll :=
  e.modifyList k (·.erase id)

/-- `list.PushBack(entry); entry.curList = &list`. -/
def pushBack (e : EventPoll) (k : ListKind) (id : FileIdentifier) : EventPoll :=
  (e.modifyList k (· ++ [id])).setEntry id { e.entry id with curList := some k }

/-- An entry taken off one list and pushed to the back of another. -/
def move (e : EventPoll) (id : FileIdentifier) (src dst : ListKind) : EventPoll :=
  (e.removeFrom src id).pushBack dst id

/-- The loop of `eventsAvailable`: the first entry of the ready list whose file
is ready stops it; one that is not is moved to the waiting list. -/
def eventsAvailableLoop (rd : Readiness) : EventPoll → List FileIdentifier → EventPoll × Bool
  | e, [] => (e, false)
  | e, id :: rest =>
    if rd id (e.entry id).mask ≠ 0 then (e, true)
    else eventsAvailableLoop rd (e.move id .ready .waiting) rest

def eventsAvailable (e : EventPoll) (rd : Readiness) : EventPoll × Bool :=
  eventsAvailableLoop rd e e.readyList

/-- `Readiness` of the event poll itself. -/
def readiness (e : EventPoll) (mask : EventMask) (rd : Readiness) : EventPoll × EventMask :=
  if mask &&& eventIn ≠ 0 then
    let (e, avail) := e.eventsAvailable rd
    (e, if avail then eventIn else 0)
  else (e, 0)

/-- The loop of `ReadEvents` over the ready list, from its front: each entry
visited leaves the ready list, so the next one is the front again. The events
returned are kept with the entries that gave them; level-triggered entries
that gave one collect in `localList`, the source's `local`. -/
def readLoop (rd : Readiness) (max : ℤ) :
    EventPoll → List FileIdentifier → List FileIdentifier → List (FileIdentifier × Event) →
      EventPoll × List FileIdentifier × List (FileIdentifier × Event)
  | e, [], localList, ret => (e, localList, ret)
  | e, id :: rest, localList, ret =>
    if (ret.length : ℤ) < max then
      let en := e.entry id
      let ready := rd id en.mask &&& en.mask
      if ready = 0 then readLoop rd max (e.move id .ready .waiting) rest localList ret
      else
        let ret := ret ++ [(id, ⟨ready.toUInt32, en.userData⟩)]
        let e := e.removeFrom .ready id
        if en.flags &&& oneShot ≠ 0 then
          readLoop rd max (e.pushBack .disabled id) rest localList ret
        else if en.flags &&& edgeTriggered ≠ 0 then
          readLoop rd max (e.pushBack .waiting id) rest localList ret
        else readLoop rd max e rest (localList ++ [id]) ret
    else (e, localList, ret)

/-- `ReadEvents`, with the entry of each event returned. -/
def readEventsWith (e : EventPoll) (max : ℤ) (rd : Readiness) :
    EventPoll × List (FileIdentifier × Event) :=
  let (e, localList, ret) := readLoop rd max e e.readyList [] []
  ({ e with readyList := e.readyList ++ localList }, ret)

/-- `ReadEvents`. -/
def readEvents (e : EventPoll) (max : ℤ) (rd : Readiness) : EventPoll × List Event :=
  let (e, ret) := e.readEventsWith max rd
  (e, ret.map (·.2))

/-- `readyCallback.Callback`: an entry on the waiting list moves to the ready
list. -/
def callback (e : EventPoll) (id : FileIdentifier) : EventPoll :=
  if (e.entry id).curList = some .waiting then e.move id .waiting .ready else e

/-- `initEntryReadiness`. -/
def initEntryReadiness (e : EventPoll) (id : FileIdentifier) (rd : Readiness) : EventPoll :=
  let e := e.pushBack .waiting id
  let en := e.entry id
  if rd id en.mask &&& en.mask ≠ 0 then e.callback id else e

/-- The end of `AddEntry`, once its checks have passed: a new entry for `id`
in the map and its readiness initialised. -/
def insertEntry (e : EventPoll) (id : FileIdentifier) (flags : EntryFlags) (mask : EventMask)
    (data : Int32 × Int32) (rd : Readiness) : EventPoll :=
  let e := { e with files := e.files ++ [id] }.setEntry id ⟨data, mask, flags, none⟩
  e.initEntryReadiness id rd

/-- `UpdateEntry`. -/
def updateEntry (e : EventPoll) (id : FileIdentifier) (flags : EntryFlags) (mask : EventMask)
    (data : Int32 × Int32) (rd : Readiness) : Except Errno EventPoll :=
  if id ∉ e.files then .error .ENOENT
  else
    let en := e.entry id
    let e := match en.curList with
      | some k => e.removeFrom k id
      | none => e
    let e := e.setEntry id { en with flags := flags, mask := mask, userData := data }
    .ok (e.initEntryReadiness id rd)

/-- `RemoveEntry`. -/
def removeEntry (e : EventPoll) (id : FileIdentifier) : Except Errno EventPoll :=
  if id ∉ e.files then .error .ENOENT
  else
    let en := e.entry id
    let e := match en.curList with
      | some k => e.removeFrom k id
      | none => e
    let e := e.setEntry id { en with curList := none }
    .ok { e with files := e.files.erase id }

end EventPoll

/-- The event polls of the kernel, by number. -/
structure System where
  polls : ℕ → EventPoll

namespace System

def init : System := ⟨fun _ => newEventPoll⟩

def setPoll (sys : System) (k : ℕ) (e : EventPoll) : System := ⟨Function.update sys.polls k e⟩

/-- `observes`: poll `e` observes `ep` directly or through the polls it
observes, searched to `depthLeft` levels; a search that reaches the depth
counts as found. `depthLeft` starts at 4 and only decreases, so it is a `ℕ`. -/
def observes (sys : System) : ℕ → ℕ → ℕ → Bool
  | _, _, 0 => true
  | e, ep, depthLeft + 1 => (sys.polls e).files.any fun id =>
    match id.file with
    | .eventPoll f => f == ep || sys.observes f ep depthLeft
    | .other _ => false

/-- `AddEntry` on poll `k`: the poll after it, or the error it returns. -/
def addEntry (sys : System) (k : ℕ) (id : FileIdentifier) (flags : EntryFlags)
    (mask : EventMask) (data : Int32 × Int32) (rd : Readiness) : Except Errno EventPoll :=
  let e := sys.polls k
  if id ∈ e.files then .error .EEXIST
  else
    match id.file with
    | .eventPoll ep =>
      if k = ep then .error .EINVAL
      else if sys.observes ep k 4 then .error .ELOOP
      else .ok (e.insertEntry id flags mask data rd)
    | .other _ => .ok (e.insertEntry id flags mask data rd)

end System

/-- The operations on one poll: the calls of its users, and the callback a
file it observes makes. -/
inductive Op where
  | addEntry (id : FileIdentifier) (flags : EntryFlags) (mask : EventMask) (data : Int32 × Int32)
  | updateEntry (id : FileIdentifier) (flags : EntryFlags) (mask : EventMask)
      (data : Int32 × Int32)
  | removeEntry (id : FileIdentifier)
  | readEvents (max : ℤ)
  | readiness (mask : EventMask)
  | callback (id : FileIdentifier)

namespace System

/-- Poll `k` after `op`, with `rd` for what its files report; a call that
returns an error changes nothing. -/
def stepPoll (sys : System) (k : ℕ) (rd : Readiness) : Op → EventPoll
  | .addEntry id flags mask data =>
    (sys.addEntry k id flags mask data rd).toOption.getD (sys.polls k)
  | .updateEntry id flags mask data =>
    ((sys.polls k).updateEntry id flags mask data rd).toOption.getD (sys.polls k)
  | .removeEntry id => ((sys.polls k).removeEntry id).toOption.getD (sys.polls k)
  | .readEvents max => ((sys.polls k).readEvents max rd).1
  | .readiness mask => ((sys.polls k).readiness mask rd).1
  | .callback id => (sys.polls k).callback id

/-- One operation on poll `k`. -/
def step (sys : System) (k : ℕ) (rd : Readiness) (op : Op) : System :=
  sys.setPoll k (sys.stepPoll k rd op)

/-- The systems reached by any interleaving of operations on any polls. -/
def Reachable : System → Prop :=
  Transition.Reachable (· = init) fun sys sys' => ∃ k rd op, sys' = sys.step k rd op

end System

end Epoll
