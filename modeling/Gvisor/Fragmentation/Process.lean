import Mathlib
import Gvisor.Fragmentation.Reassembler
import Gvisor.Lib.Reachable

set_option linter.dupNamespace false

/-! `Fragmentation` (pkg/tcpip/network/fragmentation/fragmentation.go): the
reassemblers of the datagrams in flight, found by datagram id in a map and
kept in `rList`, most recent first, with the count of the bytes they hold.
A reassembler is a shared object, so here it has a handle, an index into
`store`, where its current value is; `next` is the first handle never given
out. The `log.Printf` of `release` is kept, as the list of the values it logs.

`Process` takes `f.mu` twice, around a lookup and around the accounting, and
runs the reassembler's `process` in between under the reassembler's own lock;
each of the three is a function here, and `Fragmentation.process` is the three
in a row, a call that no other call interleaves with. -/

namespace Fragmentation

structure Fragmentation where
  highLimit : Int
  lowLimit : Int
  reassemblers : UInt32 → Option ℕ
  rList : List ℕ
  size : Int
  timeout : Int
  store : ℕ → Reassembler
  next : ℕ
  logged : List Int

def newFragmentation (highMemoryLimit lowMemoryLimit reassemblingTimeout : Int) : Fragmentation :=
  let lowMemoryLimit := if lowMemoryLimit ≥ highMemoryLimit then highMemoryLimit else lowMemoryLimit
  let lowMemoryLimit := if lowMemoryLimit < 0 then 0 else lowMemoryLimit
  { highLimit := highMemoryLimit
    lowLimit := lowMemoryLimit
    reassemblers := fun _ => none
    rList := []
    size := 0
    timeout := reassemblingTimeout
    store := fun _ => newReassembler 0 0
    next := 0
    logged := [] }

namespace Fragmentation

/-- `release`: mark the reassembler done and, unless it was done already,
take it out of the map and the list and its bytes off the count. -/
def release (f : Fragmentation) (h : ℕ) : Fragmentation :=
  let (prev, r) := (f.store h).checkDoneOrMark
  let f := { f with store := Function.update f.store h r }
  if prev then f
  else
    let f := { f with
      reassemblers := Function.update f.reassemblers r.id none
      rList := f.rList.erase h
      size := f.size - r.size }
    if f.size < 0 then { f with size := 0, logged := f.logged ++ [f.size] } else f

/-- A new reassembler for `id`, in the map and at the front of the list. -/
def addReassembler (f : Fragmentation) (id : UInt32) (now : Int) : Fragmentation × ℕ :=
  ({ f with
    store := Function.update f.store f.next (newReassembler id now)
    reassemblers := Function.update f.reassemblers id (some f.next)
    rList := f.next :: f.rList
    next := f.next + 1 }, f.next)

/-- The first critical section of `Process`: the reassembler of `id`, a new
one where there is none or where it is too old. -/
def processLookup (f : Fragmentation) (id : UInt32) (now : Int) : Fragmentation × ℕ :=
  match f.reassemblers id with
  | some h => if (f.store h).tooOld now f.timeout then (f.release h).addReassembler id now else (f, h)
  | none => f.addReassembler id now

/-- The middle of `Process`: the reassembler's `process`. -/
def processReassemble (f : Fragmentation) (h : ℕ) (first last : UInt16) (more : Bool)
    (vv : List UInt8) : Outcome Unit (Fragmentation × List UInt8 × Bool × ℕ) := do
  let (res, r) ← (f.store h).process first last more vv
  pure ({ f with store := Function.update f.store h r }, res)

/-- The eviction loop of `Process`, from the back of `rList`. `Remove` leaves
the removed element's `Prev` link as it was, so the walk visits the list as it
stood when the loop began, back to front. -/
def evictLoop (f : Fragmentation) : List ℕ → Fragmentation
  | [] => f
  | h :: rest => if f.size > f.lowLimit then evictLoop (f.release h) rest else f

/-- The second critical section of `Process`. -/
def processAccount (f : Fragmentation) (h : ℕ) (done : Bool) (consumed : ℕ) : Fragmentation :=
  let f := { f with size := f.size + consumed }
  let f := if done then f.release h else f
  if f.size > f.highLimit then f.evictLoop f.rList.reverse else f

/-- `Process` run with no other call in between: the payload and whether it
is the whole datagram. -/
def process (f : Fragmentation) (id : UInt32) (first last : UInt16) (more : Bool)
    (vv : List UInt8) (now : Int) : Outcome Unit ((List UInt8 × Bool) × Fragmentation) := do
  let (f, h) := f.processLookup id now
  let (f, res, done, consumed) ← f.processReassemble h first last more vv
  pure ((res, done), f.processAccount h done consumed)

end Fragmentation

/-- Calls of `Process` one at a time, at any times `now`. -/
def Step (f f' : Fragmentation) : Prop :=
  ∃ id first last more vv now res, f.process id first last more vv now = .ok (res, f')

/-! ### Concurrent calls

A call of `Process` is at one of its three critical sections, or has returned;
a schedule says which call takes the next step. -/

inductive Pc where
  | lookup (id : UInt32) (first last : UInt16) (more : Bool) (vv : List UInt8) (now : Int)
  | reassemble (h : ℕ) (first last : UInt16) (more : Bool) (vv : List UInt8)
  | account (h : ℕ) (res : List UInt8) (done : Bool) (consumed : ℕ)
  | returned (res : List UInt8) (done : Bool)

/-- The next critical section of a call. -/
def stepCall (f : Fragmentation) : Pc → Outcome Unit (Fragmentation × Pc)
  | .lookup id first last more vv now =>
    let (f, h) := f.processLookup id now
    .ok (f, .reassemble h first last more vv)
  | .reassemble h first last more vv => do
    let (f, res, done, consumed) ← f.processReassemble h first last more vv
    pure (f, .account h res done consumed)
  | .account h res done consumed => .ok (f.processAccount h done consumed, .returned res done)
  | .returned res done => .ok (f, .returned res done)

/-- The calls stepped in the order of `sched`, each entry an index of a call. -/
def runSchedule : List ℕ → Fragmentation × List Pc → Outcome Unit (Fragmentation × List Pc)
  | [], st => .ok st
  | c :: sched, (f, calls) =>
    match calls[c]? with
    | none => .ok (f, calls)
    | some pc => do
      let (f, pc) ← stepCall f pc
      runSchedule sched (f, calls.set c pc)

/-- A schedule that runs one call alone is `Fragmentation.process`. -/
theorem runSchedule_alone (f : Fragmentation) (id : UInt32) (first last : UInt16) (more : Bool)
    (vv : List UInt8) (now : Int) :
    runSchedule [0, 0, 0] (f, [.lookup id first last more vv now]) =
      (fun x => (x.2, [.returned x.1.1 x.1.2])) <$> f.process id first last more vv now := by
  simp only [runSchedule, stepCall, Fragmentation.process, List.getElem?_cons_zero, List.set_cons_zero,
    Outcome.ok_bind]
  cases (f.processLookup id now).1.processReassemble (f.processLookup id now).2 first last more vv <;>
    rfl

/-- Two calls for one datagram, the first with its only fragment: the first
call reassembles it, emptying the heap, and the second looks the reassembler
up before the first has released it, so it is not marked done; the second
call's `process` then finds every hole filled, and `reassemble` pops from the
empty heap. -/
theorem process_after_reassembly_panics :
    runSchedule [0, 0, 1, 1]
      (newFragmentation (4 * 2 ^ 20) (3 * 2 ^ 20) (30 * 10 ^ 9),
        [.lookup 7 0 0 false [1] 0, .lookup 7 0 0 false [1] 0]) = .panic :=
  (@Outcome.map_eq_panic _ _ _ (fun _ => ()) _).1 (by decide)

end Fragmentation
