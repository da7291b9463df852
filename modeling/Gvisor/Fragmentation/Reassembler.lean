import Gvisor.Lib.Heap
import Gvisor.Lib.Outcome

/-! The reassembly of one IP datagram from its fragments
(pkg/tcpip/network/fragmentation): the holes of RFC 815 say which offsets are
still missing, and the fragments that fill some hole wait in `fragHeap`, a
heap ordered by offset, until no hole is left; `reassemble` then pops them in
order and joins their payloads, trimming each where it overlaps what is
already there. A payload (`buffer.VectorisedView`) is its list of bytes, and
`TrimFront` drops bytes from its front. -/

namespace Fragmentation

structure Hole where
  first : UInt16
  last : UInt16
  deleted : Bool
  deriving DecidableEq, Repr

structure Fragment where
  offset : UInt16
  vv : List UInt8
  deriving DecidableEq, Repr

/-- `fragHeap.Less`. -/
def fragLess (a b : Fragment) : Bool := a.offset < b.offset

/-- The errors `fragHeap.reassemble` returns. -/
inductive ReassembleError where
  /-- "offset of the first packet is != 0 (%d)" -/
  | firstOffset (offset : UInt16)
  /-- "packet has a hole, expected offset %d, got %d" -/
  | hole (expected : ℕ) (got : UInt16)
  deriving DecidableEq, Repr

/-- The loop of `reassemble` after its first fragment: `size` bytes are
joined so far. Each turn pops a fragment, so as many turns as the heap has
fragments are all it takes. -/
def reassembleLoop : ℕ → List Fragment → List UInt8 → Outcome ReassembleError (List UInt8 × List Fragment)
  | 0, h, views => .ok (views, h)
  | fuel + 1, h, views =>
    match Heap.pop fragLess h with
    | none => .ok (views, h)
    | some (curr, h) =>
      if curr.offset.toNat < views.length then
        reassembleLoop fuel h (views ++ curr.vv.drop (views.length - curr.offset.toNat))
      else if curr.offset.toNat > views.length then .error (.hole views.length curr.offset)
      else reassembleLoop fuel h (views ++ curr.vv)

/-- `fragHeap.reassemble`: the joined payload and the heap it leaves, a panic
where its first `heap.Pop` finds the heap empty. -/
def reassemble (h : List Fragment) : Outcome ReassembleError (List UInt8 × List Fragment) :=
  match Heap.pop fragLess h with
  | none => .panic
  | some (curr, h) =>
    if curr.offset ≠ 0 then .error (.firstOffset curr.offset)
    else reassembleLoop h.length h curr.vv

/-- The fields of `reassembler` that `process` and `Fragmentation` read. The
creation time is a number of nanoseconds. -/
structure Reassembler where
  id : UInt32
  size : ℕ
  holes : List Hole
  deleted : ℕ
  heap : List Fragment
  done : Bool
  creationTime : Int
  deriving DecidableEq, Repr

def newReassembler (id : UInt32) (now : Int) : Reassembler where
  id := id
  size := 0
  holes := [⟨0, 65535, false⟩]
  deleted := 0
  heap := []
  done := false
  creationTime := now

namespace Reassembler

/-- A turn of the loop of `updateHoles` on the hole at `i`: the holes, the
count of deleted ones, and whether the fragment filled some hole. -/
def updateHolesStep (first last : UInt16) (more : Bool) (st : List Hole × ℕ × Bool) (i : ℕ) :
    List Hole × ℕ × Bool :=
  let (holes, deleted, used) := st
  match holes[i]? with
  | none => st
  | some h =>
    if h.deleted || first > h.last || last < h.first then (holes, deleted, used)
    else
      let holes := holes.set i { h with deleted := true }
      let holes := if first > h.first then holes ++ [⟨h.first, first - 1, false⟩] else holes
      let holes := if last < h.last && more then holes ++ [⟨last + 1, h.last, false⟩] else holes
      (holes, deleted + 1, true)

/-- `updateHoles`: the loop runs over the holes there are when it starts;
those it appends are looked at by later fragments. -/
def updateHoles (r : Reassembler) (first last : UInt16) (more : Bool) : Reassembler × Bool :=
  let (holes, deleted, used) :=
    (List.range r.holes.length).foldl (updateHolesStep first last more) (r.holes, r.deleted, false)
  ({ r with holes, deleted }, used)

/-- `process`: the payload, whether it is the whole datagram, and the bytes
the reassembler kept; a panic where `reassemble` fails. -/
def process (r : Reassembler) (first last : UInt16) (more : Bool) (vv : List UInt8) :
    Outcome Unit ((List UInt8 × Bool × ℕ) × Reassembler) :=
  if r.done then .ok (([], false, 0), r)
  else
    let (r, used) := r.updateHoles first last more
    let (r, consumed) :=
      if used then ({ r with heap := Heap.push fragLess r.heap ⟨first, vv⟩, size := r.size + vv.length },
        vv.length)
      else (r, 0)
    if r.deleted < r.holes.length then .ok (([], false, consumed), r)
    else
      match reassemble r.heap with
      | .ok (res, heap) => .ok ((res, true, consumed), { r with heap })
      | .error _ => .panic
      | .panic => .panic
      | .hang => .hang

variable {r r' : Reassembler} {first last : UInt16} {more : Bool} {vv : List UInt8}

theorem updateHoles_fst (r : Reassembler) (first last : UInt16) (more : Bool) :
    ∃ holes deleted, (r.updateHoles first last more).1 = { r with holes, deleted } :=
  ⟨_, _, rfl⟩

/-- What `process` changes of a reassembler: the bytes it holds grow by what
it consumed, and its id, creation time and mark stay. -/
theorem process_eq_ok {res : List UInt8 × Bool × ℕ} (h : r.process first last more vv = .ok (res, r')) :
    r'.id = r.id ∧ r'.done = r.done ∧ r'.creationTime = r.creationTime ∧
      r'.size = r.size + res.2.2 := by
  unfold process at h
  split at h
  · cases h
    exact ⟨rfl, rfl, rfl, rfl⟩
  · obtain ⟨holes, deleted, hu⟩ := updateHoles_fst r first last more
    generalize hp : r.updateHoles first last more = p at h
    obtain ⟨r1, used⟩ := p
    rw [hp] at hu
    cases hu
    dsimp only at h
    cases used
    all_goals simp only [if_true, if_false, Bool.false_eq_true] at h
    -- whether the datagram is complete, and then what `reassemble` returned
    all_goals split at h
    all_goals try split at h
    all_goals cases h
    all_goals exact ⟨rfl, rfl, rfl, rfl⟩

/-- Two fragments that both say they end the datagram, the second one shorter:
the second deletes the hole before the first without keeping the part of it
past its own end, so no hole is left while the heap has a gap, and
`reassemble` fails, on which `process` panics. -/
theorem process_shorter_last_fragment_panics :
    ((newReassembler 0 0).process 10 19 false (List.replicate 10 1) >>= fun x =>
      x.2.process 0 4 false (List.replicate 5 2)) = .panic := by
  decide

/- A fragment that reaches past the end the last fragment gave is kept whole:
the datagram ends at 9, and the payload has 16 bytes. -/
example :
    (fun x => (x.1.1.length, x.1.2.1)) <$>
      ((newReassembler 0 0).process 5 9 false (List.replicate 5 1) >>= fun x =>
        x.2.process 3 15 true (List.replicate 13 2) >>= fun x =>
          x.2.process 0 2 true (List.replicate 3 3)) = .ok (16, true) := by
  decide

def tooOld (r : Reassembler) (now timeout : Int) : Bool := now - r.creationTime > timeout

/-- `checkDoneOrMark`: whether the reassembler was done, and the reassembler
marked done. -/
def checkDoneOrMark (r : Reassembler) : Bool × Reassembler := (r.done, { r with done := true })

end Reassembler

end Fragmentation
