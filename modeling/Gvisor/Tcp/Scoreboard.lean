import Gvisor.Tcp.Options
import Gvisor.Lib.OrderedSet

/-! `SACKScoreboard` (pkg/tcpip/transport/tcp/sack_scoreboard.go): the
sequence ranges the peer has reported received out of order, merged into
disjoint ranges and kept in a B-tree of `github.com/google/btree` ordered by
`Start`. The tree is a parameter: a `T` with the operations of an
`OrderedSet` of `SACKBlock`s, of which the proofs assume only what
`OrderedSet.Lawful` says. Those promises hold where the starts lie within
2^31 of each other, where the order of sequence numbers is the order of a
key. -/

namespace Tcp

open SeqNum OrderedSet

/-- `maxSACKBlocks`: once the scoreboard has this many ranges, `Insert` does
nothing. -/
def maxSACKBlocks : ℕ := 100

def nDupAckThreshold : ℕ := 3

namespace SACKBlock

/-- `SACKBlock.Less`, the order of the tree. -/
def less (r b : SACKBlock) : Bool := r.Start.lessThan b.Start

/-- `r.Contains(b)`: `b` lies inside `r`. -/
def contains (r b : SACKBlock) : Bool := r.Start.lessThanEq b.Start && b.End.lessThanEq r.End

end SACKBlock

/-- A `SACKBlock` is an item of the tree, in the order of `Less`. -/
instance : Item SACKBlock := ⟨SACKBlock.less⟩

@[simp] theorem item_less (a b : SACKBlock) : Item.less a b = a.less b := rfl

structure SACKScoreboard (T : Type) where
  smss : UInt16
  maxSACKED : Value
  sacked : Size
  ranges : T
  deriving DecidableEq, Repr

variable {T : Type} [OrderedSet T SACKBlock]

/-- `NewSACKScoreboard`: `btree.New(defaultBtreeDegree)` is `OrderedSet.new`. -/
def newSACKScoreboard (smss : UInt16) (iss : Value) : SACKScoreboard T where
  smss := smss
  maxSACKED := iss
  sacked := 0
  ranges := OrderedSet.new

namespace SACKScoreboard

def reset (s : SACKScoreboard T) : SACKScoreboard T := { s with ranges := OrderedSet.new, sacked := 0 }

def empty (s : SACKScoreboard T) : Bool := OrderedSet.len s.ranges = 0

/-- The callback of `Insert`'s ascending walk: the blocks that start at or
after `r` and overlap it are merged into it and deleted. -/
def insertAscend (st : SACKBlock × List SACKBlock) (i : SACKBlock) :
    Bool × SACKBlock × List SACKBlock :=
  let (r, toDelete) := st
  if i = r then (true, r, toDelete)
  else if r.End.lessThan i.Start then (false, r, toDelete)
  else if i.End.lessThan r.End then (true, r, toDelete ++ [i])
  else (true, { r with End := i.End }, toDelete ++ [i])

/-- The callback of `Insert`'s descending walk, over the blocks that start at
or before `r`. -/
def insertDescend (st : SACKBlock × List SACKBlock) (i : SACKBlock) :
    Bool × SACKBlock × List SACKBlock :=
  let (r, toDelete) := st
  if i = r then (true, r, toDelete)
  else if i.End.lessThan r.Start then (false, r, toDelete)
  else
    let r := { r with Start := i.Start }
    let r := if r.End.lessThan i.End then { r with End := i.End } else r
    (true, r, toDelete ++ [i])

/-- The deletions of `Insert`, taking each deleted block's size off `sacked`. -/
def deleteAll (s : SACKScoreboard T) : List SACKBlock → SACKScoreboard T
  | [] => s
  | i :: rest =>
    let (ranges, old) := OrderedSet.delete s.ranges i
    let s := { s with ranges }
    let s := if old.isSome then { s with sacked := s.sacked - i.Start.size i.End } else s
    deleteAll s rest

theorem deleteAll_cons (s : SACKScoreboard T) (i : SACKBlock) (rest : List SACKBlock) :
    s.deleteAll (i :: rest) =
      (if (OrderedSet.delete s.ranges i).2.isSome then
        { s with ranges := (OrderedSet.delete s.ranges i).1, sacked := s.sacked - i.Start.size i.End }
      else { s with ranges := (OrderedSet.delete s.ranges i).1 }).deleteAll rest := by
  rw [deleteAll]

/-- `Insert`. -/
def insert (s : SACKScoreboard T) (r : SACKBlock) : SACKScoreboard T :=
  if OrderedSet.len s.ranges ≥ maxSACKBlocks then s
  else
    let s := if s.maxSACKED.lessThan (r.End - 1) then { s with maxSACKED := r.End - 1 } else s
    let (r, toDelete) := ascendGreaterOrEqual s.ranges r insertAscend (r, [])
    let (r, toDelete) := descendLessOrEqual s.ranges r insertDescend (r, toDelete)
    let s := s.deleteAll toDelete
    let (ranges, replaced) := OrderedSet.replaceOrInsert s.ranges r
    let s := { s with ranges }
    if replaced.isNone then { s with sacked := s.sacked + r.Start.size r.End } else s

/-- `IsSACKED`: some range of the scoreboard contains `r`. -/
def isSACKED (s : SACKScoreboard T) (r : SACKBlock) : Bool :=
  if s.empty then false
  else
    descendLessOrEqual s.ranges r (fun found i =>
        if i.End.lessThan r.Start then (false, found)
        else if i.contains r then (false, true)
        else (true, found))
      false

/-- The callback of `Delete`'s walk: every range that starts at or before
`seq` goes, and the part of it past `seq` comes back. -/
def deleteDescend (r : SACKBlock) (seq : Value)
    (st : List SACKBlock × List SACKBlock × Size) (i : SACKBlock) :
    Bool × List SACKBlock × List SACKBlock × Size :=
  let (toDelete, toInsert, sacked) := st
  if i = r then (true, toDelete, toInsert, sacked)
  else if i.End.lessThanEq seq then (true, toDelete ++ [i], toInsert, sacked - i.Start.size i.End)
  else (true, toDelete ++ [i], toInsert ++ [⟨seq, i.End⟩], sacked - i.Start.size seq)

/-- `Delete`: forget what lies before `seq`. -/
def delete (s : SACKScoreboard T) (seq : Value) : SACKScoreboard T :=
  if s.empty then s
  else
    let r : SACKBlock := ⟨seq, seq.add 1⟩
    let (toDelete, toInsert, sacked) := descendLessOrEqual s.ranges r (deleteDescend r seq) ([], [], s.sacked)
    let ranges := toDelete.foldl (fun ranges sb => (OrderedSet.delete ranges sb).1) s.ranges
    let ranges := toInsert.foldl (fun ranges sb => (OrderedSet.replaceOrInsert ranges sb).1) ranges
    { s with ranges, sacked }

/-- `IsRangeLost`: at least `nDupAckThreshold` ranges, or at least
`nDupAckThreshold - 1` segments' worth of bytes, are SACKed above `r`.
`(nDupAckThreshold-1)*s.smss` is a `uint16` product. -/
def isRangeLost (s : SACKScoreboard T) (r : SACKBlock) : Bool :=
  if s.empty then false
  else
    -- the range just below `r`: it may cover `r`, or the start of it
    let (searchMore, r) := descendLessOrEqual s.ranges r (fun (st : Bool × SACKBlock) i =>
        let (_, r) := st
        if i.contains r then (false, false, r)
        else if i.End.lessThanEq r.Start then (false, true, r)
        else (false, true, { r with Start := i.End }))
      (true, r)
    if !searchMore then false
    else
      let (_, _, isLost) := ascendGreaterOrEqual s.ranges r (fun (st : ℕ × Size × Bool) i =>
          let (nDupSACK, nDupSACKBytes, _) := st
          if i.contains r then (false, st)
          else
            let nDupSACKBytes := nDupSACKBytes + i.Start.size i.End
            let nDupSACK := nDupSACK + 1
            if nDupSACK ≥ nDupAckThreshold ∨
                nDupSACKBytes ≥ (((nDupAckThreshold - 1 : ℕ).toUInt16 * s.smss).toUInt32) then
              (false, nDupSACK, nDupSACKBytes, true)
            else (true, nDupSACK, nDupSACKBytes, false))
        (0, 0, false)
      isLost

def isLost (s : SACKScoreboard T) (seq : Value) : Bool := s.isRangeLost ⟨seq, seq.add 1⟩

end SACKScoreboard

end Tcp
