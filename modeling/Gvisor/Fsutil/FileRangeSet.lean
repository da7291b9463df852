import Gvisor.Lib.Outcome
import Gvisor.Segment.Ops
import Gvisor.Usermem.Addr

/-! The cache of a file, pkg/sentry/fs/fsutil/file_range_set.go: a `FileRangeSet` maps offsets
of a `Mappable` to offsets of the memory file that holds their data. `Fill` reads the parts of a
range that are not cached through `readAt` into newly allocated memory and inserts them;
`Truncate` frees the pages past a new end of file and zeroes the rest of the last page.

The memory file is its bytes and the offset where the next allocation starts: `Allocate` hands
out fresh zeroed pages there and never fails, and reference counts are not kept, so `DecRef`
does nothing. `MapInternal` maps every range. `readAt` is a callback with a state of its own
that reads at most the bytes asked for. The loops that call `readAt` may not end, so they run on
fuel and `hang` where it runs out.

When `readAt` reports `io.EOF` in the middle of a page, the reader that `Fill` hands to
`AllocateAndFill` rounds what it read up to the page, for the zeroes after the end of file, and
drops the rounded part from its destination before it checks whether the destination is full.
`BlockSeq.DropFirst64` returns a new sequence, and that one is thrown away, so the destination is
never full there and `Fill` returns `io.EOF` even where the zeroed page reaches the end of the
gap. -/

namespace Fsutil

open Segment

def fileRangeSetFunctions : Functions ℕ where
  minKey := 0
  maxKey := 2 ^ 64 - 1
  merge mr1 frstart1 _ frstart2 := if frstart1 + mr1.length ≠ frstart2 then none else some frstart1
  split mr frstart split := (frstart, frstart + (split - mr.Start))

/-- A `FileRangeSet` by its in-order segments, each with the memory file offset of its start. -/
abbrev FileRangeSet := List (Range × ℕ)

/-- `FileRangeOf`: the memory file range that holds `mr`, a part of the segment `seg`. -/
def fileRangeOf (frs : FileRangeSet) (seg : ℕ) (mr : Range) : Range :=
  let frstart := value frs seg + (mr.Start - segStart frs seg)
  ⟨frstart, frstart + mr.length⟩

/-- The memory file offset that holds the offset `x`; `none` where `x` is not cached. -/
def cacheAt (frs : FileRangeSet) (x : ℕ) : Option ℕ := readAt (fun r v x => v + (x - r.Start)) frs x

/-- The memory file: its bytes, and where the next allocation starts. -/
structure MemoryFile where
  data : ℕ → UInt8
  next : ℕ

namespace MemoryFile

/-- `Allocate`: fresh zeroed pages. -/
def allocate (mf : MemoryFile) (length : ℕ) : Range × MemoryFile :=
  (⟨mf.next, mf.next + length⟩,
    ⟨fun x => if mf.next ≤ x ∧ x < mf.next + length then 0 else mf.data x, mf.next + length⟩)

/-- The bytes `bs` written from `start` on, through a mapping of the memory file. -/
def write (mf : MemoryFile) (start : ℕ) (bs : List UInt8) : MemoryFile :=
  { mf with data := fun x => if start ≤ x ∧ x < start + bs.length then bs.getD (x - start) 0 else mf.data x }

/-- `safemem.ZeroSeq` of the mapping of `fr`. -/
def zero (mf : MemoryFile) (fr : Range) : MemoryFile :=
  { mf with data := fun x => if fr.Start ≤ x ∧ x < fr.End then 0 else mf.data x }

end MemoryFile

/-- An error of `readAt`: `io.EOF`, or another one. -/
inductive ReadErr (ε : Type) where
  | EOF
  | other (e : ε)
  deriving DecidableEq, Repr

variable {σ ε : Type}

/-- The reader that `Fill` hands to `AllocateAndFill` for the gap range that starts at `start`:
from `done` bytes read, it reads into the destination `[dst, dst + rem)` of the memory file until
the destination is full or `readAt` fails, and returns what it read in all. -/
def fillReader (readAt : σ → ℕ → ℕ → σ × List UInt8 × Option (ReadErr ε)) (start : ℕ) :
    ℕ → σ × MemoryFile → ℕ → ℕ → ℕ → Outcome Unit (σ × MemoryFile × ℕ × Option (ReadErr ε))
  | 0, _, _, _, _ => .hang
  | fuel + 1, (s, mf), dst, rem, done =>
    if rem = 0 then .ok (s, mf, done, none)
    else
      let (s, bs, err) := readAt s rem (start + done)
      let mf := mf.write dst (bs.take rem)
      let done := done + bs.length
      -- `dsts = dsts.DropFirst64(n)`
      let dst := dst + bs.length
      let rem := rem - bs.length
      match err with
      | none => fillReader readAt start fuel (s, mf) dst rem done
      | some .EOF =>
        let (donepgaddr, ok) := Usermem.Addr.roundUp (UInt64.ofNat done)
        if ok ∧ donepgaddr.toNat ≠ done then
          -- `dsts.DropFirst64(donepg - done)` returns a new sequence, which is dropped, so the
          -- destination still holds the bytes past `done`
          if rem = 0 then .ok (s, mf, donepgaddr.toNat, none)
          else .ok (s, mf, donepgaddr.toNat, some .EOF)
        else .ok (s, mf, done, some .EOF)
      | some (.other e) => .ok (s, mf, done, some (.other e))

/-- `safemem.ReadFullToBlocks`: the reader, again and again, until the destination
`[dst, dst + rem)` is full or the reader fails, with `done` bytes read. -/
def readFullToBlocks {e : Type} (r : σ × MemoryFile → ℕ → ℕ → Outcome Unit (σ × MemoryFile × ℕ × Option e)) :
    ℕ → σ × MemoryFile → ℕ → ℕ → ℕ → Outcome Unit (σ × MemoryFile × ℕ × Option e)
  | 0, _, _, _, _ => .hang
  | fuel + 1, st, dst, rem, done =>
    if rem = 0 then .ok (st.1, st.2, done, none)
    else
      (r st dst rem).bind fun (s, mf, n, err) =>
        match err with
        | some e => .ok (s, mf, done + n, some e)
        | none => readFullToBlocks r fuel (s, mf) (dst + n) (rem - n) (done + n)

/-- `MemoryFile.AllocateAndFill`: fresh zeroed pages of `length` bytes, filled by the reader,
and cut down to the whole pages it filled. -/
def allocateAndFill {e : Type} (fuel : ℕ) (mf : MemoryFile) (length : ℕ)
    (r : σ × MemoryFile → ℕ → ℕ → Outcome Unit (σ × MemoryFile × ℕ × Option e)) (s : σ) :
    Outcome Unit (σ × MemoryFile × Range × Option e) := do
  let (fr, mf) := mf.allocate length
  let (s, mf, n, err) ← readFullToBlocks r fuel (s, mf) fr.Start length 0
  let un := (Usermem.Addr.roundDown (UInt64.ofNat n)).toNat
  pure (s, mf, if un < length then ⟨fr.Start, fr.Start + un⟩ else fr, err)

/-- The loop of `Fill`, at the gap `gap`. -/
def fillLoop (fuel : ℕ) (required optional : Range)
    (readAt : σ → ℕ → ℕ → σ × List UInt8 × Option (ReadErr ε)) :
    ℕ → FileRangeSet × MemoryFile × σ → ℕ →
      Outcome Unit (FileRangeSet × MemoryFile × σ × Option (ReadErr ε))
  | 0, _, _ => .hang
  | n + 1, (frs, mf, s), gap =>
    if gap ≤ frs.length ∧ gapStart frs fileRangeSetFunctions gap < required.End then
      if (gapRange frs fileRangeSetFunctions gap).length = 0 then
        fillLoop fuel required optional readAt n (frs, mf, s) (gap + 1)
      else
        let gr := (gapRange frs fileRangeSetFunctions gap).intersect optional
        (allocateAndFill fuel mf gr.length
            (fun st dst rem => fillReader readAt gr.Start fuel st dst rem 0) s).bind
          fun (s, mf, fr, err) =>
            -- store what it read, and go on from the gap after it
            let stored : Outcome Unit (FileRangeSet × ℕ) :=
              if fr.length ≠ 0 then
                match insertChecked fileRangeSetFunctions frs gap ⟨gr.Start, gr.Start + fr.length⟩
                    fr.Start with
                | some (frs, seg) => .ok (frs, seg + 1)
                | none => .panic
              else .ok (frs, gap)
            stored.bind fun (frs, gap) =>
              match err with
              | some e => .ok (frs, mf, s, some e)
              | none => fillLoop fuel required optional readAt n (frs, mf, s) gap
    else .ok (frs, mf, s, none)

/-- `FileRangeSet.Fill`, with `fuel` turns for each of its loops: the set, the memory file and
the state of `readAt` it leaves, and the error it returns. -/
def FileRangeSet.fill (frs : FileRangeSet) (fuel : ℕ) (required optional : Range) (mf : MemoryFile)
    (readAt : σ → ℕ → ℕ → σ × List UInt8 × Option (ReadErr ε)) (s : σ) :
    Outcome Unit (FileRangeSet × MemoryFile × σ × Option (ReadErr ε)) :=
  fillLoop fuel required optional readAt fuel (frs, mf, s) (lowerBoundGap frs required.Start)

/-- The loop of `Truncate` that frees the segments from `seg` on. -/
def truncateLoop : ℕ → FileRangeSet → ℕ → FileRangeSet
  | 0, frs, _ => frs
  | fuel + 1, frs, seg =>
    if seg < frs.length then
      -- `mf.DecRef(seg.FileRange())`, then `Remove(seg).NextSegment()`
      let (frs, gap) := remove frs seg
      truncateLoop fuel frs gap
    else frs

/-- `FileRangeSet.Truncate` to the new end of file `end'`. -/
def FileRangeSet.truncate (frs : FileRangeSet) (end' : ℕ) (mf : MemoryFile) : FileRangeSet × MemoryFile :=
  let (pgendaddr, ok) := Usermem.Addr.roundUp (UInt64.ofNat end')
  let pgend := pgendaddr.toNat
  -- free the truncated pages
  let frs :=
    if ok then
      let frs := (splitAt fileRangeSetFunctions frs pgend).1
      truncateLoop (frs.length + 1) frs (lowerBoundSegment frs pgend)
    else frs
  if ok ∧ end' = pgend then (frs, mf)
  else
    -- zero the cached bytes past the new end of file on its page
    let seg := findSegment frs end'
    if seg < frs.length then
      let fr := fileRangeOf frs seg (segRange frs seg)
      (frs, mf.zero ⟨fr.Start + (end' - segStart frs seg), fr.End⟩)
    else (frs, mf)

/-- `Fill` of the page `[0, 0x1000)` of an empty set, where `readAt` returns 100 bytes and
`io.EOF`: the page is inserted, backed by newly allocated memory that holds the 100 bytes and
zeroes after them, which is the whole gap range, and yet `Fill` returns `io.EOF`, since the
reader's check that its destination is full looks at the destination the rounding did not
shorten. -/
theorem fill_eof_mid_page_returns_eof :
    ((fun r => (r.1, r.2.2.2)) <$> FileRangeSet.fill [] 3 ⟨0, 4096⟩ ⟨0, 4096⟩ ⟨fun _ => 1, 0⟩
        (fun (_ : Unit) _ _ => ((), List.replicate 100 7, some (ReadErr.EOF : ReadErr Unit))) ()) =
      .ok ([(⟨0, 4096⟩, 0)], some .EOF) ∧
    ((fun r => (r.2.1.data 50, r.2.1.data 200, r.2.1.data 4095)) <$> FileRangeSet.fill [] 3 ⟨0, 4096⟩
        ⟨0, 4096⟩ ⟨fun _ => 1, 0⟩
        (fun (_ : Unit) _ _ => ((), List.replicate 100 7, some (ReadErr.EOF : ReadErr Unit))) ()) =
      .ok (7, 0, 0) :=
  ⟨by decide, by decide⟩

end Fsutil
