import Gvisor.Fragmentation.Holes
import Mathlib.Data.Nat.Find

/-! A datagram delivered to one reassembler, fragment by fragment, in any
order. While the fragments given so far leave an offset of the datagram out,
the reassembler keeps `Inv`: the offsets in its live holes are exactly those
left out, and the fragments in its heap are fragments of the datagram that
together hold every offset given. So `process` reports the datagram complete
exactly at the first fragment after which every offset has been given, and
`reassemble`, popping the heap in order of offset, returns the datagram's
bytes (`process_done_at_first_cover`).

That every fragment that says no more follow ends the datagram is what keeps
the holes right: the hole past the end of the datagram is closed only by such
a fragment, and the piece after a fragment is kept only when more follow. -/

namespace Fragmentation

/-- A fragment the heap holds, of the datagram `d`: not empty, inside it, and
its bytes are those of `d` at its offset. -/
def Fragment.Of (d : List UInt8) (x : Fragment) : Prop :=
  x.vv ≠ [] ∧ x.offset.toNat + x.vv.length ≤ d.length ∧
    x.vv = (d.drop x.offset.toNat).take x.vv.length

/-- The fragment `x` holds the byte at offset `p`. -/
def Fragment.Holds (x : Fragment) (p : ℕ) : Prop :=
  x.offset.toNat ≤ p ∧ p < x.offset.toNat + x.vv.length

instance (d : List UInt8) (g : Incoming) : Decidable (g.Of d) :=
  inferInstanceAs (Decidable (_ ∧ _ ∧ _ ∧ _))

/-- What `process` stores of a fragment of `d`: a fragment of `d` that holds
the offsets from `first` to `last`. -/
theorem Incoming.Of.fragment {d : List UInt8} {g : Incoming} (hg : g.Of d) :
    Fragment.Of d ⟨g.first, g.vv⟩ ∧
      ∀ p, Fragment.Holds ⟨g.first, g.vv⟩ p ↔ g.first.toNat ≤ p ∧ p ≤ g.last.toNat := by
  obtain ⟨hfl, hl, hvv, -⟩ := hg
  have hfl' := UInt16.le_iff_toNat_le.1 hfl
  have hlen : g.vv.length = g.last.toNat + 1 - g.first.toNat := by
    rw [hvv, List.length_take, List.length_drop]
    omega
  refine ⟨⟨?_, ?_, ?_⟩, fun p => ?_⟩
  · intro h0
    change g.vv = [] at h0
    rw [h0, List.length_nil] at hlen
    omega
  · dsimp only
    omega
  · dsimp only
    rw [hlen]
    exact hvv
  · simp only [Fragment.Holds]
    omega

theorem weakOrder_fragLess : Heap.WeakOrder fragLess where
  asymm a b h := by
    simp only [fragLess, decide_eq_true_eq, decide_eq_false_iff_not,
      UInt16.lt_iff_toNat_lt] at h ⊢
    omega
  not_trans a b c hab hbc := by
    simp only [fragLess, decide_eq_false_iff_not, UInt16.lt_iff_toNat_lt] at hab hbc ⊢
    omega

theorem offset_le_of_fragLess {x y : Fragment} (h : fragLess y x = false) :
    x.offset.toNat ≤ y.offset.toNat := by
  simp only [fragLess, decide_eq_false_iff_not, UInt16.lt_iff_toNat_lt] at h
  omega

section Reassemble

variable {d : List UInt8}

/-- A fragment joined to the bytes `views`, a prefix of `d` that reaches at
least its offset, makes a longer prefix of `d`. -/
theorem take_append_drop {views : List UInt8} {x : Fragment} (hx : x.Of d)
    (hv : views = d.take views.length) (hoff : x.offset.toNat ≤ views.length) :
    views ++ x.vv.drop (views.length - x.offset.toNat) =
      d.take (max views.length (x.offset.toNat + x.vv.length)) := by
  obtain ⟨-, -, hvv⟩ := hx
  generalize views.length = v at hv hoff ⊢
  generalize x.offset.toNat = o at hvv hoff ⊢
  generalize x.vv.length = n at hvv ⊢
  rw [hvv, List.drop_take, List.drop_drop, Nat.add_sub_cancel' hoff, hv, ← List.take_add]
  congr 1
  omega

/-- The loop of `reassemble`, from bytes that are a prefix of `d`, over a heap
of fragments of `d` that hold every offset past them: it returns `d` and an
empty heap. -/
theorem reassembleLoop_eq :
    ∀ (fuel : ℕ) (h : List Fragment) (views : List UInt8), Heap.IsHeap fragLess h →
      h.length ≤ fuel → (∀ x ∈ h, x.Of d) → views = d.take views.length →
      views.length ≤ d.length → (∀ p, views.length ≤ p → p < d.length → ∃ x ∈ h, x.Holds p) →
      reassembleLoop fuel h views = .ok (d, [])
  | fuel, h, views, hh, hfuel, hof, hv, hvl, hcov => by
    -- with nothing left to pop, the bytes are all of `d`
    have hdone : h = [] → reassembleLoop fuel [] views = .ok (d, []) := by
      rintro rfl
      have hlen : views.length = d.length := by
        by_contra hne
        obtain ⟨x, hx, -⟩ := hcov views.length (Nat.le_refl _) (by omega)
        cases hx
      have hview : views = d := by rw [hv, hlen, List.take_length]
      rw [hview]
      cases fuel <;> rfl
    cases fuel with
    | zero => rw [List.length_eq_zero_iff.1 (Nat.le_zero.1 hfuel)] at hdone ⊢; exact hdone rfl
    | succ fuel =>
      cases hp : Heap.pop fragLess h with
      | none =>
        have h0 := Heap.pop_eq_none_iff.1 hp
        subst h0
        exact hdone rfl
      | some ch =>
        obtain ⟨curr, h'⟩ := ch
        obtain ⟨hmin, hh', hperm⟩ := Heap.pop_isHeap weakOrder_fragLess hh hp
        have hmem : ∀ x, x ∈ h ↔ x = curr ∨ x ∈ h' := fun x => by
          rw [← hperm.mem_iff, List.mem_cons]
        have hcurr : curr.Of d := hof curr ((hmem curr).2 (.inl rfl))
        have hend := hcurr.2.1
        have hpos : 0 < curr.vv.length := List.length_pos_iff.2 hcurr.1
        -- the least offset is not past the bytes joined so far
        have hoff : curr.offset.toNat ≤ views.length := by
          by_contra hgt
          obtain ⟨x, hx, hxp, -⟩ := hcov views.length (Nat.le_refl _) (by omega)
          have := offset_le_of_fragLess (hmin x hx)
          omega
        have hstep : reassembleLoop (fuel + 1) h views =
            reassembleLoop fuel h' (views ++ curr.vv.drop (views.length - curr.offset.toNat)) := by
          rw [reassembleLoop, hp]
          dsimp only
          by_cases hlt : curr.offset.toNat < views.length
          · rw [if_pos hlt]
          · rw [if_neg hlt, if_neg (by omega), show views.length - curr.offset.toNat = 0 by omega,
              List.drop_zero]
        have hext := take_append_drop hcurr hv hoff
        have hlen' : (views ++ curr.vv.drop (views.length - curr.offset.toNat)).length =
            max views.length (curr.offset.toNat + curr.vv.length) := by
          rw [hext, List.length_take]
          omega
        rw [hstep]
        refine reassembleLoop_eq fuel h' _ hh' ?_ (fun x hx => hof x ((hmem x).2 (.inr hx)))
          (by rw [hlen', hext]) (by omega) ?_
        · have := hperm.length_eq
          rw [List.length_cons] at this
          omega
        · -- an offset past the new bytes is held by a fragment still in the heap
          intro p hp1 hp2
          obtain ⟨x, hx, hxp⟩ := hcov p (by omega) hp2
          rcases (hmem x).1 hx with rfl | hx'
          · have := hxp.2
            omega
          · exact ⟨x, hx', hxp⟩

/-- `reassemble` of a heap of fragments of `d` that together hold every
offset of `d` returns `d`. -/
theorem reassemble_eq (hd : 0 < d.length) {h : List Fragment} (hh : Heap.IsHeap fragLess h)
    (hof : ∀ x ∈ h, x.Of d) (hcov : ∀ p < d.length, ∃ x ∈ h, x.Holds p) :
    reassemble h = .ok (d, []) := by
  obtain ⟨x₀, hx₀, hx₀p⟩ := hcov 0 hd
  have hne : h ≠ [] := by
    rintro rfl
    cases hx₀
  have hsome : (Heap.pop fragLess h).isSome := Heap.isSome_pop hne
  obtain ⟨⟨curr, h'⟩, hp⟩ := Option.isSome_iff_exists.1 hsome
  obtain ⟨hmin, hh', hperm⟩ := Heap.pop_isHeap weakOrder_fragLess hh hp
  have hmem : ∀ x, x ∈ h ↔ x = curr ∨ x ∈ h' := fun x => by
    rw [← hperm.mem_iff, List.mem_cons]
  have hcurr : curr.Of d := hof curr ((hmem curr).2 (.inl rfl))
  -- the least offset is that of the fragment holding offset 0
  have h0 : curr.offset = 0 := by
    have := offset_le_of_fragLess (hmin x₀ hx₀)
    have := hx₀p.1
    exact UInt16.toNat_inj.1 (by simp only [UInt16.toNat_zero]; omega)
  rw [reassemble, hp]
  dsimp only
  rw [if_neg (by simp [h0])]
  obtain ⟨-, hend, hvv⟩ := hcurr
  refine reassembleLoop_eq _ h' _ hh' (Nat.le_refl _) (fun x hx => hof x ((hmem x).2 (.inr hx)))
    ?_ (by omega) ?_
  · rw [h0, UInt16.toNat_zero, List.drop_zero] at hvv
    exact hvv
  · intro p hp1 hp2
    obtain ⟨x, hx, hxp⟩ := hcov p hp2
    rcases (hmem x).1 hx with rfl | hx'
    · have := hxp.2
      rw [h0, UInt16.toNat_zero] at this
      omega
    · exact ⟨x, hx', hxp⟩

end Reassemble

namespace Reassembler

/-- What `process` does before it asks whether the datagram is complete: the
holes updated, and the fragment stored if it filled some hole, with the bytes
it consumed. -/
def accept (r : Reassembler) (first last : UInt16) (more : Bool) (vv : List UInt8) :
    Reassembler × ℕ :=
  let (r, used) := r.updateHoles first last more
  if used then
    ({ r with heap := Heap.push fragLess r.heap ⟨first, vv⟩, size := r.size + vv.length },
      vv.length)
  else (r, 0)

variable {r : Reassembler} {first last : UInt16} {more : Bool} {vv : List UInt8}

/-- `process` of a reassembler not yet done: `accept`, then the test of
completion. -/
theorem process_eq_accept (hd : r.done = false) :
    r.process first last more vv =
      if (r.accept first last more vv).1.deleted < (r.accept first last more vv).1.holes.length
      then .ok (([], false, (r.accept first last more vv).2), (r.accept first last more vv).1)
      else
        match reassemble (r.accept first last more vv).1.heap with
        | .ok (res, heap) =>
          .ok ((res, true, (r.accept first last more vv).2),
            { (r.accept first last more vv).1 with heap })
        | .error _ => .panic
        | .panic => .panic
        | .hang => .hang := by
  unfold process
  split
  · rename_i hdone
    rw [hd] at hdone
    cases hdone
  · unfold accept
    rcases r.updateHoles first last more with ⟨r1, _ | _⟩ <;> rfl

theorem accept_holes :
    (r.accept first last more vv).1.holes =
      r.holes.map (markHole first last) ++ r.holes.flatMap (pieces first last more) := by
  unfold accept
  rw [updateHoles_eq]
  dsimp only
  split <;> rfl

theorem accept_deleted :
    (r.accept first last more vv).1.deleted = r.deleted + r.holes.countP (hits first last) := by
  unfold accept
  rw [updateHoles_eq]
  dsimp only
  split <;> rfl

theorem accept_done : (r.accept first last more vv).1.done = r.done := by
  unfold accept
  rw [updateHoles_eq]
  dsimp only
  split <;> rfl

theorem accept_heap :
    (r.accept first last more vv).1.heap =
      if r.holes.any (hits first last) then Heap.push fragLess r.heap ⟨first, vv⟩ else r.heap := by
  unfold accept
  rw [updateHoles_eq]
  dsimp only
  split <;> simp_all

end Reassembler

open Reassembler

/-- A reassembler given the fragments `pre` of the datagram `d`: it is not
done, it counts its deleted holes, each live hole is a range that starts
inside `d`, its live holes hold exactly the offsets of `d` that `pre` leaves
out, and its heap is a heap of fragments of `d` that hold exactly the offsets
`pre` gives. -/
structure Inv (d : List UInt8) (pre : List Incoming) (r : Reassembler) : Prop where
  not_done : r.done = false
  deleted : r.deleted = r.holes.countP (·.deleted)
  live : ∀ h ∈ r.holes, h.deleted = false → h.first ≤ h.last ∧ h.first.toNat < d.length
  missing : ∀ p < d.length, Missing r.holes p ↔ ¬ Covered pre p
  heap : Heap.IsHeap fragLess r.heap
  stored : ∀ x ∈ r.heap, x.Of d
  covered : ∀ p < d.length, Covered pre p ↔ ∃ x ∈ r.heap, x.Holds p

variable {d : List UInt8} {pre : List Incoming} {r : Reassembler} {g : Incoming}

theorem Inv.init (hd : 0 < d.length ∧ d.length ≤ 65536) (id : UInt32) (now : Int) :
    Inv d [] (newReassembler id now) where
  not_done := rfl
  deleted := rfl
  live h hh _ := by
    simp only [newReassembler, List.mem_singleton] at hh
    subst hh
    exact ⟨by decide, by simp only [UInt16.toNat_zero]; omega⟩
  missing p hp := by
    constructor
    · rintro - ⟨g, hg, -⟩
      cases hg
    · intro _
      refine ⟨⟨0, 65535, false⟩, List.mem_singleton_self _, rfl, Nat.zero_le _, ?_⟩
      change p ≤ (65535 : UInt16).toNat
      have : (65535 : UInt16).toNat = 65535 := rfl
      omega
  heap k a _ _ _ ha _ := by simp [newReassembler] at ha
  stored x hx := by simp [newReassembler] at hx
  covered p _ := by simp [Covered, newReassembler]

/-- A fragment that says more follow does not end the datagram. -/
theorem Incoming.Of.last_lt {g : Incoming} (hg : g.Of d) (hm : g.more = true) :
    g.last.toNat + 1 < d.length := by
  obtain ⟨-, hl, -, hmore⟩ := hg
  have : g.last.toNat + 1 ≠ d.length := fun h => by
    rw [← hmore] at h
    rw [hm] at h
    cases h
  omega

/-- For an offset of `d`, the live holes after `updateHoles` with a fragment
of `d` hold what they held before, less the fragment's offsets. -/
theorem missing_accept (hg : g.Of d) {p : ℕ} (hp : p < d.length) :
    Missing (r.accept g.first g.last g.more g.vv).1.holes p ↔
      Missing r.holes p ∧ ¬ (g.first.toNat ≤ p ∧ p ≤ g.last.toNat) := by
  rw [accept_holes, missing_updateHoles]
  constructor
  · rintro ⟨h, hh, hlive, hp1, hp2, hcase⟩
    refine ⟨⟨h, hh, hlive, hp1, hp2⟩, ?_⟩
    rintro ⟨hg1, hg2⟩
    rcases hcase with hx | hlt | ⟨hgt, -⟩
    · -- a live hole that holds an offset of the fragment meets it
      have : hits g.first g.last h = true := hits_eq_true.2 ⟨hlive, by omega, by omega⟩
      rw [hx] at this
      cases this
    · omega
    · omega
  · rintro ⟨⟨h, hh, hlive, hp1, hp2⟩, hout⟩
    refine ⟨h, hh, hlive, hp1, hp2, ?_⟩
    by_cases hlt : p < g.first.toNat
    · exact .inr (.inl hlt)
    · -- past the fragment and inside `d`: more fragments follow
      have hgt : g.last.toNat < p := by omega
      cases hm : g.more
      · have := hg.2.2.2.1 hm
        omega
      · exact .inr (.inr ⟨hgt, rfl⟩)

/-- A fragment that filled no hole brings no offset not given before. -/
theorem covered_of_not_used (hi : Inv d pre r)
    (hu : r.holes.any (hits g.first g.last) = false) {p : ℕ} (hp : p < d.length)
    (hin : g.first.toNat ≤ p ∧ p ≤ g.last.toNat) : Covered pre p := by
  by_contra hnc
  obtain ⟨h, hh, hlive, hp1, hp2⟩ := (hi.missing p hp).2 hnc
  have hx : hits g.first g.last h = true := hits_eq_true.2 ⟨hlive, by omega, by omega⟩
  exact List.any_eq_false.1 hu h hh hx

/-- `accept` with a fragment of `d` keeps `Inv`, with the fragment given. -/
theorem Inv.accept (hi : Inv d pre r) (hg : g.Of d) :
    Inv d (pre ++ [g]) (r.accept g.first g.last g.more g.vv).1 where
  not_done := by rw [accept_done, hi.not_done]
  deleted := by rw [accept_deleted, accept_holes, countP_deleted_updateHoles, hi.deleted]
  live := by
    rw [accept_holes]
    exact wf_updateHoles hi.live hg.last_lt
  missing p hp := by
    rw [missing_accept hg hp, hi.missing p hp, covered_append_singleton]
    tauto
  heap := by
    rw [accept_heap]
    split
    · exact (Heap.push_isHeap weakOrder_fragLess hi.heap _).1
    · exact hi.heap
  stored x hx := by
    rw [accept_heap] at hx
    split at hx
    · rcases List.mem_append.1 ((Heap.push_isHeap weakOrder_fragLess hi.heap _).2.mem_iff.1 hx)
        with hx | hx
      · exact hi.stored x hx
      · rw [List.mem_singleton] at hx
        subst hx
        exact hg.fragment.1
    · exact hi.stored x hx
  covered p hp := by
    rw [covered_append_singleton, hi.covered p hp, accept_heap]
    split
    · -- the fragment is stored, and holds its own offsets
      rename_i hu
      have hperm := (Heap.push_isHeap weakOrder_fragLess hi.heap ⟨g.first, g.vv⟩).2
      simp only [hperm.mem_iff, List.mem_append, List.mem_singleton, ← hg.fragment.2 p]
      constructor
      · rintro (⟨x, hx, hxp⟩ | hgp)
        · exact ⟨x, .inl hx, hxp⟩
        · exact ⟨_, .inr rfl, hgp⟩
      · rintro ⟨x, hx | rfl, hxp⟩
        · exact .inl ⟨x, hx, hxp⟩
        · exact .inr hxp
    · rename_i hu
      have hu' : r.holes.any (hits g.first g.last) = false := by simpa using hu
      refine ⟨?_, .inl⟩
      rintro (hc | hin)
      · exact hc
      · exact (hi.covered p hp).1 (covered_of_not_used hi hu' hp hin)

/-- The test of `process`: a live hole is left exactly when an offset of `d`
has not been given. -/
theorem Inv.incomplete_iff (hi : Inv d pre r) :
    r.deleted < r.holes.length ↔ ¬ Covers pre d.length := by
  rw [hi.deleted]
  constructor
  · intro hlt hcov
    have : ∃ h ∈ r.holes, h.deleted = false := by
      by_contra hall
      have hall' : r.holes.countP (·.deleted) = r.holes.length :=
        List.countP_eq_length.2 fun h hh => by
          cases hd : h.deleted
          · exact absurd ⟨h, hh, hd⟩ hall
          · rfl
      omega
    obtain ⟨h, hh, hlive⟩ := this
    obtain ⟨hfl, hlt'⟩ := hi.live h hh hlive
    have hm : Missing r.holes h.first.toNat :=
      ⟨h, hh, hlive, Nat.le_refl _, UInt16.le_iff_toNat_le.1 hfl⟩
    exact (hi.missing _ hlt').1 hm (hcov _ hlt')
  · intro hnc
    simp only [Covers, not_forall] at hnc
    obtain ⟨p, hp, hnp⟩ := hnc
    obtain ⟨h, hh, hlive, -⟩ := (hi.missing p hp).2 hnp
    have hle := List.countP_le_length (p := (·.deleted)) (l := r.holes)
    have hne : r.holes.countP (·.deleted) ≠ r.holes.length := fun heq => by
      have := List.countP_eq_length.1 heq h hh
      simp [hlive] at this
    omega

/-- One `process` call with a fragment of `d`: it returns the datagram, done,
when the fragments given cover it, and returns nothing otherwise, keeping
`Inv`. -/
theorem Inv.process (hi : Inv d pre r) (hg : g.Of d) (hd : 0 < d.length) :
    (Covers (pre ++ [g]) d.length →
      ∃ consumed r', r.process g.first g.last g.more g.vv = .ok ((d, true, consumed), r')) ∧
    (¬ Covers (pre ++ [g]) d.length →
      ∃ consumed r', r.process g.first g.last g.more g.vv = .ok (([], false, consumed), r') ∧
        Inv d (pre ++ [g]) r') := by
  have ha := hi.accept hg
  rw [process_eq_accept hi.not_done]
  constructor
  · intro hcov
    rw [if_neg (fun h => (ha.incomplete_iff.1 h) hcov)]
    have hre := reassemble_eq hd ha.heap ha.stored fun p hp => (ha.covered p hp).1 (hcov p hp)
    rw [hre]
    exact ⟨_, _, rfl⟩
  · intro hnc
    rw [if_pos (ha.incomplete_iff.2 hnc)]
    exact ⟨_, _, rfl, ha⟩

/-- `process` called with each fragment in turn: the results of the calls and
the reassembler after them. -/
def processAll (r : Reassembler) :
    List Incoming → Outcome Unit (List (List UInt8 × Bool × ℕ) × Reassembler)
  | [] => .ok ([], r)
  | g :: gs => do
    let (res, r) ← r.process g.first g.last g.more g.vv
    let (ress, r) ← processAll r gs
    return (res :: ress, r)

theorem Covers.mono {gs hs : List Incoming} {n : ℕ} (h : Covers gs n) (hsub : gs ⊆ hs) :
    Covers hs n := fun p hp => (h p hp).mono hsub

/-- Fragments of `d` given in turn to a reassembler that keeps `Inv`, all but
the last leaving an offset out: every call returns, and each reports the
datagram done, with its bytes, exactly when the fragments given so far cover
it, and returns nothing otherwise. -/
theorem Inv.processAll_done_iff (hd : 0 < d.length) :
    ∀ (gs pre : List Incoming) (r : Reassembler), Inv d pre r → (∀ g ∈ gs, g.Of d) →
      ¬ Covers (pre ++ gs.dropLast) d.length →
      ∃ ress r', processAll r gs = .ok (ress, r') ∧ ress.length = gs.length ∧
        ∀ i x, ress[i]? = some x →
          (x.2.1 = true ↔ Covers (pre ++ gs.take (i + 1)) d.length) ∧
          x.1 = if x.2.1 then d else []
  | [], _, r, _, _, _ => ⟨[], r, rfl, rfl, fun _ _ hx => by simp at hx⟩
  | g :: gs, pre, r, hi, hof, hnc => by
    have hg := hof g List.mem_cons_self
    obtain ⟨hdone, hnext⟩ := hi.process hg hd
    by_cases hcov : Covers (pre ++ [g]) d.length
    · -- the fragment completes the datagram, and it is the last one
      have hgs : gs = [] := by
        by_contra hne
        rw [List.dropLast_cons_of_ne_nil hne] at hnc
        exact hnc (hcov.mono (by simp))
      subst hgs
      obtain ⟨consumed, r', hp⟩ := hdone hcov
      refine ⟨[(d, true, consumed)], r', ?_, rfl, ?_⟩
      · simp only [Fragmentation.processAll, hp, Outcome.ok_bind, Outcome.pure_eq]
      · intro i x hx
        rcases i with _ | i
        · simp only [List.getElem?_cons_zero, Option.some.injEq] at hx
          subst hx
          exact ⟨iff_of_true rfl hcov, rfl⟩
        · simp at hx
    · obtain ⟨consumed, r', hp, hi'⟩ := hnext hcov
      have hnc' : ¬ Covers ((pre ++ [g]) ++ gs.dropLast) d.length := by
        by_cases hgs : gs = []
        · rw [hgs, List.dropLast_nil, List.append_nil]
          exact hcov
        · rw [List.dropLast_cons_of_ne_nil hgs] at hnc
          simpa using hnc
      obtain ⟨ress, r'', hrun, hlen, hres⟩ :=
        Inv.processAll_done_iff hd gs (pre ++ [g]) r' hi' (fun g' hg' => hof g' (List.mem_cons_of_mem _ hg'))
          hnc'
      refine ⟨([], false, consumed) :: ress, r'', ?_, by simp [hlen], ?_⟩
      · simp only [Fragmentation.processAll, hp, hrun, Outcome.ok_bind, Outcome.pure_eq]
      · intro i x hx
        rcases i with _ | i
        · simp only [List.getElem?_cons_zero, Option.some.injEq] at hx
          subst hx
          exact ⟨iff_of_false (by simp) (by simpa using hcov), rfl⟩
        · rw [List.getElem?_cons_succ] at hx
          have := hres i x hx
          rw [List.take_succ_cons, List.append_cons pre g]
          exact this

/-- A datagram of `1` to `65536` bytes, and its fragments given in any order,
with repeats and overlaps, to one new reassembler: `process` reports the
datagram done at the first fragment after which the fragments given cover it,
and not before, and then returns its bytes. -/
theorem process_done_at_first_cover (d : List UInt8) (hd : 0 < d.length ∧ d.length ≤ 65536)
    (fs : List Incoming) (hof : ∀ g ∈ fs, g.Of d) (hcov : Covers fs d.length) (id : UInt32)
    (now : Int) :
    ∃ k < fs.length, ¬ Covers (fs.take k) d.length ∧ Covers (fs.take (k + 1)) d.length ∧
      ∃ ress r, processAll (newReassembler id now) (fs.take (k + 1)) = .ok (ress, r) ∧
        ress.length = k + 1 ∧
        (∀ i < k, ∀ x, ress[i]? = some x → x.1 = [] ∧ x.2.1 = false) ∧
        ∃ consumed, ress[k]? = some (d, true, consumed) := by
  -- the first prefix that covers the datagram
  have hex : ∃ k, Covers (fs.take (k + 1)) d.length :=
    ⟨fs.length, by rw [List.take_of_length_le (by omega)]; exact hcov⟩
  obtain ⟨k, hk, hfirst⟩ : ∃ k, Covers (fs.take (k + 1)) d.length ∧
      ∀ m < k, ¬ Covers (fs.take (m + 1)) d.length :=
    ⟨Nat.find hex, Nat.find_spec hex, fun m hm => Nat.find_min hex hm⟩
  have hmin : ¬ Covers (fs.take k) d.length := by
    rcases Nat.eq_zero_or_pos k with h0 | hpos
    · rw [h0, List.take_zero]
      intro h
      obtain ⟨g, hg, -⟩ := h 0 hd.1
      cases hg
    · have := hfirst (k - 1) (by omega)
      rwa [Nat.sub_add_cancel hpos] at this
  have hklt : k < fs.length := by
    by_contra hge
    rw [List.take_of_length_le (by omega)] at hmin
    exact hmin hcov
  have hdrop : (fs.take (k + 1)).dropLast = fs.take k := by
    rw [List.dropLast_eq_take, List.take_take, List.length_take]
    congr 1
    omega
  obtain ⟨ress, r, hrun, hlen, hres⟩ :=
    (Inv.init hd id now).processAll_done_iff hd.1 (fs.take (k + 1)) [] _
      (fun g hg => hof g (List.mem_of_mem_take hg)) (by rw [List.nil_append, hdrop]; exact hmin)
  rw [List.length_take, Nat.min_eq_left (by omega)] at hlen
  refine ⟨k, hklt, hmin, hk, ress, r, hrun, hlen, ?_, ?_⟩
  · -- no earlier call reports the datagram done
    intro i hi x hx
    obtain ⟨hdone, hbytes⟩ := hres i x hx
    have hf : x.2.1 = false := by
      cases hb : x.2.1
      · rfl
      · have hc := hdone.1 hb
        rw [List.nil_append, List.take_take, Nat.min_eq_left (by omega)] at hc
        exact absurd (hc.mono (List.take_subset_take_left _ (by omega))) hmin
    rw [hf] at hbytes
    exact ⟨hbytes, hf⟩
  · obtain ⟨x, hx⟩ : ∃ x, ress[k]? = some x :=
      ⟨_, List.getElem?_eq_getElem (by omega)⟩
    obtain ⟨hdone, hbytes⟩ := hres k x hx
    have ht : x.2.1 = true := by
      rw [hdone, List.nil_append, List.take_take, Nat.min_self]
      exact hk
    rw [ht, if_pos rfl] at hbytes
    refine ⟨x.2.2, ?_⟩
    rw [hx]
    obtain ⟨a, b, c⟩ := x
    dsimp only at hbytes ht ⊢
    rw [hbytes, ht]

theorem process_done_at_first_cover_two_orders :
    (0 < [1, 2, 3, 4].length ∧ [1, 2, 3, 4].length ≤ 65536) ∧
      (∀ g ∈ [⟨2, 3, false, [3, 4]⟩, ⟨0, 1, true, [1, 2]⟩, ⟨1, 2, true, [2, 3]⟩],
        Incoming.Of [1, 2, 3, 4] g) ∧
      Covers [⟨2, 3, false, [3, 4]⟩, ⟨0, 1, true, [1, 2]⟩, ⟨1, 2, true, [2, 3]⟩] 4 ∧
      ∃ k < 3, ¬ Covers (List.take k
          [⟨2, 3, false, [3, 4]⟩, ⟨0, 1, true, [1, 2]⟩, ⟨1, 2, true, [2, 3]⟩]) 4 ∧
        Covers (List.take (k + 1)
          [⟨2, 3, false, [3, 4]⟩, ⟨0, 1, true, [1, 2]⟩, ⟨1, 2, true, [2, 3]⟩]) 4 ∧
        ∃ ress r, processAll (newReassembler 0 0) (List.take (k + 1)
            [⟨2, 3, false, [3, 4]⟩, ⟨0, 1, true, [1, 2]⟩, ⟨1, 2, true, [2, 3]⟩]) = .ok (ress, r) ∧
          ress.length = k + 1 ∧
          (∀ i < k, ∀ x, ress[i]? = some x → x.1 = [] ∧ x.2.1 = false) ∧
          ∃ consumed, ress[k]? = some ([1, 2, 3, 4], true, consumed) :=
  ⟨by decide, by decide, by decide,
    process_done_at_first_cover [1, 2, 3, 4] (by decide)
      [⟨2, 3, false, [3, 4]⟩, ⟨0, 1, true, [1, 2]⟩, ⟨1, 2, true, [2, 3]⟩] (by decide) (by decide)
      0 0⟩

end Fragmentation
