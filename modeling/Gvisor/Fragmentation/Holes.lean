import Gvisor.Fragmentation.Reassembler

/-! The holes of a reassembler, read as the offsets they leave missing
(RFC 815). `updateHoles` is, in one step (`updateHoles_eq`): every hole it
starts with that the fragment meets is marked deleted, and what is left of
that hole on either side of the fragment is appended, the part after it only
when more fragments follow. The offsets in live holes after it are then those
before it, less the fragment's, and less those past the fragment's end when it
says it is the last (`missing_updateHoles`).

A fragment is given by the arguments of `process`, an `Incoming`; `Of d`
says which of them are fragments of the datagram `d`. -/

namespace Fragmentation

/-- The arguments of one `process` call: the offsets of the fragment's first
and last byte, whether more fragments follow, and its bytes. -/
structure Incoming where
  first : UInt16
  last : UInt16
  more : Bool
  vv : List UInt8
  deriving DecidableEq, Repr

/-- A fragment of the datagram `d`: its bytes are those of `d` from `first` to
`last`, and it says that no more follow exactly when it ends the datagram. -/
def Incoming.Of (d : List UInt8) (g : Incoming) : Prop :=
  g.first ≤ g.last ∧ g.last.toNat < d.length ∧
    g.vv = (d.drop g.first.toNat).take (g.last.toNat + 1 - g.first.toNat) ∧
    (g.more = false ↔ g.last.toNat + 1 = d.length)

/-- Offset `p` is in one of the fragments `gs`. -/
def Covered (gs : List Incoming) (p : ℕ) : Prop :=
  ∃ g ∈ gs, g.first.toNat ≤ p ∧ p ≤ g.last.toNat

/-- The fragments `gs` cover the offsets below `n`. -/
def Covers (gs : List Incoming) (n : ℕ) : Prop := ∀ p < n, Covered gs p

instance (gs : List Incoming) (p : ℕ) : Decidable (Covered gs p) :=
  inferInstanceAs (Decidable (∃ g ∈ gs, g.first.toNat ≤ p ∧ p ≤ g.last.toNat))

instance (gs : List Incoming) (n : ℕ) : Decidable (Covers gs n) :=
  inferInstanceAs (Decidable (∀ p, p < n → Covered gs p))

theorem covered_append_singleton {gs : List Incoming} {g : Incoming} {p : ℕ} :
    Covered (gs ++ [g]) p ↔ Covered gs p ∨ (g.first.toNat ≤ p ∧ p ≤ g.last.toNat) := by
  simp only [Covered, List.mem_append, List.mem_singleton]
  constructor
  · rintro ⟨g', hg' | rfl, hp⟩
    · exact .inl ⟨g', hg', hp⟩
    · exact .inr hp
  · rintro (⟨g', hg', hp⟩ | hp)
    · exact ⟨g', .inl hg', hp⟩
    · exact ⟨g, .inr rfl, hp⟩

theorem Covered.mono {gs hs : List Incoming} {p : ℕ} (h : Covered gs p) (hsub : gs ⊆ hs) :
    Covered hs p := by
  obtain ⟨g, hg, hp⟩ := h
  exact ⟨g, hsub hg, hp⟩

/-- Offset `p` is in a live hole. -/
def Missing (holes : List Hole) (p : ℕ) : Prop :=
  ∃ h ∈ holes, h.deleted = false ∧ h.first.toNat ≤ p ∧ p ≤ h.last.toNat

namespace Reassembler

variable (first last : UInt16) (more : Bool)

/-- The fragment from `first` to `last` meets the live hole `h`: the test of
the loop of `updateHoles`, negated. -/
def hits (h : Hole) : Bool := !(h.deleted || first > h.last || last < h.first)

/-- A hole the loop of `updateHoles` starts with, after the loop. -/
def markHole (h : Hole) : Hole := if hits first last h then { h with deleted := true } else h

/-- The holes the loop of `updateHoles` appends for a hole it starts with:
what is left of it before the fragment and, when more fragments follow, after
it. -/
def pieces (h : Hole) : List Hole :=
  if hits first last h then
    (if first > h.first then [⟨h.first, first - 1, false⟩] else []) ++
      (if last < h.last && more then [⟨last + 1, h.last, false⟩] else [])
  else []

variable {first last more}

theorem hits_eq_true {h : Hole} :
    hits first last h = true ↔
      h.deleted = false ∧ first.toNat ≤ h.last.toNat ∧ h.first.toNat ≤ last.toNat := by
  unfold hits
  cases h.deleted <;> simp [UInt16.lt_iff_toNat_lt]

/-- One turn of the loop of `updateHoles`, on a hole that is there. -/
theorem updateHolesStep_eq {holes : List Hole} {i : ℕ} {h : Hole} (hi : holes[i]? = some h)
    (deleted : ℕ) (used : Bool) :
    updateHolesStep first last more (holes, deleted, used) i =
      (holes.set i (markHole first last h) ++ pieces first last more h,
        deleted + (if hits first last h then 1 else 0), used || hits first last h) := by
  unfold updateHolesStep
  dsimp only
  rw [hi]
  dsimp only
  cases hh : hits first last h
  · -- a hole the fragment does not meet stays, and nothing is appended
    have hc : (h.deleted || first > h.last || last < h.first) = true := by
      unfold hits at hh
      cases hx : (h.deleted || first > h.last || last < h.first)
      · rw [hx] at hh
        cases hh
      · rfl
    rw [if_pos hc]
    simp only [markHole, pieces, hh, Bool.false_eq_true, if_false, List.append_nil,
      Nat.add_zero, Bool.or_false]
    obtain ⟨_, rfl⟩ := List.getElem?_eq_some_iff.1 hi
    rw [List.set_getElem_self]
  · have hc : (h.deleted || first > h.last || last < h.first) = false := by
      simpa [hits] using hh
    rw [if_neg (by simp [hc])]
    simp only [markHole, pieces, hh, if_true, Bool.or_true]
    by_cases hl : first > h.first <;> by_cases hr : (last < h.last && more) = true <;>
      simp [hl, hr]

/-- The loop of `updateHoles` after its first `i` turns: the holes it has
looked at are marked, and their pieces appended. -/
theorem foldl_updateHolesStep (hs : List Hole) (deleted : ℕ) :
    ∀ i ≤ hs.length,
      (List.range i).foldl (updateHolesStep first last more) (hs, deleted, false) =
        ((hs.take i).map (markHole first last) ++ hs.drop i ++
            (hs.take i).flatMap (pieces first last more),
          deleted + (hs.take i).countP (hits first last), (hs.take i).any (hits first last))
  | 0, _ => by simp
  | i + 1, hi => by
    rw [List.range_succ, List.foldl_append, foldl_updateHolesStep hs deleted i (by omega)]
    have hd : hs.drop i = hs[i] :: hs.drop (i + 1) := List.drop_eq_getElem_cons (by omega)
    have ht : hs.take (i + 1) = hs.take i ++ [hs[i]] := by
      rw [List.take_add_one, List.getElem?_eq_getElem (by omega)]
      rfl
    have hlen : ((hs.take i).map (markHole first last)).length = i := by
      rw [List.length_map, List.length_take]
      omega
    -- the turn at `i` finds the hole `hs[i]` as it was
    have hget : ((hs.take i).map (markHole first last) ++ hs.drop i ++
        (hs.take i).flatMap (pieces first last more))[i]? = some hs[i] := by
      rw [List.append_assoc, List.getElem?_append_right (by omega), hlen, Nat.sub_self, hd]
      rfl
    rw [List.foldl_cons, List.foldl_nil, updateHolesStep_eq hget, ht]
    rw [List.append_assoc, List.set_append_right _ _ (by omega), hlen, Nat.sub_self, hd]
    simp only [List.cons_append, List.set_cons_zero, List.map_append, List.map_cons,
      List.map_nil, List.flatMap_append, List.flatMap_cons, List.flatMap_nil, List.append_nil,
      List.countP_append, List.countP_cons, List.countP_nil, List.any_append, List.any_cons,
      List.any_nil, Bool.or_false, List.append_assoc, Nat.zero_add, Nat.add_assoc,
      List.nil_append]

/-- `updateHoles`: the holes it starts with, each marked deleted if the
fragment meets it, then the pieces of those it met; one more deleted hole for
each, and whether there was any. -/
theorem updateHoles_eq (r : Reassembler) :
    r.updateHoles first last more =
      ({ r with
          holes := r.holes.map (markHole first last) ++ r.holes.flatMap (pieces first last more)
          deleted := r.deleted + r.holes.countP (hits first last) },
        r.holes.any (hits first last)) := by
  unfold updateHoles
  rw [foldl_updateHolesStep r.holes r.deleted r.holes.length (Nat.le_refl _)]
  simp only [List.take_length, List.drop_length, List.append_nil]

theorem toNat_sub_one_of_lt {a b : UInt16} (h : a < b) : (b - 1).toNat = b.toNat - 1 := by
  have hb : 1 ≤ b := UInt16.le_iff_toNat_le.2 (by
    have := UInt16.lt_iff_toNat_lt.1 h
    simp only [UInt16.toNat_one]
    omega)
  rw [UInt16.toNat_sub_of_le b 1 hb, UInt16.toNat_one]

theorem toNat_add_one_of_lt {a b : UInt16} (h : a < b) : (a + 1).toNat = a.toNat + 1 := by
  have := UInt16.lt_iff_toNat_lt.1 h
  have := b.toNat_lt
  rw [UInt16.toNat_add, UInt16.toNat_one]
  omega

/-- The piece before the fragment of a hole it meets. -/
theorem mem_pieces_left {h : Hole} (hx : hits first last h = true) (hl : h.first < first) :
    ⟨h.first, first - 1, false⟩ ∈ pieces first last more h := by
  simp [pieces, hx, hl]

/-- The piece after the fragment of a hole it meets, when more follow. -/
theorem mem_pieces_right {h : Hole} (hx : hits first last h = true) (hr : last < h.last)
    (hm : more = true) : ⟨last + 1, h.last, false⟩ ∈ pieces first last more h := by
  simp [pieces, hx, hr, hm]

/-- The pieces of a hole: the part before the fragment, and the part after it
when more fragments follow. -/
theorem mem_pieces {h h' : Hole} (hp : h' ∈ pieces first last more h) :
    hits first last h = true ∧ h'.deleted = false ∧
      ((h' = ⟨h.first, first - 1, false⟩ ∧ h.first < first) ∨
        (h' = ⟨last + 1, h.last, false⟩ ∧ last < h.last ∧ more = true)) := by
  unfold pieces at hp
  by_cases hx : hits first last h = true
  · rw [if_pos hx, List.mem_append] at hp
    refine ⟨hx, ?_⟩
    rcases hp with hp | hp
    · split_ifs at hp with hl
      · rw [List.mem_singleton] at hp
        subst hp
        exact ⟨rfl, .inl ⟨rfl, hl⟩⟩
      · cases hp
    · split_ifs at hp with hr
      · rw [List.mem_singleton] at hp
        subst hp
        simp only [Bool.and_eq_true, decide_eq_true_eq] at hr
        exact ⟨rfl, .inr ⟨rfl, hr⟩⟩
      · cases hp
  · rw [if_neg hx] at hp
    cases hp

theorem markHole_deleted {h : Hole} (hlive : (markHole first last h).deleted = false) :
    hits first last h = false ∧ markHole first last h = h := by
  unfold markHole at hlive ⊢
  cases hx : hits first last h
  · exact ⟨rfl, rfl⟩
  · rw [hx, if_pos rfl] at hlive
    cases hlive

/-- The offsets in live holes after `updateHoles`: those of a live hole before
it that the fragment missed, or that lie before the fragment, or after it when
more fragments follow. -/
theorem missing_updateHoles (holes : List Hole) (p : ℕ) :
    Missing (holes.map (markHole first last) ++ holes.flatMap (pieces first last more)) p ↔
      ∃ h ∈ holes, h.deleted = false ∧ h.first.toNat ≤ p ∧ p ≤ h.last.toNat ∧
        (hits first last h = false ∨ p < first.toNat ∨ (last.toNat < p ∧ more = true)) := by
  constructor
  · rintro ⟨h', hmem, hlive, hp1, hp2⟩
    rcases List.mem_append.1 hmem with hm | hm
    · -- a hole it started with, still live: the fragment missed it
      obtain ⟨h, hh, rfl⟩ := List.mem_map.1 hm
      obtain ⟨hx, heq⟩ := markHole_deleted hlive
      rw [heq] at hlive hp1 hp2
      exact ⟨h, hh, hlive, hp1, hp2, .inl hx⟩
    · obtain ⟨h, hh, hp⟩ := List.mem_flatMap.1 hm
      obtain ⟨hx, -, hcase⟩ := mem_pieces hp
      obtain ⟨hdel, hfl, hlf⟩ := hits_eq_true.1 hx
      rcases hcase with ⟨rfl, hl⟩ | ⟨rfl, hr, hmore⟩ <;> dsimp only at hp1 hp2
      · -- the piece before the fragment
        rw [toNat_sub_one_of_lt hl] at hp2
        have := UInt16.lt_iff_toNat_lt.1 hl
        exact ⟨h, hh, hdel, hp1, by omega, .inr (.inl (by omega))⟩
      · -- the piece after it
        rw [toNat_add_one_of_lt hr] at hp1
        exact ⟨h, hh, hdel, by omega, hp2, .inr (.inr ⟨by omega, hmore⟩)⟩
  · rintro ⟨h, hh, hlive, hp1, hp2, hcase⟩
    cases hx : hits first last h
    · have heq : markHole first last h = h := by simp [markHole, hx]
      exact ⟨h, List.mem_append_left _ (List.mem_map.2 ⟨h, hh, heq⟩), hlive, hp1, hp2⟩
    · rcases hcase with hf | hlt | ⟨hgt, hmore⟩
      · simp [hx] at hf
      · have hl : h.first < first := UInt16.lt_iff_toNat_lt.2 (by omega)
        refine ⟨_, List.mem_append_right _ (List.mem_flatMap.2 ⟨h, hh, mem_pieces_left hx hl⟩),
          rfl, hp1, ?_⟩
        rw [toNat_sub_one_of_lt hl]
        omega
      · have hr : last < h.last := UInt16.lt_iff_toNat_lt.2 (by omega)
        refine ⟨_, List.mem_append_right _
          (List.mem_flatMap.2 ⟨h, hh, mem_pieces_right hx hr hmore⟩), rfl, ?_, hp2⟩
        rw [toNat_add_one_of_lt hr]
        omega

/-- Live holes after `updateHoles` start at most where the live holes before it
do, or right after a fragment that more fragments follow, and none is empty. -/
theorem wf_updateHoles {holes : List Hole} {n : ℕ}
    (hwf : ∀ h ∈ holes, h.deleted = false → h.first ≤ h.last ∧ h.first.toNat < n)
    (hmore : more = true → last.toNat + 1 < n) :
    ∀ h' ∈ holes.map (markHole first last) ++ holes.flatMap (pieces first last more),
      h'.deleted = false → h'.first ≤ h'.last ∧ h'.first.toNat < n := by
  intro h' hmem hlive
  rcases List.mem_append.1 hmem with hm | hm
  · obtain ⟨h, hh, rfl⟩ := List.mem_map.1 hm
    obtain ⟨-, heq⟩ := markHole_deleted hlive
    rw [heq] at hlive ⊢
    exact hwf h hh hlive
  · obtain ⟨h, hh, hp⟩ := List.mem_flatMap.1 hm
    obtain ⟨hx, -, hcase⟩ := mem_pieces hp
    obtain ⟨hdel, _, _⟩ := hits_eq_true.1 hx
    have hh' := hwf h hh hdel
    rcases hcase with ⟨rfl, hl⟩ | ⟨rfl, hr, hm⟩ <;> dsimp only
    · refine ⟨UInt16.le_iff_toNat_le.2 ?_, hh'.2⟩
      rw [toNat_sub_one_of_lt hl]
      have := UInt16.lt_iff_toNat_lt.1 hl
      omega
    · have := hmore hm
      refine ⟨UInt16.le_iff_toNat_le.2 ?_, ?_⟩
      · rw [toNat_add_one_of_lt hr]
        exact UInt16.lt_iff_toNat_lt.1 hr
      · rw [toNat_add_one_of_lt hr]
        exact this

/-- `updateHoles` deletes each hole the fragment meets once: the holes it
marks were live, and those it appends are. -/
theorem countP_deleted_updateHoles (holes : List Hole) :
    (holes.map (markHole first last) ++ holes.flatMap (pieces first last more)).countP
        (·.deleted) = holes.countP (·.deleted) + holes.countP (hits first last) := by
  induction holes with
  | nil => rfl
  | cons h hs ih =>
    have hp : (pieces first last more h).countP (·.deleted) = 0 :=
      List.countP_eq_zero.2 fun h' hh' => by simp [(mem_pieces hh').2.1]
    simp only [List.map_cons, List.flatMap_cons, List.countP_append, List.countP_cons] at ih ⊢
    rw [hp]
    -- a hole the fragment meets was live and becomes deleted
    cases hx : hits first last h
    · simp only [markHole, hx, Bool.false_eq_true, ↓reduceIte]
      omega
    · have hdel := (hits_eq_true.1 hx).1
      simp only [markHole, hx, ↓reduceIte, hdel, Bool.false_eq_true]
      omega

end Reassembler

end Fragmentation
