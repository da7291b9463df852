import Gvisor.Seccomp.Program

/-! `SyscallRules.AddRule` and `SyscallRules.Merge`, and the calls a set of rules lets through:
an entry with no rules lets every argument vector through, which both operations keep by adding
the rule `Rule{}` that checks nothing before more rules join it. -/

namespace Seccomp

/-- `Rule{}`: no slot checks its argument. -/
def emptyRule : Rule := Vector.replicate 6 none

/-- The calls a list of OR'ed rules lets through: all when it is empty, else those a rule holds
of. -/
def rulesAllow (rules : List Rule) (args : Vector UInt64 6) : Bool :=
  rules.isEmpty || rules.any fun r => r.holds args

theorem lookup_map_update {α β : Type*} [DecidableEq α] (l : List (α × β)) (k n : α) (v : β) :
    (l.map fun e => if e.1 = k then (k, v) else e).lookup n =
      if n = k ∧ k ∈ l.map Prod.fst then some v else l.lookup n := by
  induction l with
  | nil => simp
  | cons p l ih =>
    obtain ⟨a, b⟩ := p
    by_cases hn : n = a
    · subst hn
      by_cases ha : n = k
      · subst ha
        simp
      · simp [ha]
    · have hb : (n == a) = false := beq_false_of_ne hn
      rw [List.map_cons, List.lookup_cons, List.lookup_cons, hb]
      by_cases ha : a = k
      · subst ha
        simp [hn, hb, ih]
      · simp only [if_neg ha, hb, ih, List.map_cons, List.mem_cons, Ne.symm ha, false_or]

namespace SyscallRules

/-- `sr[sysno] = rules`. -/
def set (sr : SyscallRules) (sysno : UInt64) (rules : List Rule) : SyscallRules where
  entries :=
    if sysno ∈ sr.entries.map Prod.fst then
      sr.entries.map fun e => if e.1 = sysno then (sysno, rules) else e
    else sr.entries ++ [(sysno, rules)]
  nodup := by
    split_ifs with h
    · rw [List.map_map]
      convert sr.nodup using 1
      refine List.map_congr_left fun e _ => ?_
      by_cases he : e.1 = sysno <;> simp [he]
    · rw [List.map_append, List.nodup_append]
      refine ⟨sr.nodup, List.nodup_singleton _, fun a ha b hb => ?_⟩
      simp only [List.map_cons, List.map_nil, List.mem_singleton] at hb
      rintro rfl
      exact h (hb ▸ ha)

/-- `AddRule`. -/
def addRule (sr : SyscallRules) (sysno : UInt64) (r : Rule) : SyscallRules :=
  match sr.get? sysno with
  | some cur =>
    -- An empty rules means allow all. Honor it when more rules are added.
    let cur := if cur.length = 0 then cur ++ [emptyRule] else cur
    sr.set sysno (cur ++ [r])
  | none => sr.set sysno [r]

/-- One turn of `Merge`'s loop, for the entry `(sysno, rs)` of the rules merged in. -/
def mergeEntry (sr : SyscallRules) (e : UInt64 × List Rule) : SyscallRules :=
  match sr.get? e.1 with
  | some cur =>
    let cur := if cur.length = 0 then cur ++ [emptyRule] else cur
    let rs := if e.2.length = 0 then [emptyRule] else e.2
    sr.set e.1 (cur ++ rs)
  | none => sr.set e.1 e.2

/-- `Merge`; Go ranges over the map in any order, and as its keys differ the order does not
matter. -/
def merge (sr rules : SyscallRules) : SyscallRules := rules.entries.foldl mergeEntry sr

/-- The calls `sr` lets through: those of a syscall with an entry whose rules let its arguments
through. -/
def allows (sr : SyscallRules) (sysno : UInt64) (args : Vector UInt64 6) : Bool :=
  match sr.get? sysno with
  | none => false
  | some rules => rulesAllow rules args

variable {sr : SyscallRules} {sysno n : UInt64} {rules : List Rule} {r : Rule} {args : Vector UInt64 6}

theorem get?_set : (sr.set sysno rules).get? n = if n = sysno then some rules else sr.get? n := by
  unfold get? set
  dsimp only
  split_ifs with hm hn hn
  · rw [lookup_map_update, if_pos ⟨hn, hm⟩]
  · rw [lookup_map_update, if_neg fun h => hn h.1]
  · subst hn
    rw [List.lookup_append, List.lookup_eq_none_iff.2 fun p hp => bne_iff_ne.2 fun he =>
      hm (by rw [he]; exact List.mem_map_of_mem (f := Prod.fst) hp)]
    simp
  · rw [List.lookup_append]
    simp [List.lookup_cons, beq_false_of_ne hn]

theorem allows_set :
    (sr.set sysno rules).allows n args = if n = sysno then rulesAllow rules args else sr.allows n args := by
  unfold allows
  rw [get?_set]
  split_ifs <;> rfl

/-- `allows` read off the entries, one at a time. -/
theorem allows_eq_any (sr : SyscallRules) :
    sr.allows n args = sr.entries.any fun e => n == e.1 && rulesAllow e.2 args := by
  obtain ⟨entries, hnd⟩ := sr
  unfold allows get?
  dsimp only
  induction entries with
  | nil => rfl
  | cons e es ih =>
    rw [List.map_cons, List.nodup_cons] at hnd
    rw [List.lookup_cons, List.any_cons, ← ih hnd.2]
    by_cases hn : n = e.1
    · subst hn
      -- the key of the first entry is in no other
      have hnone : es.lookup e.1 = none := List.lookup_eq_none_iff.2 fun p hp =>
        bne_iff_ne.2 fun he => hnd.1 (by rw [he]; exact List.mem_map_of_mem (f := Prod.fst) hp)
      simp [hnone]
    · simp [beq_false_of_ne hn]

end SyscallRules

theorem holds_emptyRule : emptyRule.holds args = true := by
  simp [Rule.holds, emptyRule]

/-- `Rule{}` stands for the empty list of rules it replaces. -/
theorem rulesAllow_wild :
    rulesAllow (if rules.length = 0 then [emptyRule] else rules) args = rulesAllow rules args := by
  split_ifs with h
  · rw [List.length_eq_zero_iff.1 h]
    simp [rulesAllow, holds_emptyRule]
  · rfl

/-- Rules that join a list whose emptiness was honored with `Rule{}` add what they let through. -/
theorem rulesAllow_honored (cur : List Rule) {rs : List Rule} (hrs : rs ≠ []) :
    rulesAllow ((if cur.length = 0 then cur ++ [emptyRule] else cur) ++ rs) args =
      (rulesAllow cur args || rulesAllow rs args) := by
  split_ifs with h
  · rw [List.length_eq_zero_iff.1 h]
    simp [rulesAllow, holds_emptyRule]
  · obtain ⟨c, cs, rfl⟩ := List.exists_cons_of_ne_nil (l := cur) fun hc => h (by rw [hc]; rfl)
    obtain ⟨q, qs, rfl⟩ := List.exists_cons_of_ne_nil hrs
    rw [rulesAllow, rulesAllow, rulesAllow, List.any_append]
    rfl

namespace SyscallRules

variable {sr : SyscallRules} {sysno n : UInt64} {r : Rule} {args : Vector UInt64 6}

theorem allows_addRule :
    (sr.addRule sysno r).allows n args = (sr.allows n args || (n == sysno && r.holds args)) := by
  unfold addRule
  cases hc : sr.get? sysno with
  | none =>
    rw [allows_set]
    by_cases hn : n = sysno
    · subst hn
      simp [allows, hc, rulesAllow]
    · simp [hn]
  | some cur =>
    dsimp only
    rw [allows_set]
    by_cases hn : n = sysno
    · subst hn
      rw [if_pos rfl, rulesAllow_honored cur (List.cons_ne_nil r [])]
      simp [allows, hc, rulesAllow]
    · simp [hn]

theorem allows_mergeEntry (e : UInt64 × List Rule) :
    (sr.mergeEntry e).allows n args = (sr.allows n args || (n == e.1 && rulesAllow e.2 args)) := by
  unfold mergeEntry
  cases hc : sr.get? e.1 with
  | none =>
    rw [allows_set]
    by_cases hn : n = e.1
    · subst hn
      simp [allows, hc]
    · simp [hn]
  | some cur =>
    dsimp only
    rw [allows_set]
    by_cases hn : n = e.1
    · subst hn
      have hrs : (if e.2.length = 0 then [emptyRule] else e.2) ≠ [] := by
        split_ifs with h
        · exact List.cons_ne_nil _ _
        · simpa using h
      rw [if_pos rfl, rulesAllow_honored cur hrs, rulesAllow_wild]
      simp [allows, hc]
    · simp [hn]

/-- `Merge`'s loop adds the calls each entry it ranges over lets through. -/
theorem allows_foldl_mergeEntry (es : List (UInt64 × List Rule)) (sr : SyscallRules) :
    (es.foldl mergeEntry sr).allows n args =
      (sr.allows n args || es.any fun e => n == e.1 && rulesAllow e.2 args) := by
  induction es generalizing sr with
  | nil => simp
  | cons e es ih =>
    rw [List.foldl_cons, ih, allows_mergeEntry, List.any_cons, Bool.or_assoc]

/-- `Merge` lets through what either set of rules let through, and `AddRule` adds the calls
of its syscall that its rule holds of. -/
theorem merge_addRule_allows (sr rules : SyscallRules) (sysno n : UInt64) (r : Rule)
    (args : Vector UInt64 6) :
    (sr.merge rules).allows n args = (sr.allows n args || rules.allows n args) ∧
      (sr.addRule sysno r).allows n args = (sr.allows n args || (n == sysno && r.holds args)) :=
  ⟨by rw [merge, allows_foldl_mergeEntry, allows_eq_any rules], allows_addRule⟩

end SyscallRules

/-- A rule set applies where its rules let the call through and its vsyscall requirement
holds. -/
theorem RuleSet.applies_eq (rs : RuleSet) (d : SeccompData) :
    rs.applies d = ((!rs.vsyscall || (d.instructionPointer >>> 63) &&& 1 == 1) &&
      rs.rules.allows d.nr.toUInt64 d.args) := by
  unfold RuleSet.applies SyscallRules.allows
  cases rs.rules.get? d.nr.toUInt64 with
  | none => simp
  | some rules => rfl

end Seccomp
