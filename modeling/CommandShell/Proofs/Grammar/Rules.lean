import CommandShell.Proofs.Grammar.Names
import CommandShell.Proofs.Rule.Fault

/-!
# The rules of a grammar

A grammar that is parsed has a well-shaped rule list: its end rule comes last and stands in no
group, and none of its groups is empty. That follows from what the grammar says, wherever it is
written.

## Main results

* `Phrase.isWellShaped_rules` — the rules of a sound phrase
* `Rule.isWellShaped_of_unplacedAll` — the shape of rules does not depend on their places
* `Grammar.isWellShaped_rules` — the rules of a grammar that is parsed
-/

namespace CommandShell

namespace Rule

variable {rule sub : Rule} {rules : List Rule}

/-! ### Rules without their places -/

theorem Holds.unplaced (h : rule.Holds sub) : rule.unplaced.Holds sub.unplaced := by
  induction h with
  | own hrule =>
    rw [Rule.unplaced, unplacedAll_eq_map]
    exact .own (List.mem_map_of_mem hrule)
  | inside hinner _ ih =>
    rw [Rule.unplaced, unplacedAll_eq_map]
    exact .inside (List.mem_map_of_mem hinner) ih

theorem StandsIn.unplaced (h : sub.StandsIn rules) : sub.unplaced.StandsIn (unplacedAll rules) := by
  rw [unplacedAll_eq_map]
  rcases h with hmem | ⟨group, hmem, h⟩
  · exact .inl (List.mem_map_of_mem hmem)
  · exact .inr ⟨group.unplaced, List.mem_map_of_mem hmem, h.unplaced⟩

theorem kind_unplaced (rule : Rule) : rule.unplaced.kind = rule.kind :=
  (Grammar.kind_lookupName_unplaced rule).1

theorem rules_unplaced (rule : Rule) : rule.unplaced.rules = rule.rules.map Rule.unplaced := by
  cases rule <;> rw [Rule.unplaced]
  · rfl
  · exact unplacedAll_eq_map _
  · rfl

/-- The shape of a rule list does not depend on where its rules are written. -/
theorem isWellShaped_of_unplacedAll (h : IsWellShaped (unplacedAll rules)) :
    IsWellShaped rules where
  nothing_after_finish before rule after hrules hkind := by
    have hnothing := h.nothing_after_finish (before.map Rule.unplaced) rule.unplaced
      (after.map Rule.unplaced) (by simp [unplacedAll_eq_map, hrules])
      (by rw [kind_unplaced, hkind])
    exact List.map_eq_nil_iff.mp hnothing
  no_nested_finish group hgroup rule hholds := by
    rw [← kind_unplaced]
    refine h.no_nested_finish group.unplaced ?_ rule.unplaced hholds.unplaced
    rw [unplacedAll_eq_map]
    exact List.mem_map_of_mem hgroup
  groups_filled rule hstands hgroup := by
    have hfilled := h.groups_filled rule.unplaced hstands.unplaced (by rw [kind_unplaced, hgroup])
    rw [rules_unplaced] at hfilled
    exact fun hempty => hfilled (by rw [hempty]; rfl)

end Rule

/-! ### Rules of clauses -/

namespace Clause

variable {clause : Clause} {clauses : List Clause} {member : RuleKind} {position : Nat} {sub : Rule}

theorem rulesOfAlternatives_ne_nil {alternatives : List (List Clause)} (hne : alternatives ≠ [])
    (h : AreSoundAlternatives alternatives) : rulesOfAlternatives member alternatives ≠ [] := by
  cases alternatives with
  | nil => exact absurd rfl hne
  | cons alternative alternatives =>
    cases alternative with
    | nil => exact absurd rfl h.1
    | cons clause clauses => exact List.cons_ne_nil _ _

theorem memberKind_ne_finish (op : GroupOp) :
    op.memberKind ≠ .finish ∧ op.memberKind.isGroup = false := by
  cases op <;> exact ⟨nofun, rfl⟩

/-- The rule of a sound clause does not end the line, and is no empty group. -/
theorem kind_rule (h : clause.IsSound) (hmember : member ≠ .finish ∧ member.isGroup = false) :
    (clause.rule member position).kind ≠ .finish ∧
      ((clause.rule member position).kind.isGroup = true →
        (clause.rule member position).rules ≠ []) := by
  cases clause with
  | word name =>
    refine ⟨hmember.1, fun hgroup => ?_⟩
    exact absurd (hmember.2.symm.trans hgroup) nofun
  | constant name => exact ⟨nofun, nofun⟩
  | group op alternatives => exact ⟨nofun, fun _ => rulesOfAlternatives_ne_nil h.1 h.2⟩

/-- Nor does any rule in it. -/
theorem kind_of_holds_rule (h : clause.IsSound) (hholds : (clause.rule member position).Holds sub) :
    sub.kind ≠ .finish ∧ (sub.kind.isGroup = true → sub.rules ≠ []) := by
  induction clause using Clause.induction generalizing member position with
  | word name | constant name => cases hholds
  | group op alternatives ih =>
    have hsound := areSoundAlternatives_iff.mp h.2
    rw [rule, Rule.holds_group_iff] at hholds
    rcases hholds with hmem | ⟨inner, hmem, hholds⟩
    · obtain ⟨alternative, halternative, clause, hclause, position, rfl⟩ :=
        exists_of_mem_rulesOfAlternatives hmem
      exact kind_rule ((hsound alternative halternative).2 clause hclause) (memberKind_ne_finish op)
    · obtain ⟨alternative, halternative, clause, hclause, position, rfl⟩ :=
        exists_of_mem_rulesOfAlternatives hmem
      exact ih alternative halternative clause hclause
        ((hsound alternative halternative).2 clause hclause) hholds

end Clause

/-! ### Whole grammars -/

namespace Phrase

variable {phrase : Phrase} {rule sub : Rule}

theorem kind_of_mem_rulesFrom (h : phrase.IsSound)
    (hmem : rule ∈ Clause.rulesFrom .required 0 phrase.clauses) :
    (rule.kind ≠ .finish ∧ (rule.kind.isGroup = true → rule.rules ≠ [])) ∧
      ∀ sub, rule.Holds sub →
        sub.kind ≠ .finish ∧ (sub.kind.isGroup = true → sub.rules ≠ []) := by
  obtain ⟨clause, hclause, position, rfl⟩ := Clause.exists_of_mem_rulesFrom hmem
  have hsound := Clause.areSound_iff.mp h.2 clause hclause
  exact ⟨Clause.kind_rule hsound ⟨nofun, rfl⟩, fun sub => Clause.kind_of_holds_rule hsound⟩

/-- The rules of a sound phrase are well shaped. -/
theorem isWellShaped_rules (h : phrase.IsSound) : Rule.IsWellShaped phrase.rules where
  nothing_after_finish before rule after hrules hkind := by
    rcases List.eq_nil_or_concat after with hafter | ⟨middle, last, rfl⟩
    · exact hafter
    · have hfront : before ++ rule :: middle = Clause.rulesFrom .required 0 phrase.clauses := by
        have hsplit : (before ++ rule :: middle) ++ [last] =
            Clause.rulesFrom .required 0 phrase.clauses ++
              [.finish phrase.clauses.length (.point 0)] := by
          rw [← Phrase.rules, hrules]
          simp
        exact (List.append_inj' hsplit rfl).1
      have hmem : rule ∈ Clause.rulesFrom .required 0 phrase.clauses := by simp [← hfront]
      exact absurd hkind (kind_of_mem_rulesFrom h hmem).1.1
  no_nested_finish group hgroup rule hholds := by
    rcases List.mem_append.mp hgroup with hmem | hmem
    · exact ((kind_of_mem_rulesFrom h hmem).2 rule hholds).1
    · obtain rfl := List.mem_singleton.mp hmem
      cases hholds
  groups_filled rule hstands := by
    rcases hstands with hmem | ⟨group, hgroup, hholds⟩
    · rcases List.mem_append.mp hmem with hmem | hmem
      · exact (kind_of_mem_rulesFrom h hmem).1.2
      · obtain rfl := List.mem_singleton.mp hmem
        exact fun h => by cases h
    · rcases List.mem_append.mp hgroup with hmem | hmem
      · exact ((kind_of_mem_rulesFrom h hmem).2 rule hholds).2
      · obtain rfl := List.mem_singleton.mp hmem
        cases hholds

end Phrase

/-- The rules of a grammar that is parsed are well shaped. -/
theorem Grammar.isWellShaped_rules {source : String} {limit : Nat} {grammar : Grammar}
    (h : parse source limit = .ok grammar) : Rule.IsWellShaped grammar.rules := by
  obtain ⟨phrase, text, ⟨hsound, -, -⟩, -, -, -, hrules⟩ := exists_writes_of_parse h
  apply Rule.isWellShaped_of_unplacedAll
  rw [← hrules]
  exact Phrase.isWellShaped_rules hsound

end CommandShell
