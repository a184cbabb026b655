import CommandShell.Rule.Basic

/-!
# Nested rules

A group holds its rules in one flat list, which is cut into alternatives. Properties of rules are
proved by induction on the nesting of groups, where a group may rely on the rules of its
alternatives.

## Main definitions

* `Rule.isFilledGroup` — the rule is a group with rules in it
* `Rule.subrules`, `Rule.subrulesAll` — a rule, or a list of rules, with all that is nested in it
* `Rule.HasFlag` — a rule with a named rule in it, through any number of groups

## Main results

* `Rule.induction` — induction on rules, through the alternatives of groups
* `Rule.subrules_subset_of_mem_alternatives` — what is nested in an alternative is nested in its
  group
* `Rule.hasFlag_group_iff`, `Rule.hasFlag_iff_of_not_isFilledGroup` — the flags of a group and of
  any other rule
* `Rule.exists_named_of_hasFlag` — flags are nested named rules
-/

namespace CommandShell.Rule

variable {rule : Rule} {rules : List Rule} {op : GroupOp} {position : Nat} {span : Span}

/-- The rule is a group with rules in it. -/
def isFilledGroup : Rule → Bool
  | nest (.group _) _ (_ :: _) _ => true
  | _ => false

/-- A group without rules has no alternatives. -/
theorem not_mem_alternatives {alternative : List Rule}
    (h : isFilledGroup (.nest (.group op) position rules span) = false) :
    alternative ∉ alternatives rules := by
  cases rules with
  | nil => exact List.not_mem_nil
  | cons first rest => cases h

/-- Induction on rules: a group may rely on all rules of all of its alternatives. -/
theorem induction {motive : Rule → Prop}
    (single : ∀ rule : Rule, rule.isFilledGroup = false → motive rule)
    (group : ∀ op position rules span, rules ≠ [] →
      (∀ alternative ∈ alternatives rules, ∀ rule ∈ alternative, motive rule) →
      motive (.nest (.group op) position rules span)) (rule : Rule) : motive rule := by
  -- The recursor goes through the flat list of a group, which its alternatives make up.
  refine @Rule.rec motive (fun rules => ∀ rule ∈ rules, motive rule) ?_ ?_ ?_ ?_ ?_ rule
  · exact fun _ _ _ _ => single _ rfl
  · intro kind position rules span ih
    cases kind with
    | group op =>
      cases rules with
      | nil => exact single _ rfl
      | cons first rest =>
        apply group op position _ span (List.cons_ne_nil _ _)
        intro alternative hmem rule hrule
        apply ih
        rw [← flatten_alternatives (first :: rest)]
        exact List.mem_flatten_of_mem hmem hrule
    | _ => exact single _ rfl
  · exact fun _ _ _ => single _ rfl
  · exact fun _ h => absurd h List.not_mem_nil
  · intro first rest hfirst hrest rule h
    rcases List.mem_cons.mp h with rfl | h
    · exact hfirst
    · exact hrest rule h

/-! ### Nested rules -/

mutual

/-- The rule and the rules that are nested in it. -/
def subrules : Rule → List Rule
  | .nest kind position rules span => .nest kind position rules span :: subrulesAll rules
  | .leaf kind position name span => [.leaf kind position name span]
  | .bare kind position span => [.bare kind position span]

/-- The rules of a list and the rules that are nested in them. -/
def subrulesAll : List Rule → List Rule
  | [] => []
  | rule :: rules => subrules rule ++ subrulesAll rules

end

theorem subrulesAll_append (rules others : List Rule) :
    subrulesAll (rules ++ others) = subrulesAll rules ++ subrulesAll others := by
  induction rules with
  | nil => rfl
  | cons rule rules ih => rw [List.cons_append, subrulesAll, subrulesAll, ih, List.append_assoc]

theorem self_mem_subrules (rule : Rule) : rule ∈ subrules rule := by
  cases rule <;> simp [subrules]

theorem subrules_subset_of_mem (h : rule ∈ rules) : subrules rule ⊆ subrulesAll rules := by
  induction rules with
  | nil => exact absurd h List.not_mem_nil
  | cons first rules ih =>
    rw [subrulesAll]
    rcases List.mem_cons.mp h with rfl | h
    · exact List.subset_append_left _ _
    · exact List.subset_append_of_subset_right _ (ih h)

theorem exists_of_mem_subrulesAll {sub : Rule} (h : sub ∈ subrulesAll rules) :
    ∃ rule ∈ rules, sub ∈ subrules rule := by
  induction rules with
  | nil => exact absurd h List.not_mem_nil
  | cons first rules ih =>
    rw [subrulesAll] at h
    rcases List.mem_append.mp h with h | h
    · exact ⟨first, List.mem_cons_self, h⟩
    · obtain ⟨rule, hrule, h⟩ := ih h
      exact ⟨rule, List.mem_cons_of_mem _ hrule, h⟩

/-- The rules of an alternative are nested in the group. -/
theorem subrules_subset_of_mem_alternatives {alternative : List Rule}
    (hmem : alternative ∈ alternatives rules) (h : rule ∈ alternative) :
    subrules rule ⊆ subrules (.nest (.group op) position rules span) := by
  rw [subrules]
  apply List.subset_cons_of_subset
  apply subrules_subset_of_mem
  rw [← flatten_alternatives rules]
  exact List.mem_flatten_of_mem hmem h

/-! ### Flags -/

/-- A named rule of the name stands in the rule, inside of any number of groups. -/
inductive HasFlag : Rule → String → Prop
  | named {rule : Rule} (h : rule.kind = .named) : HasFlag rule rule.lookupName
  | inside {op : GroupOp} {position : Nat} {rules : List Rule} {span : Span} {rule : Rule}
    {name : String} (hrule : rule ∈ rules) (h : HasFlag rule name) :
    HasFlag (.nest (.group op) position rules span) name

variable {name : String}

theorem hasFlag_iff_of_not_isFilledGroup (h : rule.isFilledGroup = false) :
    rule.HasFlag name ↔ rule.kind = .named ∧ rule.lookupName = name := by
  constructor
  · intro hflag
    cases hflag with
    | named hkind => exact ⟨hkind, rfl⟩
    | @inside op position rules span inner _ hrule =>
      cases rules with
      | nil => exact absurd hrule List.not_mem_nil
      | cons first rest => cases h
  · rintro ⟨hkind, rfl⟩
    exact .named hkind

/-- The flags of a group are those of the rules of its alternatives. -/
theorem hasFlag_group_iff :
    HasFlag (.nest (.group op) position rules span) name ↔
      ∃ alternative ∈ alternatives rules, ∃ rule ∈ alternative, HasFlag rule name := by
  constructor
  · intro h
    cases h with
    | named hkind => cases hkind
    | inside hrule h =>
      rw [← flatten_alternatives rules] at hrule
      obtain ⟨alternative, halternative, hrule⟩ := List.mem_flatten.mp hrule
      exact ⟨alternative, halternative, _, hrule, h⟩
  · rintro ⟨alternative, halternative, rule, hrule, h⟩
    refine .inside ?_ h
    rw [← flatten_alternatives rules]
    exact List.mem_flatten_of_mem halternative hrule

/-- A flag of a rule is a named rule that is nested in it. -/
theorem exists_named_of_hasFlag (h : rule.HasFlag name) :
    ∃ sub ∈ rule.subrules, sub.kind = .named ∧ sub.lookupName = name := by
  induction h with
  | @named rule hkind => exact ⟨rule, rule.self_mem_subrules, hkind, rfl⟩
  | inside hrule _ ih =>
    obtain ⟨sub, hsub, hnamed⟩ := ih
    refine ⟨sub, ?_, hnamed⟩
    rw [subrules]
    exact List.mem_cons_of_mem _ (subrules_subset_of_mem hrule hsub)

end CommandShell.Rule
