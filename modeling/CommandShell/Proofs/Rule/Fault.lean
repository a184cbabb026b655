import CommandShell.Proofs.Rule.Nesting
import CommandShell.Rule.Fault

/-!
# Faults and buildable rule lists

Going through a rule list depth first comes to exactly the rules that stand in it, each at its
place. So a list has no first fault exactly if nothing is wrong with it, whatever the order in which
one looks.

## Main results

* `mem_visits_iff`, `mem_visitsFrom_iff` — which rules are come to, and where they stand
* `firstFault?_visitsFrom_eq_none_iff` — a list without a first fault is buildable
* `eq_of_fault?_eq_some` — the causes that a fault of a rule list can have
* `needsDeclaration_of_fault?` — a name is missing only where a rule is looked up by it
-/

namespace CommandShell.Rule

variable {args : ArgumentSet} {place place' : Place} {rule sub : Rule} {rules : List Rule}
  {ended : Bool} {e : GrammarError}

/-! ### First faults -/

theorem firstFault?_append {first rest : List (Place × Rule)} :
    firstFault? args (first ++ rest) = (firstFault? args first).or (firstFault? args rest) :=
  List.findSome?_append

@[simp] theorem firstFault?_singleton :
    firstFault? args [(place, rule)] = rule.fault? args place := by
  simp [firstFault?]

/-! ### Visits -/

theorem visits_of_not_isFilledGroup (h : rule.isFilledGroup = false) :
    rule.visits place = [(place, rule)] := by
  unfold visits
  split
  · rename_i op position rules span
    cases rules with
    | nil => rfl
    | cons first rest => cases h
  · rfl

theorem not_holds_of_not_isFilledGroup (h : rule.isFilledGroup = false) : ¬ rule.Holds sub := by
  intro hholds
  cases hholds with
  | @own op position rules span _ hrule =>
    cases rules with
    | nil => exact absurd hrule List.not_mem_nil
    | cons first rest => cases h
  | @inside op position rules span inner _ hinner =>
    cases rules with
    | nil => exact absurd hinner List.not_mem_nil
    | cons first rest => cases h

theorem holds_group_iff {op : GroupOp} {position : Nat} {span : Span} :
    Holds (.nest (.group op) position rules span) sub ↔ sub.StandsIn rules := by
  constructor
  · intro h
    cases h with
    | own hrule => exact .inl hrule
    | inside hinner h => exact .inr ⟨_, hinner, h⟩
  · rintro (hrule | ⟨inner, hinner, h⟩)
    · exact .own hrule
    · exact .inside hinner h

theorem standsIn_cons {first : Rule} :
    sub.StandsIn (first :: rules) ↔ (sub = first ∨ first.Holds sub) ∨ sub.StandsIn rules := by
  simp only [StandsIn, List.mem_cons, exists_eq_or_imp]
  exact or_or_or_comm

theorem standsIn_append_finish {position : Nat} {span : Span} :
    sub.StandsIn (rules ++ [.finish position span]) ↔
      sub.StandsIn rules ∨ sub = .finish position span := by
  have hfinish : ¬ (Rule.finish position span).Holds sub := not_holds_of_not_isFilledGroup rfl
  simp [StandsIn, or_and_right, exists_or, hfinish, or_right_comm]

theorem mem_visitsAll_iff_of_forall
    (ih : ∀ rule ∈ rules, ∀ {place place'}, (place', sub) ∈ rule.visits place ↔
      place' = place ∧ sub = rule ∨ place' = .inGroup ∧ rule.Holds sub) :
    (place', sub) ∈ visitsAll rules ↔ place' = .inGroup ∧ sub.StandsIn rules := by
  induction rules with
  | nil => simp [visitsAll, StandsIn]
  | cons rule rules ihr =>
    rw [visitsAll, List.mem_append, ih rule List.mem_cons_self,
      ihr fun rule hmem => ih rule (List.mem_cons_of_mem _ hmem)]
    rw [standsIn_cons, ← and_or_left, ← and_or_left]

/-- Going through a rule comes to the rule at its place and to all rules that stand in it. -/
theorem mem_visits_iff : (place', sub) ∈ rule.visits place ↔
    place' = place ∧ sub = rule ∨ place' = .inGroup ∧ rule.Holds sub := by
  induction rule using Rule.induction generalizing place place' with
  | single rule hrule =>
    rw [visits_of_not_isFilledGroup hrule, List.mem_singleton, Prod.mk.injEq]
    exact (or_iff_left fun h => not_holds_of_not_isFilledGroup hrule h.2).symm
  | group op position rules span hrules ih =>
    rw [visits, List.mem_cons, Prod.mk.injEq, holds_group_iff, mem_visitsAll_iff_of_forall]
    intro rule hrule
    rw [← flatten_alternatives rules] at hrule
    obtain ⟨alternative, halternative, hrule⟩ := List.mem_flatten.mp hrule
    exact ih alternative halternative rule hrule

/-- Going through a list comes to the rules at its top, and to all rules that stand in them. -/
theorem mem_visitsFrom_iff : (place, sub) ∈ visitsFrom ended rules ↔
    ∃ before rule after, rules = before ++ rule :: after ∧ (place, sub) ∈ rule.visits
      (if ended || before.any (·.kind == .finish) then .afterFinish else .line) := by
  induction rules generalizing ended with
  | nil => simp [visitsFrom]
  | cons first rules ih =>
    rw [visitsFrom, List.mem_append, ih]
    constructor
    · rintro (h | ⟨before, rule, after, rfl, h⟩)
      · exact ⟨[], first, rules, rfl, by simpa using h⟩
      · exact ⟨first :: before, rule, after, rfl, by simpa [Bool.or_assoc] using h⟩
    · rintro ⟨before, rule, after, hrules, h⟩
      cases before with
      | nil =>
        cases hrules
        exact .inl (by simpa using h)
      | cons other before =>
        cases hrules
        exact .inr ⟨before, rule, after, rfl, by simpa [Bool.or_assoc] using h⟩

/-- Going through a list comes to all rules that stand in it. -/
theorem StandsIn.exists_mem_visitsFrom (h : sub.StandsIn rules) :
    ∃ place, (place, sub) ∈ visitsFrom ended rules := by
  rcases h with hmem | ⟨group, hmem, h⟩
  · obtain ⟨before, after, hrules⟩ := List.append_of_mem hmem
    exact ⟨_, mem_visitsFrom_iff.mpr
      ⟨before, sub, after, hrules, mem_visits_iff.mpr (.inl ⟨rfl, rfl⟩)⟩⟩
  · obtain ⟨before, after, hrules⟩ := List.append_of_mem hmem
    exact ⟨_, mem_visitsFrom_iff.mpr
      ⟨before, group, after, hrules, mem_visits_iff.mpr (.inr ⟨rfl, h⟩)⟩⟩

/-! ### Buildable lists -/

/-- When there is nothing wrong with a rule at its place. -/
theorem fault?_eq_none_iff : rule.fault? args place = none ↔
    place ≠ .afterFinish ∧ (place = .inGroup → rule.kind ≠ .finish) ∧
      (rule.kind.isGroup = true → rule.rules ≠ []) ∧
      (rule.needsDeclaration = true → rule.lookupName ∈ args.names) := by
  cases place <;> cases hkind : rule.kind <;>
    simp [fault?, needsDeclaration, hkind, RuleKind.isGroup, RuleKind.op?]

theorem firstFault?_eq_none_iff {visited : List (Place × Rule)} :
    firstFault? args visited = none ↔
      ∀ place rule, (place, rule) ∈ visited → rule.fault? args place = none := by
  rw [firstFault?, List.findSome?_eq_none_iff, Prod.forall]

/-- In a well-shaped list no rule stands where it is wrong. -/
theorem IsWellShaped.of_mem_visitsFrom (h : IsWellShaped rules)
    (hvisited : (place, sub) ∈ visitsFrom false rules) :
    sub.StandsIn rules ∧ place ≠ .afterFinish ∧ (place = .inGroup → sub.kind ≠ .finish) := by
  obtain ⟨before, rule, after, hrules, hvisited⟩ := mem_visitsFrom_iff.mp hvisited
  have hmem : rule ∈ rules := by simp [hrules]
  have hbefore : (false || before.any (·.kind == .finish)) = false := by
    rw [Bool.false_or, List.any_eq_false]
    intro finish hfinish hkind
    obtain ⟨front, back, rfl⟩ := List.append_of_mem hfinish
    have hnothing := h.nothing_after_finish front finish (back ++ rule :: after)
      (by simp [hrules]) (by simpa using hkind)
    simp at hnothing
  rw [hbefore] at hvisited
  rcases mem_visits_iff.mp hvisited with ⟨rfl, rfl⟩ | ⟨rfl, hholds⟩
  · exact ⟨.inl hmem, nofun, nofun⟩
  · exact ⟨.inr ⟨rule, hmem, hholds⟩, nofun, fun _ => h.no_nested_finish rule hmem sub hholds⟩

/-- A list without a first fault is buildable. -/
theorem firstFault?_visitsFrom_eq_none_iff :
    firstFault? args (visitsFrom false rules) = none ↔ IsBuildable args rules := by
  rw [firstFault?_eq_none_iff]
  constructor
  · intro h
    have hstands (rule : Rule) (hrule : rule.StandsIn rules) :
        (rule.kind.isGroup = true → rule.rules ≠ []) ∧
          (rule.needsDeclaration = true → rule.lookupName ∈ args.names) := by
      obtain ⟨place, hvisited⟩ := hrule.exists_mem_visitsFrom
      exact (fault?_eq_none_iff.mp (h place rule hvisited)).2.2
    refine ⟨⟨?_, ?_, fun rule hrule => (hstands rule hrule).1⟩, fun rule hrule =>
      (hstands rule hrule).2⟩
    · intro before rule after hrules hkind
      cases after with
      | nil => rfl
      | cons next after =>
        have hvisited : (.afterFinish, next) ∈ visitsFrom false rules := by
          refine mem_visitsFrom_iff.mpr ⟨before ++ [rule], next, after, by simp [hrules], ?_⟩
          exact mem_visits_iff.mpr (.inl ⟨by simp [hkind], rfl⟩)
        exact absurd rfl (fault?_eq_none_iff.mp (h _ _ hvisited)).1
    · intro group hgroup rule hholds
      obtain ⟨before, after, hrules⟩ := List.append_of_mem hgroup
      have hvisited : (.inGroup, rule) ∈ visitsFrom false rules :=
        mem_visitsFrom_iff.mpr
          ⟨before, group, after, hrules, mem_visits_iff.mpr (.inr ⟨rfl, hholds⟩)⟩
      exact (fault?_eq_none_iff.mp (h _ _ hvisited)).2.1 rfl
  · intro h place sub hvisited
    obtain ⟨hstands, hfinish, hgroup⟩ := h.of_mem_visitsFrom hvisited
    exact fault?_eq_none_iff.mpr
      ⟨hfinish, hgroup, h.groups_filled sub hstands, h.names_declared sub hstands⟩

/-! ### Causes -/

/-- The first fault is that of a rule before which no rule has one. -/
theorem firstFault?_eq_some_iff {visited : List (Place × Rule)} :
    firstFault? args visited = some e ↔
      ∃ before place rule after, visited = before ++ (place, rule) :: after ∧
        rule.fault? args place = some e ∧
        ∀ place rule, (place, rule) ∈ before → rule.fault? args place = none := by
  simp only [firstFault?, List.findSome?_eq_some_iff, Prod.exists, Prod.forall]

/-- What is wrong with a rule has one of four causes. -/
theorem eq_of_fault?_eq_some (h : rule.fault? args place = some e) :
    e = .ruleAfterFinish rule ∨ e = .nestedFinish ∨ e = .emptyAlternative rule.span ∨
      e = .undeclaredArgument rule.lookupName rule.span := by
  unfold fault? at h
  split at h <;> (try split at h) <;> simp_all

/-- A name that is not declared is that of a rule which is looked up by it. -/
theorem needsDeclaration_of_fault? {name : String} {span : Span}
    (h : rule.fault? args place = some (.undeclaredArgument name span)) :
    rule.needsDeclaration = true ∧ rule.lookupName = name ∧ rule.span = span ∧
      name ∉ args.names := by
  unfold fault? at h
  unfold needsDeclaration
  split at h <;> (try split at h) <;> simp_all

/-- In a well-shaped list only a name can be wrong. -/
theorem IsWellShaped.exists_undeclared (h : IsWellShaped rules)
    (hfault : firstFault? args (visitsFrom false rules) = some e) :
    ∃ rule : Rule, rule.StandsIn rules ∧ rule.lookupName ∉ args.names ∧
      e = .undeclaredArgument rule.lookupName rule.span := by
  obtain ⟨before, place, rule, after, hvisits, hfault, -⟩ := firstFault?_eq_some_iff.mp hfault
  have hvisited : (place, rule) ∈ visitsFrom false rules := by simp [hvisits]
  obtain ⟨hstands, hfinish, hgroup⟩ := h.of_mem_visitsFrom hvisited
  have hfilled := h.groups_filled rule hstands
  refine ⟨rule, hstands, ?_⟩
  cases place <;> cases hkind : rule.kind <;>
    simp_all [fault?, RuleKind.isGroup, RuleKind.op?]

end CommandShell.Rule
