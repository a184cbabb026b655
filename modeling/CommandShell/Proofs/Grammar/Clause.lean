import CommandShell.Grammar.Clause

/-!
# Clauses one by one

What is said about a list of clauses holds of its clauses one by one, and what is said about the
alternatives of a group holds of each of them. Properties of clauses are proved by induction on
the nesting of brackets, where a group may rely on the clauses of its alternatives.

## Main results

* `Clause.induction` — induction on clauses, through the alternatives of groups
* `Clause.lexemesOfAlternatives_append_singleton` — a bar ends every alternative but the last
* `Clause.depthOfAll_le_iff`, `Clause.areSound_iff` — depth and soundness, clause by clause
* `Phrase.depthOfAll_rules` — the brackets of a phrase nest as deep as those of its rules
-/

namespace CommandShell

namespace Clause

variable {clauses : List Clause} {alternatives : List (List Clause)} {limit : Nat}

/-- Induction on clauses: a group may rely on all clauses of all of its alternatives. -/
theorem induction {motive : Clause → Prop} (word : ∀ name, motive (.word name))
    (constant : ∀ name, motive (.constant name))
    (group : ∀ op alternatives,
      (∀ alternative ∈ alternatives, ∀ clause ∈ alternative, motive clause) →
      motive (.group op alternatives)) (clause : Clause) : motive clause := by
  refine @Clause.rec motive (fun alternatives => ∀ alternative ∈ alternatives,
    ∀ clause ∈ alternative, motive clause) (fun clauses => ∀ clause ∈ clauses, motive clause)
    word constant group ?_ ?_ ?_ ?_ clause
  · exact fun _ h => absurd h List.not_mem_nil
  · exact fun _ _ hfirst hrest => List.forall_mem_cons.mpr ⟨hfirst, hrest⟩
  · exact fun _ h => absurd h List.not_mem_nil
  · exact fun _ _ hfirst hrest => List.forall_mem_cons.mpr ⟨hfirst, hrest⟩

/-! ### Written form -/

theorem lexemesOfAll_append (first second : List Clause) :
    lexemesOfAll (first ++ second) = lexemesOfAll first ++ lexemesOfAll second := by
  induction first with
  | nil => rfl
  | cons clause first ih => rw [List.cons_append, lexemesOfAll, lexemesOfAll, ih, List.append_assoc]

theorem lexemesOfAll_singleton (clause : Clause) : lexemesOfAll [clause] = clause.lexemes := by
  rw [lexemesOfAll, lexemesOfAll, List.append_nil]

/-- A word or a constant is one lexeme. -/
theorem exists_lexemes_eq {clause : Clause} (h : clause.isGroup = false) :
    ∃ kind, clause.lexemes = [kind] := by
  cases clause with
  | group op alternatives => cases h
  | _ => exact ⟨_, by rw [lexemes]⟩

theorem lexemes_subset_lexemesOfAll {clause : Clause} (h : clause ∈ clauses) :
    clause.lexemes ⊆ lexemesOfAll clauses := by
  induction clauses with
  | nil => exact absurd h List.not_mem_nil
  | cons first clauses ih =>
    rw [lexemesOfAll]
    rcases List.mem_cons.mp h with rfl | h
    · exact List.subset_append_left _ _
    · exact List.subset_append_of_subset_right _ (ih h)

theorem lexemesOfAlternatives_cons (alternative : List Clause) (h : alternatives ≠ []) :
    lexemesOfAlternatives (alternative :: alternatives) =
      lexemesOfAll alternative ++ .bar :: lexemesOfAlternatives alternatives := by
  cases alternatives with
  | nil => exact absurd rfl h
  | cons next others => rw [lexemesOfAlternatives]; exact List.cons_ne_nil _ _

/-- A bar ends every alternative but the last. -/
theorem lexemesOfAlternatives_append_singleton (finished : List (List Clause))
    (current : List Clause) :
    lexemesOfAlternatives (finished ++ [current]) =
      finished.flatMap (fun alternative => lexemesOfAll alternative ++ [.bar]) ++
        lexemesOfAll current := by
  induction finished with
  | nil => rfl
  | cons alternative finished ih =>
    rw [List.cons_append, lexemesOfAlternatives_cons _ (by simp), ih, List.flatMap_cons,
      List.append_assoc, List.append_assoc]
    rfl

theorem lexemesOfAll_subset_lexemesOfAlternatives {alternative : List Clause}
    (h : alternative ∈ alternatives) :
    lexemesOfAll alternative ⊆ lexemesOfAlternatives alternatives := by
  induction alternatives with
  | nil => exact absurd h List.not_mem_nil
  | cons first others ih =>
    by_cases hothers : others = []
    · subst hothers
      rw [List.mem_singleton.mp h, lexemesOfAlternatives]
      exact List.Subset.refl _
    · rw [lexemesOfAlternatives_cons _ hothers]
      rcases List.mem_cons.mp h with rfl | h
      · exact List.subset_append_left _ _
      · exact List.subset_append_of_subset_right _ (List.subset_cons_of_subset _ (ih h))

/-! ### Rules -/

theorem exists_of_mem_rulesFrom {member : RuleKind} {position : Nat} {rule : Rule}
    (h : rule ∈ rulesFrom member position clauses) :
    ∃ clause ∈ clauses, ∃ position, rule = clause.rule member position := by
  induction clauses generalizing position with
  | nil => exact absurd h List.not_mem_nil
  | cons clause clauses ih =>
    rw [rulesFrom] at h
    rcases List.mem_cons.mp h with rfl | h
    · exact ⟨clause, List.mem_cons_self, position, rfl⟩
    · obtain ⟨other, hother, hrule⟩ := ih h
      exact ⟨other, List.mem_cons_of_mem _ hother, hrule⟩

theorem exists_of_mem_rulesOfAlternatives {member : RuleKind} {rule : Rule}
    (h : rule ∈ rulesOfAlternatives member alternatives) :
    ∃ alternative ∈ alternatives, ∃ clause ∈ alternative, ∃ position,
      rule = clause.rule member position := by
  induction alternatives with
  | nil => exact absurd h List.not_mem_nil
  | cons alternative alternatives ih =>
    rw [rulesOfAlternatives] at h
    rcases List.mem_append.mp h with h | h
    · exact ⟨alternative, List.mem_cons_self, exists_of_mem_rulesFrom h⟩
    · obtain ⟨other, hother, hrule⟩ := ih h
      exact ⟨other, List.mem_cons_of_mem _ hother, hrule⟩

theorem rulesFrom_append (member : RuleKind) (position : Nat) (first second : List Clause) :
    rulesFrom member position (first ++ second) =
      rulesFrom member position first ++ rulesFrom member (position + first.length) second := by
  induction first generalizing position with
  | nil => rfl
  | cons clause first ih =>
    rw [List.cons_append, rulesFrom, rulesFrom, ih, List.length_cons, List.cons_append,
      Nat.add_right_comm, Nat.add_assoc]

@[simp] theorem length_rulesFrom (member : RuleKind) (position : Nat) (clauses : List Clause) :
    (rulesFrom member position clauses).length = clauses.length := by
  induction clauses generalizing position with
  | nil => rfl
  | cons clause clauses ih => rw [rulesFrom, List.length_cons, ih, List.length_cons]

theorem rulesOfAlternatives_append_singleton (member : RuleKind) (finished : List (List Clause))
    (current : List Clause) :
    rulesOfAlternatives member (finished ++ [current]) =
      rulesOfAlternatives member finished ++ rulesFrom member 0 current := by
  induction finished with
  | nil => simp [rulesOfAlternatives]
  | cons alternative finished ih =>
    rw [List.cons_append, rulesOfAlternatives, rulesOfAlternatives, ih, List.append_assoc]

/-! ### Depth and soundness -/

theorem depthOfAll_le_iff :
    depthOfAll clauses ≤ limit ↔ ∀ clause ∈ clauses, clause.depth ≤ limit := by
  induction clauses with
  | nil => simp [depthOfAll]
  | cons clause clauses ih => rw [depthOfAll, Nat.max_le, ih, List.forall_mem_cons]

theorem depthOfAlternatives_le_iff :
    depthOfAlternatives alternatives ≤ limit ↔
      ∀ alternative ∈ alternatives, ∀ clause ∈ alternative, clause.depth ≤ limit := by
  induction alternatives with
  | nil => simp [depthOfAlternatives]
  | cons alternative alternatives ih =>
    rw [depthOfAlternatives, Nat.max_le, ih, depthOfAll_le_iff, List.forall_mem_cons]

theorem areSound_iff : AreSound clauses ↔ ∀ clause ∈ clauses, clause.IsSound := by
  induction clauses with
  | nil => simp [AreSound]
  | cons clause clauses ih => rw [AreSound, ih, List.forall_mem_cons]

theorem areSoundAlternatives_iff :
    AreSoundAlternatives alternatives ↔
      ∀ alternative ∈ alternatives, alternative ≠ [] ∧ ∀ clause ∈ alternative, clause.IsSound := by
  induction alternatives with
  | nil => simp [AreSoundAlternatives]
  | cons alternative alternatives ih =>
    rw [AreSoundAlternatives, ih, areSound_iff, List.forall_mem_cons, and_assoc]

end Clause

/-! ### Rules nest as clauses do -/

namespace Rule

theorem unplacedAll_eq_map (rules : List Rule) : unplacedAll rules = rules.map unplaced := by
  induction rules with
  | nil => rfl
  | cons rule rules ih => rw [unplacedAll, ih, List.map_cons]

theorem depthOfAll_append (rules others : List Rule) :
    depthOfAll (rules ++ others) = max (depthOfAll rules) (depthOfAll others) := by
  induction rules with
  | nil => simp [depthOfAll]
  | cons rule rules ih => rw [List.cons_append, depthOfAll, depthOfAll, ih, Nat.max_assoc]

/-- Brackets nest as deep wherever they are written. -/
theorem depth_unplaced (rule : Rule) : rule.unplaced.depth = rule.depth := by
  -- The recursor goes through the rules that are nested, for which the same holds of the list.
  refine @Rule.rec (fun rule => rule.unplaced.depth = rule.depth)
    (fun rules => depthOfAll (unplacedAll rules) = depthOfAll rules) ?leaf ?nest ?bare ?nil ?cons
    rule
  case leaf => exact fun _ _ _ _ => rfl
  case nest =>
    intro kind position rules span ih
    rw [unplaced, depth, depth, ih]
  case bare => exact fun _ _ _ => rfl
  case nil => rfl
  case cons =>
    intro rule rules hrule hrules
    rw [unplacedAll, depthOfAll, depthOfAll, hrule, hrules]

theorem depthOfAll_unplacedAll (rules : List Rule) :
    depthOfAll (unplacedAll rules) = depthOfAll rules := by
  induction rules with
  | nil => rfl
  | cons rule rules ih => rw [unplacedAll, depthOfAll, depthOfAll, depth_unplaced, ih]

end Rule

namespace Clause

variable {clauses : List Clause} {alternatives : List (List Clause)} {member : RuleKind}

theorem depthOfAll_rulesFrom (position : Nat)
    (h : ∀ clause ∈ clauses, ∀ position, (clause.rule member position).depth = clause.depth) :
    Rule.depthOfAll (rulesFrom member position clauses) = depthOfAll clauses := by
  induction clauses generalizing position with
  | nil => rfl
  | cons clause clauses ih =>
    rw [List.forall_mem_cons] at h
    rw [rulesFrom, Rule.depthOfAll, depthOfAll, h.1, ih _ h.2]

theorem depthOfAll_rulesOfAlternatives
    (h : ∀ alternative ∈ alternatives, ∀ clause ∈ alternative, ∀ position,
      (clause.rule member position).depth = clause.depth) :
    Rule.depthOfAll (rulesOfAlternatives member alternatives) =
      depthOfAlternatives alternatives := by
  induction alternatives with
  | nil => rfl
  | cons alternative alternatives ih =>
    rw [List.forall_mem_cons] at h
    rw [rulesOfAlternatives, depthOfAlternatives, Rule.depthOfAll_append,
      depthOfAll_rulesFrom 0 h.1, ih h.2]

/-- The brackets of a clause nest as deep as those of its rule. -/
theorem depth_rule (member : RuleKind) (position : Nat) (clause : Clause) :
    (clause.rule member position).depth = clause.depth := by
  induction clause using Clause.induction generalizing member position with
  | word name => rw [rule, depth, Rule.depth]
  | constant name => rw [rule, depth, Rule.depth]
  | group op alternatives ih =>
    rw [rule, depth, Rule.depth, depthOfAll_rulesOfAlternatives fun alternative halternative
      clause hclause position => ih alternative halternative clause hclause _ position]

end Clause

/-- The brackets of a phrase nest as deep as those of its rules. -/
theorem Phrase.depthOfAll_rules (phrase : Phrase) :
    Rule.depthOfAll phrase.rules = phrase.depth := by
  rw [rules, depth, Rule.depthOfAll_append,
    Clause.depthOfAll_rulesFrom 0 fun clause _ position => Clause.depth_rule _ position clause]
  exact Nat.max_eq_left (Nat.zero_le _)

end CommandShell
