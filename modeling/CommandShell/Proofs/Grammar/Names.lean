import CommandShell.Proofs.Grammar.Notation

/-!
# The names of a grammar

In a grammar that is parsed, the name of every rule stands in the text, as a word or between angle
brackets, inside of any number of groups. Only groups and the end rule have none. So names consist
of name characters.

## Main results

* `Grammar.exists_lexeme_of_mem_subrules` — the names of a clause are those of its lexemes
* `Grammar.isName_command`, `Grammar.isName_lookupName` — the command and the rules have names
-/

namespace CommandShell

theorem WrittenLexemes.IsSound.of_mem_kinds {text : WrittenLexemes} {kind : Lexeme.Kind}
    (h : text.IsSound) (hmem : kind ∈ text.kinds) : kind.IsSound := by
  obtain ⟨entry, hentry, rfl⟩ := List.mem_map.mp hmem
  exact h.2.2 entry hentry

namespace Grammar

variable {source name : String} {limit : Nat} {grammar : Grammar} {sub : Rule} {clause : Clause}
  {member : RuleKind} {position : Nat}

/-- What is nested in a rule is nested in it wherever it is written. -/
theorem subrules_unplaced (rule : Rule) :
    rule.unplaced.subrules = rule.subrules.map Rule.unplaced := by
  -- The recursor goes through the rules that are nested, for which the same holds of the list.
  refine @Rule.rec (fun rule => rule.unplaced.subrules = rule.subrules.map Rule.unplaced)
    (fun rules => Rule.subrulesAll (Rule.unplacedAll rules) =
      (Rule.subrulesAll rules).map Rule.unplaced) ?leaf ?nest ?bare ?nil ?cons rule
  case leaf => exact fun _ _ _ _ => rfl
  case nest =>
    intro kind position rules span ih
    rw [Rule.unplaced, Rule.subrules, Rule.subrules, ih, List.map_cons, Rule.unplaced]
  case bare => exact fun _ _ _ => rfl
  case nil => rfl
  case cons =>
    intro rule rules hrule hrules
    rw [Rule.unplacedAll, Rule.subrulesAll, Rule.subrulesAll, hrule, hrules, List.map_append]

theorem subrulesAll_unplacedAll (rules : List Rule) :
    Rule.subrulesAll (Rule.unplacedAll rules) = (Rule.subrulesAll rules).map Rule.unplaced := by
  induction rules with
  | nil => rfl
  | cons rule rules ih =>
    rw [Rule.unplacedAll, Rule.subrulesAll, Rule.subrulesAll, subrules_unplaced, ih,
      List.map_append]

theorem kind_lookupName_unplaced (rule : Rule) :
    rule.unplaced.kind = rule.kind ∧ rule.unplaced.lookupName = rule.lookupName := by
  cases rule <;> rw [Rule.unplaced] <;> exact ⟨rfl, rfl⟩

/-- The rules of a clause, but for groups, have the names of its lexemes. -/
theorem exists_lexeme_of_mem_subrules (h : sub ∈ (clause.rule member position).subrules)
    (hgroup : sub.kind.isGroup = false) :
    ∃ kind ∈ clause.lexemes, kind = .word sub.lookupName ∨ kind = .constant sub.lookupName := by
  induction clause using Clause.induction generalizing member position with
  | word name =>
    cases List.mem_singleton.mp h
    rw [Clause.lexemes]
    exact ⟨_, List.mem_singleton.mpr rfl, .inl rfl⟩
  | constant name =>
    cases List.mem_singleton.mp h
    rw [Clause.lexemes]
    exact ⟨_, List.mem_singleton.mpr rfl, .inr rfl⟩
  | group op alternatives ih =>
    rw [Clause.rule, Rule.subrules] at h
    rcases List.mem_cons.mp h with rfl | h
    · cases hgroup
    · obtain ⟨rule, hrule, hsub⟩ := Rule.exists_of_mem_subrulesAll h
      obtain ⟨alternative, halternative, clause, hclause, position, rfl⟩ :=
        Clause.exists_of_mem_rulesOfAlternatives hrule
      obtain ⟨kind, hkind, hname⟩ := ih alternative halternative clause hclause hsub
      refine ⟨kind, ?_, hname⟩
      rw [Clause.lexemes]
      refine List.mem_cons_of_mem _ (List.mem_append_left _ ?_)
      exact Clause.lexemesOfAll_subset_lexemesOfAlternatives halternative
        (Clause.lexemes_subset_lexemesOfAll hclause hkind)

/-- The command of a grammar that is parsed is a name. -/
theorem isName_command (h : parse source limit = .ok grammar) :
    Lexeme.Kind.IsName grammar.command.toList := by
  obtain ⟨phrase, text, ⟨-, hsound, hkinds⟩, -, -, hcommand, -⟩ := exists_writes_of_parse h
  have hword : Lexeme.Kind.word grammar.command ∈ text.kinds := by
    rw [hkinds, ← hcommand]
    exact List.mem_cons_self
  exact hsound.of_mem_kinds hword

/-- In a grammar that is parsed every rule, but for groups and the end rule, has a name. -/
theorem isName_lookupName (h : parse source limit = .ok grammar)
    (hsub : sub ∈ Rule.subrulesAll grammar.rules) (hgroup : sub.kind.isGroup = false)
    (hfinish : sub.kind ≠ .finish) : Lexeme.Kind.IsName sub.lookupName.toList := by
  obtain ⟨phrase, text, ⟨-, hsound, hkinds⟩, -, -, -, hrules⟩ := exists_writes_of_parse h
  obtain ⟨hkind, hname⟩ := kind_lookupName_unplaced sub
  have hunplaced : sub.unplaced ∈ Rule.subrulesAll phrase.rules := by
    rw [hrules, subrulesAll_unplacedAll]
    exact List.mem_map_of_mem hsub
  obtain ⟨rule, hrule, hinside⟩ := Rule.exists_of_mem_subrulesAll hunplaced
  rcases List.mem_append.mp hrule with hmem | hmem
  · obtain ⟨clause, hclause, position, rfl⟩ := Clause.exists_of_mem_rulesFrom hmem
    obtain ⟨lexeme, hlexeme, hnamed⟩ :=
      exists_lexeme_of_mem_subrules hinside (by rw [hkind, hgroup])
    rw [hname] at hnamed
    have hwritten : lexeme ∈ text.kinds := by
      rw [hkinds]
      exact List.mem_cons_of_mem _ (Clause.lexemes_subset_lexemesOfAll hclause hlexeme)
    have hlexemeSound := hsound.of_mem_kinds hwritten
    rcases hnamed with rfl | rfl <;> exact hlexemeSound
  · cases List.mem_singleton.mp hmem
    have heq : sub.unplaced.kind = .finish := congrArg Rule.kind (List.mem_singleton.mp hinside)
    exact absurd (hkind.symm.trans heq) hfinish

/-- Every flag of a grammar that is parsed has a name. -/
theorem isName_of_hasFlag (h : parse source limit = .ok grammar) {rule : Rule}
    (hrule : rule ∈ grammar.rules) (hflag : rule.HasFlag name) :
    Lexeme.Kind.IsName name.toList := by
  obtain ⟨sub, hsub, hkind, rfl⟩ := Rule.exists_named_of_hasFlag hflag
  exact isName_lookupName h (Rule.subrules_subset_of_mem hrule hsub) (by rw [hkind]; rfl)
    (by simp [hkind])

end Grammar

end CommandShell
