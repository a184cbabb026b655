import CommandShell.Proofs.Grammar.Lexemes
import CommandShell.Proofs.Grammar.Reading
import CommandShell.Proofs.Rule.Nesting

/-!
# The notation of grammars

The parser accepts a text exactly if it is a way to write a command name with clauses, and it gives
the rules of those clauses: positional arguments first, then groups, then the end rule.

## Main definitions

* `WrittenLexemes.Writes` — the text is a way to write the phrase

## Main results

* `Grammar.isSound_phrase_iff` — a sound phrase is made of positional arguments and groups
* `Grammar.exists_rulesOf_iff` — lexemes are read as the rules of a sound phrase
* `Phrase.exists_writes` — a sound phrase can be written
* `Grammar.exists_parse_iff` — a text is parsed exactly if it writes a phrase, as the rules of it
-/

namespace CommandShell

namespace Grammar

variable {limit stop : Nat} {clause : Clause} {front groups : List Clause} {rules : List Rule}
  {kinds : List Lexeme.Kind} {lexeme : Lexeme} {lexemes : List Lexeme}

/-! ### Positional arguments -/

/-- A word or a constant at the front is the first positional rule. -/
theorem exists_positionals_cons (hgroup : clause.isGroup = false)
    (hkind : clause.lexemes = [lexeme.kind]) (position : Nat) :
    ∃ rule : Rule, rule.unplaced = clause.rule .required position ∧
      ∀ lexemes, positionals position (lexeme :: lexemes) =
        (rule :: (positionals (position + 1) lexemes).1,
          (positionals (position + 1) lexemes).2) := by
  cases clause with
  | group op alternatives => cases hgroup
  | word name =>
    rw [Clause.lexemes, List.singleton_inj] at hkind
    refine ⟨.leaf .required position name lexeme.span, ?_, fun lexemes => ?_⟩
    · rw [Rule.unplaced, Clause.rule]
    · simp only [positionals, ← hkind]
  | constant name =>
    rw [Clause.lexemes, List.singleton_inj] at hkind
    refine ⟨.leaf .constant position name lexeme.span, ?_, fun lexemes => ?_⟩
    · rw [Rule.unplaced, Clause.rule]
    · simp only [positionals, ← hkind]

/-- What the positional arguments at the front of a list of lexemes say. -/
theorem exists_positionals (position : Nat) (lexemes : List Lexeme) :
    ∃ front, (∀ clause ∈ front, clause.isGroup = false) ∧
      Rule.unplacedAll (positionals position lexemes).1 =
        Clause.rulesFrom .required position front ∧
      lexemes.map Lexeme.kind =
        Clause.lexemesOfAll front ++ (positionals position lexemes).2.map Lexeme.kind := by
  induction lexemes generalizing position with
  | nil => exact ⟨[], by simp, rfl, rfl⟩
  | cons lexeme lexemes ih =>
    obtain ⟨front, hfront, hrules, hkinds⟩ := ih (position + 1)
    by_cases hsingle : ∃ clause : Clause, clause.isGroup = false ∧ clause.lexemes = [lexeme.kind]
    · obtain ⟨clause, hgroup, hkind⟩ := hsingle
      obtain ⟨rule, hrule, hcons⟩ := exists_positionals_cons hgroup hkind position
      refine ⟨clause :: front, List.forall_mem_cons.mpr ⟨hgroup, hfront⟩, ?_, ?_⟩
      · rw [hcons, Rule.unplacedAll, hrule, hrules, Clause.rulesFrom]
      · rw [hcons, List.map_cons, hkinds, Clause.lexemesOfAll, hkind]
        rfl
    · have hnone : positionals position (lexeme :: lexemes) = ([], lexeme :: lexemes) := by
        cases hkind : lexeme.kind with
        | word name =>
          exact absurd ⟨.word name, rfl, by rw [Clause.lexemes, hkind]⟩ hsingle
        | constant name =>
          exact absurd ⟨.constant name, rfl, by rw [Clause.lexemes, hkind]⟩ hsingle
        | _ => simp only [positionals, hkind]
      exact ⟨[], by simp, by rw [hnone]; rfl, by rw [hnone]; rfl⟩

/-- Clauses without brackets are read as far as a bracket opens. -/
theorem positionals_of_kinds (position : Nat) (hfront : ∀ clause ∈ front, clause.isGroup = false)
    (hkinds : lexemes.map Lexeme.kind = Clause.lexemesOfAll front ++ kinds)
    (hopening : ∀ kind ∈ kinds.head?, kind = .opening) :
    Rule.unplacedAll (positionals position lexemes).1 =
        Clause.rulesFrom .required position front ∧
      (positionals position lexemes).2.map Lexeme.kind = kinds := by
  induction front generalizing position lexemes with
  | nil =>
    rw [Clause.lexemesOfAll, List.nil_append] at hkinds
    cases lexemes with
    | nil => exact ⟨rfl, hkinds⟩
    | cons lexeme lexemes =>
      have hkind : lexeme.kind = .opening := hopening _ (by rw [← hkinds]; rfl)
      simp only [positionals, hkind]
      exact ⟨rfl, hkinds⟩
  | cons clause front ih =>
    rw [List.forall_mem_cons] at hfront
    obtain ⟨kind, hkind⟩ := Clause.exists_lexemes_eq hfront.1
    rw [Clause.lexemesOfAll, hkind] at hkinds
    obtain ⟨lexeme, lexemes, rfl, rfl, htail⟩ := List.map_eq_cons_iff.mp hkinds
    obtain ⟨rule, hrule, hcons⟩ := exists_positionals_cons hfront.1 hkind position
    obtain ⟨hrules, hrest⟩ := ih (position + 1) hfront.2 htail
    rw [hcons, Rule.unplacedAll, hrule, hrules, Clause.rulesFrom]
    exact ⟨rfl, hrest⟩

/-- The lexemes of a group begin with an opening bracket. -/
theorem opening_of_groups (hgroups : ∀ clause ∈ groups, clause.isGroup = true) :
    ∀ kind ∈ (Clause.lexemesOfAll groups).head?, kind = .opening := by
  intro kind hkind
  cases groups with
  | nil => cases hkind
  | cons clause groups =>
    cases clause with
    | group op alternatives =>
      rw [Clause.lexemesOfAll, Clause.lexemes] at hkind
      exact (Option.some.inj hkind).symm
    | _ => cases (List.forall_mem_cons.mp hgroups).1

/-! ### Whole grammars -/

/-- Positional arguments come first, then groups that may stand outside of brackets. -/
theorem isSound_phrase_iff {phrase : Phrase} :
    phrase.IsSound ∧ (limit = 0 ∨ phrase.depth ≤ limit) ↔
      ∃ front groups, phrase.clauses = front ++ groups ∧
        (∀ clause ∈ front, clause.isGroup = false) ∧
        ∀ clause ∈ groups, clause.isGroup = true ∧ clause.Admitted limit 0 := by
  rw [Phrase.IsSound, Phrase.depth, Clause.areSound_iff, Clause.depthOfAll_le_iff, List.all_eq_true]
  constructor
  · rintro ⟨⟨hgroups, hsound⟩, hdepth⟩
    refine ⟨_, _, List.takeWhile_append_dropWhile.symm, fun clause h => ?_, fun clause h =>
      ⟨hgroups clause h, ?_⟩⟩
    · simpa using List.all_eq_true.mp List.all_takeWhile clause h
    · have hmem := (List.dropWhile_sublist _).subset h
      exact ⟨hsound clause hmem, hdepth.imp_right fun hdepth => hdepth clause hmem⟩
  · rintro ⟨front, groups, heq, hfront, hgroups⟩
    rw [heq, List.dropWhile_append_of_pos fun clause h => by simp [hfront clause h],
      List.forall_mem_append, List.forall_mem_append]
    have hsingle : ∀ clause ∈ front, clause.IsSound ∧ clause.depth = 0 := by
      intro clause h
      cases clause with
      | group op alternatives => cases hfront _ h
      | _ => exact ⟨by rw [Clause.IsSound]; trivial, by rw [Clause.depth]⟩
    refine ⟨⟨fun clause h => (hgroups clause ((List.dropWhile_sublist _).subset h)).1,
      fun clause h => (hsingle clause h).1, fun clause h => (hgroups clause h).2.1⟩, ?_⟩
    by_cases hlimit : limit = 0
    · exact .inl hlimit
    · refine .inr ⟨fun clause h => by simp [(hsingle clause h).2], fun clause h => ?_⟩
      exact (hgroups clause h).2.2.resolve_left hlimit

/-- The rules are closed by the end rule behind them. -/
theorem unplacedAll_finish {clauses : List Clause}
    (h : Rule.unplacedAll rules.reverse = Clause.rulesFrom .required 0 clauses) (span : Span) :
    Rule.unplacedAll (Rule.finish rules.length span :: rules).reverse =
      Clause.rulesFrom .required 0 clauses ++ [.finish clauses.length (.point 0)] := by
  rw [List.reverse_cons, Rule.unplacedAll_eq_map, List.map_append, ← Rule.unplacedAll_eq_map, h,
    length_eq_of_unplacedAll h]
  rfl

/-- Lexemes are read as rules exactly if they write the clauses of a sound phrase. -/
theorem exists_rulesOf_iff (stop : Nat) {command : String} {unplaced : List Rule} :
    (∃ rules, rulesOf limit stop lexemes = .ok rules ∧ Rule.unplacedAll rules = unplaced) ↔
      ∃ phrase : Phrase, phrase.command = command ∧
        (phrase.IsSound ∧ (limit = 0 ∨ phrase.depth ≤ limit)) ∧
        lexemes.map Lexeme.kind = Clause.lexemesOfAll phrase.clauses ∧
        phrase.rules = unplaced := by
  constructor
  · rintro ⟨all, hall, rfl⟩
    obtain ⟨front, hfront, hrules, hkinds⟩ := exists_positionals 0 lexemes
    obtain ⟨progress, hrun, hfinish⟩ := bind_eq_ok_iff'.mp hall
    have hstart : Progress.Reads limit front
        ⟨(positionals 0 lexemes).1.reverse, .outside⟩ [] :=
      ⟨[], [], by simp, by simpa using hrules, .outside, rfl⟩
    obtain ⟨groups, rest, hgroups, hrules, hplace, hread⟩ := hstart.run hrun
    obtain ⟨rules, place⟩ := progress
    cases hplace with
    | outside =>
      cases hfinish
      refine ⟨⟨command, front ++ groups⟩, rfl,
        isSound_phrase_iff.mpr ⟨front, groups, rfl, hfront, hgroups⟩, ?_, ?_⟩
      · rw [hkinds, Clause.lexemesOfAll_append, ← List.nil_append (List.map _ _), hread,
          List.append_nil]
      · exact (unplacedAll_finish hrules _).symm
    | inside _ => cases hfinish
    | closed _ _ => cases hfinish
  · rintro ⟨⟨_, clauses⟩, rfl, hphrase, hkinds, rfl⟩
    obtain ⟨front, groups, rfl, hfront, hgroups⟩ := isSound_phrase_iff.mp hphrase
    rw [Clause.lexemesOfAll_append] at hkinds
    obtain ⟨hrules, hrest⟩ := positionals_of_kinds 0 hfront hkinds
      (opening_of_groups fun clause h => (hgroups clause h).1)
    rw [← List.reverse_reverse (positionals 0 lexemes).1] at hrules
    obtain ⟨rules', hreach, hrules'⟩ := exists_reaches_groups (fun clause h => (hgroups clause h).1)
      (fun clause h => (hgroups clause h).2) hrest hrules
    exact ⟨_, bind_eq_ok_iff'.mpr ⟨_, hreach, rfl⟩, unplacedAll_finish hrules' _⟩

/-- The first lexeme is the name of the command. -/
theorem exists_ofLexemes_iff {command : String} {unplaced : List Rule} :
    (∃ rules, ofLexemes limit stop lexemes = .ok (command, rules) ∧
        Rule.unplacedAll rules = unplaced) ↔
      ∃ phrase : Phrase, phrase.command = command ∧
        (phrase.IsSound ∧ (limit = 0 ∨ phrase.depth ≤ limit)) ∧
        lexemes.map Lexeme.kind = phrase.lexemes ∧ phrase.rules = unplaced := by
  cases lexemes with
  | nil =>
    refine iff_of_false ?_ ?_
    · rintro ⟨rules, h, -⟩
      cases h
    · rintro ⟨phrase, -, -, h, -⟩
      cases h
  | cons lexeme lexemes =>
    constructor
    · rintro ⟨rules, hread, hrules⟩
      rw [ofLexemes] at hread
      split at hread
      · rename_i name hkind
        obtain ⟨all, hall, heq⟩ := map_eq_ok_iff.mp hread
        cases heq
        obtain ⟨phrase, hcommand, hphrase, hkinds, hunplaced⟩ :=
          (exists_rulesOf_iff stop).mp ⟨_, hall, hrules⟩
        refine ⟨phrase, hcommand, hphrase, ?_, hunplaced⟩
        rw [Phrase.lexemes, List.map_cons, hkinds, hkind, hcommand]
      · cases hread
    · rintro ⟨phrase, hcommand, hphrase, hkinds, hunplaced⟩
      rw [Phrase.lexemes, List.map_cons, List.cons.injEq] at hkinds
      obtain ⟨rules, hread, hrules⟩ :=
        (exists_rulesOf_iff stop).mpr ⟨phrase, hcommand, hphrase, hkinds.2, hunplaced⟩
      refine ⟨rules, ?_, hrules⟩
      rw [ofLexemes, hkinds.1, ← hcommand]
      exact map_eq_ok_iff.mpr ⟨rules, hread, rfl⟩

end Grammar

/-! ### Written phrases -/

/-- The text is a way to write the phrase. -/
def WrittenLexemes.Writes (text : WrittenLexemes) (phrase : Phrase) : Prop :=
  phrase.IsSound ∧ text.IsSound ∧ text.kinds = phrase.lexemes

/-- A sound phrase can be written if its names can. -/
theorem Phrase.exists_writes {phrase : Phrase} (h : phrase.IsSound)
    (hnames : ∀ kind ∈ phrase.lexemes, kind.IsSound) :
    ∃ text : WrittenLexemes, text.Writes phrase := by
  refine ⟨⟨[], phrase.lexemes.map fun kind => (kind, [' '])⟩, h, ⟨rfl, ?_, ?_⟩, ?_⟩
  · -- A blank behind every lexeme keeps the words apart.
    generalize phrase.lexemes = kinds
    induction kinds with
    | nil => trivial
    | cons kind kinds ih =>
      exact WrittenLexemes.isSpaced_cons.mpr
        ⟨by decide, fun _ _ _ _ => List.cons_ne_nil _ _, ih⟩
  · simpa using hnames
  · simp [WrittenLexemes.kinds, Function.comp_def]

namespace Grammar

variable {source : String} {limit : Nat} {grammar : Grammar} {name : String}

/-- A text that is parsed writes a phrase. -/
theorem exists_writes_of_parse (h : parse source limit = .ok grammar) :
    ∃ (phrase : Phrase) (text : WrittenLexemes), text.Writes phrase ∧
      source.toList = text.chars ∧ (limit = 0 ∨ phrase.depth ≤ limit) ∧
      phrase.command = grammar.command ∧ phrase.rules = Rule.unplacedAll grammar.rules := by
  obtain ⟨lexemes, hread, hparse⟩ := bind_eq_ok_iff'.mp h
  obtain ⟨⟨command, rules⟩, hlexemes, rfl⟩ := map_eq_ok_iff.mp hparse
  obtain ⟨text, htext, hchars, rfl⟩ := Lexeme.read_eq_ok_iff.mp hread
  obtain ⟨phrase, hcommand, ⟨hsound, hdepth⟩, hkinds, hrules⟩ :=
    exists_ofLexemes_iff.mp ⟨rules, hlexemes, rfl⟩
  rw [text.map_kind_lexemes] at hkinds
  exact ⟨phrase, text, ⟨hsound, htext, hkinds⟩, hchars, hdepth, hcommand, hrules⟩

/-- A text that writes a phrase is parsed. -/
theorem exists_parse_of_writes {phrase : Phrase} {text : WrittenLexemes}
    (h : text.Writes phrase) (hchars : source.toList = text.chars)
    (hdepth : limit = 0 ∨ phrase.depth ≤ limit) :
    ∃ grammar, parse source limit = .ok grammar ∧ grammar.command = phrase.command ∧
      Rule.unplacedAll grammar.rules = phrase.rules := by
  obtain ⟨hsound, htext, hkinds⟩ := h
  have hread := Lexeme.read_eq_ok_iff.mpr ⟨text, htext, hchars, rfl⟩
  rw [← text.map_kind_lexemes] at hkinds
  obtain ⟨rules, hlexemes, hunplaced⟩ := exists_ofLexemes_iff.mpr
    ⟨phrase, rfl, ⟨hsound, hdepth⟩, hkinds, rfl⟩
  exact ⟨⟨phrase.command, rules, source⟩, bind_eq_ok_iff'.mpr
    ⟨text.lexemes, hread, map_eq_ok_iff.mpr ⟨_, hlexemes, rfl⟩⟩, rfl, hunplaced⟩

/-- A text is parsed exactly if it is a way to write a phrase whose brackets nest no deeper than the
limit; its grammar has the command and the rules of that phrase. -/
theorem exists_parse_iff {command : String} {rules : List Rule} :
    (∃ grammar, parse source limit = .ok grammar ∧ grammar.command = command ∧
        Rule.unplacedAll grammar.rules = rules) ↔
      ∃ (phrase : Phrase) (text : WrittenLexemes), text.Writes phrase ∧
        source.toList = text.chars ∧ (limit = 0 ∨ phrase.depth ≤ limit) ∧
        phrase.command = command ∧ phrase.rules = rules := by
  constructor
  · rintro ⟨grammar, hparse, rfl, rfl⟩
    exact exists_writes_of_parse hparse
  · rintro ⟨phrase, text, hwrites, hchars, hdepth, rfl, rfl⟩
    exact exists_parse_of_writes hwrites hchars hdepth

end Grammar

end CommandShell
