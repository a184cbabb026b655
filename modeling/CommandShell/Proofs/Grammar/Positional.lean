import CommandShell.Proofs.Grammar.Compiled
import CommandShell.Proofs.Grammar.Lexemes
import CommandShell.Proofs.Tree.Building

/-!
# Commands without a grammar

The grammar of a command that is declared without one is made up from the names of its arguments.
Its text, which the command shows, is a way to write these names. Reading that text gives the same
grammar again, so the command takes what it would take if the text had been its grammar.

## Main definitions

* `Grammar.wordsFrom` — names as the words of a grammar's text

## Main results

* `Grammar.parse_source_ofNames` — the text that is made up from names is read as it was made
* `Tree.exists_build_positionalRules` — the rules of declared names can be built
* `Signature.positional_reads_back` — a command without a grammar is the one with the grammar it
  shows
-/

namespace CommandShell

namespace Grammar

variable {names : List String} {command : String}

/-! ### The words of a made-up text -/

/-- The names as words with a blank before each, the first of which is at the offset `start`. -/
def wordsFrom (start : Nat) : List String → List Lexeme
  | [] => []
  | name :: names =>
    let stop := start + 1 + Text.byteLength name.toList
    ⟨.word name, ⟨start + 1, stop⟩⟩ :: wordsFrom stop names

theorem spelled_cons (name : List Char) (names : List (List Char)) :
    spelled [] (name :: names) = [' '] ++ (name ++ spelled [] names) := by
  simp [spelled]

theorem byteLength_spelled_cons (name : List Char) (names : List (List Char)) :
    Text.byteLength (spelled [] (name :: names)) =
      1 + Text.byteLength name + Text.byteLength (spelled [] names) := by
  rw [spelled_cons, Text.byteLength_append, Text.byteLength_append, Nat.add_assoc]
  rfl

/-- A name ends where the blank before the next one stands. -/
theorem ends_spelled (names : List (List Char)) : Text.Ends (spelled [] names) := by
  cases names with
  | nil => exact Text.ends_nil
  | cons name names =>
    rw [spelled_cons]
    exact Text.ends_cons.mpr (by decide)

/-- Names with a blank before each are read as words. -/
theorem readFrom_names (start : Nat)
    (h : ∀ name ∈ names, Lexeme.Kind.IsName name.toList) :
    Lexeme.readFrom .nothing start (spelled [] (names.map String.toList)) =
      .ok (wordsFrom start names) := by
  induction names generalizing start with
  | nil => rfl
  | cons name names ih =>
    rw [List.forall_mem_cons] at h
    have hword : (Lexeme.Kind.word name).IsSound := h.1
    have hblank : [' '].all Text.isBlank = true := by decide
    rw [List.map_cons, spelled_cons, Lexeme.readFrom_blanks hblank]
    refine (Lexeme.readFrom_written hword _ fun _ => ends_spelled _).trans ?_
    rw [Lexeme.Kind.written, ih _ h.2]
    rfl

/-- Words alone are positional arguments. -/
theorem positionals_wordsFrom (position start : Nat) (names : List String) :
    ∃ rules, positionals position (wordsFrom start names) = (rules, []) ∧
      rules.length = names.length ∧
      positionalRules position start names = rules ++ [.finish (position + names.length)
        (.point (start + Text.byteLength (spelled [] (names.map String.toList))))] := by
  induction names generalizing position start with
  | nil => exact ⟨[], rfl, rfl, rfl⟩
  | cons name names ih =>
    obtain ⟨rules, hread, hlength, hrules⟩ :=
      ih (position + 1) (start + 1 + Text.byteLength name.toList)
    refine ⟨.leaf .required position name
      ⟨start + 1, start + 1 + Text.byteLength name.toList⟩ :: rules, ?_, by simp [hlength], ?_⟩
    · rw [wordsFrom, positionals, hread]
    · rw [positionalRules, hrules]
      simp [byteLength_spelled_cons, Nat.add_assoc, Nat.add_comm 1]

/-! ### Reading a made-up text -/

/-- Words are read as the rules that the names make up. -/
theorem rulesOf_wordsFrom (limit start : Nat) (names : List String) :
    rulesOf limit (start + Text.byteLength (spelled [] (names.map String.toList)))
      (wordsFrom start names) = .ok (positionalRules 0 start names) := by
  obtain ⟨rules, hread, hlength, hrules⟩ := positionals_wordsFrom 0 start names
  rw [rulesOf, hread, hrules]
  simp [Progress.finish, Except.bind, pure, Except.pure, hlength]

/-- The text that is made up from a command and names is read as it was made. -/
theorem parse_source_ofNames (hcommand : Lexeme.Kind.IsName command.toList)
    (hnames : ∀ name ∈ names, Lexeme.Kind.IsName name.toList) (limit : Nat) :
    parse (ofNames command names).source limit = .ok (ofNames command names) := by
  have hsource : (ofNames command names).source.toList =
      command.toList ++ spelled [] (names.map String.toList) :=
    String.toList_ofList
  have hword : (Lexeme.Kind.word command).IsSound := hcommand
  have hread : Lexeme.read (ofNames command names).source =
      .ok (⟨.word command, ⟨0, Text.byteLength command.toList⟩⟩ ::
        wordsFrom (Text.byteLength command.toList) names) := by
    rw [Lexeme.read, hsource]
    refine (Lexeme.readFrom_written hword 0 fun _ => ends_spelled _).trans ?_
    rw [Lexeme.Kind.written, Nat.zero_add, readFrom_names _ hnames]
    rfl
  have hstop : Text.byteLength (ofNames command names).source.toList =
      Text.byteLength command.toList +
        Text.byteLength (spelled [] (names.map String.toList)) := by
    rw [hsource, Text.byteLength_append]
  rw [parse, hread, hstop]
  simp only [Except.bind, ofLexemes, rulesOf_wordsFrom, Except.map]
  rfl

end Grammar

/-! ### Building the rules of declared names -/

namespace Tree

variable {args : ArgumentSet} {names : List String}

theorem firstFault?_positionalRules (position start : Nat) (h : ∀ name ∈ names, name ∈ args.names) :
    Rule.firstFault? args
      (Rule.visitsFrom false (Grammar.positionalRules position start names)) = none := by
  induction names generalizing position start with
  | nil => rfl
  | cons name names ih =>
    rw [List.forall_mem_cons] at h
    rw [Grammar.positionalRules, Rule.visitsFrom, Rule.firstFault?_append,
      Rule.visits_of_not_isFilledGroup rfl, Rule.firstFault?_singleton, Option.or_eq_none_iff]
    exact ⟨if_pos h.1, ih _ _ h.2⟩

/-- Rules that are made up from declared names can be built. -/
theorem exists_build_positionalRules (position start : Nat)
    (h : ∀ name ∈ names, name ∈ args.names) :
    ∃ tree, build args (Grammar.positionalRules position start names) = .ok tree :=
  reports_build.exists_ok_iff.mpr (firstFault?_positionalRules position start h)

end Tree

/-! ### Commands -/

namespace Signature

/-- A command that is declared without a grammar is the command with the grammar that it shows, if
its name and those of its arguments can be written. The text that it shows is read as the very
grammar that was made up, so both have one tree and bind all tokens alike. -/
theorem positional_reads_back (command : String) (args : ArgumentSet)
    (hcommand : Lexeme.Kind.IsName command.toList)
    (hnames : ∀ name ∈ args.names, Lexeme.Kind.IsName name.toList) (limit : Nat) :
    let grammar := Grammar.ofNames command args.names
    Grammar.parse grammar.source limit = .ok grammar ∧
      ∃ given written, positional command args = .ok given ∧
        ofSource grammar.source args limit = .ok written ∧
        given.grammar = grammar ∧ written.grammar = grammar ∧
        given.tree = written.tree ∧ ∀ tokens, given.bind tokens = written.bind tokens := by
  intro grammar
  have hparse := Grammar.parse_source_ofNames hcommand hnames limit
  obtain ⟨tree, hbuild⟩ : ∃ tree, Tree.build args grammar.rules = .ok tree :=
    Tree.exists_build_positionalRules _ _ fun _ h => h
  have hcompile := ofGrammar_eq hbuild
  refine ⟨hparse, ⟨grammar, args, tree, hbuild⟩, ⟨grammar, args, tree, hbuild⟩, hcompile, ?_, rfl,
    rfl, rfl, fun _ => rfl⟩
  exact bind_eq_ok_iff'.mpr ⟨grammar, hparse, hcompile⟩

/-- The command `spawn` over the arguments `count` and `2nd.name` shows `spawn count 2nd.name`. -/
theorem positional_reads_back_spawn :
    let args : ArgumentSet :=
      ⟨[⟨"count", .int, none, none⟩, ⟨"2nd.name", .str, none, none⟩], by simp⟩
    Lexeme.Kind.IsName "spawn".toList ∧
      (∀ name ∈ args.names, Lexeme.Kind.IsName name.toList) ∧
      ∃ given written, positional "spawn" args = .ok given ∧
        ofSource "spawn count 2nd.name" args Grammar.defaultMaxDepth = .ok written ∧
        given.tree = written.tree ∧ ∀ tokens, given.bind tokens = written.bind tokens := by
  intro args
  have hcommand : Lexeme.Kind.IsName "spawn".toList := ⟨by decide, by decide⟩
  have hnames : ∀ name ∈ args.names, Lexeme.Kind.IsName name.toList := by
    simp only [args, ArgumentSet.names, List.map_cons, List.map_nil, List.forall_mem_cons,
      Lexeme.Kind.IsName]
    decide
  obtain ⟨-, given, written, hgiven, hwritten, -, -, htree, hbind⟩ :=
    positional_reads_back "spawn" args hcommand hnames Grammar.defaultMaxDepth
  exact ⟨hcommand, hnames, given, written, hgiven, hwritten, htree, hbind⟩

end Signature

end CommandShell
