import CommandShell.Proofs.Outcome
import CommandShell.Signature

/-!
# Compiled signatures

A signature is compiled from the text of a grammar, or from the names of its arguments alone. Either
way the last of its rules ends the line.

## Main definitions

* `Signature.IsCompiled` — the signature comes from a grammar's text, or from argument names

## Main results

* `Signature.IsCompiled.getLast?_rules` — the last rule of a compiled signature ends the line
-/

namespace CommandShell

namespace Grammar

variable {limit stop : Nat} {lexemes : List Lexeme} {rules : List Rule} {command source : String}
  {grammar : Grammar}

/-- The list of rules is closed by the end of the line. -/
theorem getLast?_of_finish {progress : Progress} (h : progress.finish stop = .ok rules) :
    rules.getLast?.map Rule.kind = some .finish := by
  unfold Progress.finish at h
  split at h
  · cases h
    rw [List.getLast?_reverse]
    rfl
  all_goals cases h

theorem getLast?_of_ofLexemes (h : ofLexemes limit stop lexemes = .ok (command, rules)) :
    rules.getLast?.map Rule.kind = some .finish := by
  unfold ofLexemes at h
  split at h
  · cases h
  · split at h
    · obtain ⟨read, hread, heq⟩ := map_eq_ok_iff.mp h
      cases heq
      obtain ⟨progress, -, hfinish⟩ := bind_eq_ok_iff'.mp hread
      exact getLast?_of_finish hfinish
    · cases h

/-- The last rule of a parsed grammar ends the line. -/
theorem getLast?_of_parse (h : parse source limit = .ok grammar) :
    grammar.rules.getLast?.map Rule.kind = some .finish := by
  obtain ⟨lexemes, -, h⟩ := bind_eq_ok_iff'.mp h
  obtain ⟨⟨command, rules⟩, hrules, rfl⟩ := map_eq_ok_iff.mp h
  exact getLast?_of_ofLexemes hrules

theorem getLast?_positionalRules (position start : Nat) (names : List String) :
    (positionalRules position start names).getLast?.map Rule.kind = some .finish := by
  -- Every name moves the position and the offset on, so the induction is for all of them.
  induction names generalizing position start with
  | nil => rfl
  | cons name names ih =>
    obtain ⟨last, hlast, hkind⟩ :=
      Option.map_eq_some_iff.mp (ih (position + 1) (start + 1 + Text.byteLength name.toList))
    rw [positionalRules, List.getLast?_cons, hlast]
    exact congrArg some hkind

end Grammar

namespace Signature

variable {signature : Signature} {grammar : Grammar} {args : ArgumentSet} {tree : Tree}

/-- A signature over the arguments has the rules of its grammar, and the tree that is built from
them. -/
theorem ofGrammar_eq_ok (h : ofGrammar grammar args = .ok signature) :
    signature.grammar = grammar ∧ signature.args = args := by
  unfold ofGrammar at h
  split at h <;> cases h
  exact ⟨rfl, rfl⟩

theorem ofGrammar_eq_error_iff {e : GrammarError} :
    ofGrammar grammar args = .error e ↔ Tree.build args grammar.rules = .error e := by
  unfold ofGrammar
  split
  · rename_i tree hbuild
    exact iff_of_false (fun h => by cases h) fun h => by cases hbuild.symm.trans h
  · rename_i fault hbuild
    rw [hbuild, Except.error.injEq, Except.error.injEq]

theorem ofGrammar_eq (h : Tree.build args grammar.rules = .ok tree) :
    ofGrammar grammar args = .ok ⟨grammar, args, tree, h⟩ := by
  unfold ofGrammar
  split
  · rename_i other hother
    cases hother.symm.trans h
    rfl
  · rename_i e he
    cases he.symm.trans h

/-- The signature comes from the text of a grammar, or from the names of its arguments alone. -/
def IsCompiled (signature : Signature) : Prop :=
  (∃ source limit, ofSource source signature.args limit = .ok signature) ∨
    ∃ command, positional command signature.args = .ok signature

/-- The last rule of a compiled signature ends the line. -/
theorem IsCompiled.getLast?_rules (h : signature.IsCompiled) :
    signature.grammar.rules.getLast?.map Rule.kind = some .finish := by
  rcases h with ⟨source, limit, h⟩ | ⟨command, h⟩
  · obtain ⟨grammar, hparse, h⟩ := bind_eq_ok_iff'.mp h
    rw [(ofGrammar_eq_ok h).1]
    exact Grammar.getLast?_of_parse hparse
  · rw [(ofGrammar_eq_ok h).1]
    exact Grammar.getLast?_positionalRules _ _ _

end Signature

end CommandShell
