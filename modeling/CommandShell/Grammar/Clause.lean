import CommandShell.Grammar.Lexeme.Basic

/-!
# Clauses

What a grammar says, apart from where it is written. Its clauses are words, constants, and groups
of alternatives, which are clauses in turn. A rule list stores the alternatives of a group one after
the other; positions, which begin again with every alternative, tell them apart.

## Main definitions

* `Clause` — an element of a grammar
* `Clause.lexemes` — how the clause is written
* `Clause.rule` — the rule of the clause, placed nowhere
* `Clause.depth`, `Clause.IsSound` — how deep its brackets nest, and whether none of them is empty
* `Phrase` — a command name with clauses
* `Rule.unplaced` — a rule without the places where it is written
* `Rule.depth` — how deep the brackets of a rule nest
-/

namespace CommandShell

/-- An element of a grammar. -/
inductive Clause
  | word (name : String)
  | constant (name : String)
  | group (op : GroupOp) (alternatives : List (List Clause))
  deriving Repr

namespace Clause

/-! ### Written form -/

mutual

def lexemes : Clause → List Lexeme.Kind
  | word name => [.word name]
  | constant name => [.constant name]
  | group op alternatives =>
    .opening :: (lexemesOfAlternatives alternatives ++ [.closing, .operator op])

def lexemesOfAll : List Clause → List Lexeme.Kind
  | [] => []
  | clause :: clauses => clause.lexemes ++ lexemesOfAll clauses

/-- How alternatives are written, with a bar between any two. -/
def lexemesOfAlternatives : List (List Clause) → List Lexeme.Kind
  | [] => []
  | [alternative] => lexemesOfAll alternative
  | alternative :: alternatives =>
    lexemesOfAll alternative ++ .bar :: lexemesOfAlternatives alternatives

end

def isGroup : Clause → Bool
  | group .. => true
  | word _ | constant _ => false

mutual

def depth : Clause → Nat
  | word _ | constant _ => 0
  | group _ alternatives => depthOfAlternatives alternatives + 1

def depthOfAll : List Clause → Nat
  | [] => 0
  | clause :: clauses => max clause.depth (depthOfAll clauses)

def depthOfAlternatives : List (List Clause) → Nat
  | [] => 0
  | alternative :: alternatives => max (depthOfAll alternative) (depthOfAlternatives alternatives)

end

mutual

/-- Every group in the clause has an alternative, and none of its alternatives is empty. -/
def IsSound : Clause → Prop
  | word _ | constant _ => True
  | group _ alternatives => alternatives ≠ [] ∧ AreSoundAlternatives alternatives

def AreSound : List Clause → Prop
  | [] => True
  | clause :: clauses => clause.IsSound ∧ AreSound clauses

/-- The alternatives are sound, and none of them is empty. -/
def AreSoundAlternatives : List (List Clause) → Prop
  | [] => True
  | alternative :: alternatives =>
    alternative ≠ [] ∧ AreSound alternative ∧ AreSoundAlternatives alternatives

end

/-! ### Rules -/

mutual

/-- The rule of a clause at a position, placed nowhere; its words outside of brackets have the kind
`member`. -/
def rule (member : RuleKind) (position : Nat) : Clause → Rule
  | word name => .leaf member position name (.point 0)
  | constant name => .leaf .constant position name (.point 0)
  | group op alternatives =>
    .nest (.group op) position (rulesOfAlternatives op.memberKind alternatives) (.point 0)

/-- The rules of clauses, numbered from `position`. -/
def rulesFrom (member : RuleKind) (position : Nat) : List Clause → List Rule
  | [] => []
  | clause :: clauses => clause.rule member position :: rulesFrom member (position + 1) clauses

/-- The rules of alternatives, each numbered from 0. -/
def rulesOfAlternatives (member : RuleKind) : List (List Clause) → List Rule
  | [] => []
  | alternative :: alternatives =>
    rulesFrom member 0 alternative ++ rulesOfAlternatives member alternatives

end

end Clause

/-! ### Whole grammars -/

/-- A command name with clauses. -/
structure Phrase where
  command : String
  clauses : List Clause
  deriving Repr

namespace Phrase

/-- The groups come last, and every group is sound. -/
def IsSound (phrase : Phrase) : Prop :=
  (phrase.clauses.dropWhile fun clause => !clause.isGroup).all Clause.isGroup ∧
    Clause.AreSound phrase.clauses

def lexemes (phrase : Phrase) : List Lexeme.Kind :=
  .word phrase.command :: Clause.lexemesOfAll phrase.clauses

/-- The rules of the phrase, placed nowhere, with the end rule behind them. -/
def rules (phrase : Phrase) : List Rule :=
  Clause.rulesFrom .required 0 phrase.clauses ++ [.finish phrase.clauses.length (.point 0)]

def depth (phrase : Phrase) : Nat := Clause.depthOfAll phrase.clauses

end Phrase

namespace Rule

mutual

/-- The rule without the places where it and its rules are written. -/
def unplaced : Rule → Rule
  | leaf kind position name _ => leaf kind position name (.point 0)
  | nest kind position rules _ => nest kind position (unplacedAll rules) (.point 0)
  | bare kind position _ => bare kind position (.point 0)

def unplacedAll : List Rule → List Rule
  | [] => []
  | rule :: rules => rule.unplaced :: unplacedAll rules

end

mutual

def depth : Rule → Nat
  | leaf .. | bare .. => 0
  | nest _ _ rules _ => depthOfAll rules + 1

def depthOfAll : List Rule → Nat
  | [] => 0
  | rule :: rules => max rule.depth (depthOfAll rules)

end

end Rule

end CommandShell
