import CommandShell.Grammar.Basic
import CommandShell.Grammar.Lexeme.Reader

/-!
# Parsing grammars

A grammar is written as a command name, then its positional arguments, then its groups:

```text
grammar  := command (word | <constant>)* group*
group    := '[' alternative ('|' alternative)* ']' operator
alternative := (word | <constant> | group)+
operator := '?' | '*' | '+' | '!' | '@'
```

Lexemes are read one at a time into the stack of brackets that are still open. What a word in a
bracket means depends on the operator after it, so the items of a bracket become rules only when
that operator has been read.

## Main definitions

* `Grammar.Item`, `Grammar.Frame`, `Grammar.Place` — the brackets still open
* `Grammar.arrange` — the items of a bracket as the rules of a group
* `Grammar.parse` — the grammar of a text, with a limit on the nesting of brackets
-/

namespace CommandShell.Grammar

/-! ### The items of a bracket -/

/-- An item of a bracket, before its operator says what kind of rule a word is. -/
inductive Item
  | word (name : String) (span : Span)
  | constant (name : String) (span : Span)
  | group (op : GroupOp) (rules : List Rule) (span : Span)
  | bar (span : Span)
  deriving Repr

/-- The rules of a group with the operator `op`, whose items are these. Positions go on from
`position` and restart at 0 after every bar; `separator` is the bracket or bar before the current
alternative. -/
def arrange (op : GroupOp) (position : Nat) (separator : Span) :
    List Item → Except GrammarError (List Rule)
  | [] => if position = 0 then .error (.emptyAlternative separator) else .ok []
  | .bar span :: items =>
    if position = 0 then .error (.emptyAlternative span) else arrange op 0 span items
  | .word name span :: items =>
    (arrange op (position + 1) separator items).map (.leaf op.memberKind position name span :: ·)
  | .constant name span :: items =>
    (arrange op (position + 1) separator items).map (.leaf .constant position name span :: ·)
  | .group inner rules span :: items =>
    (arrange op (position + 1) separator items).map
      (.nest (.group inner) position rules span :: ·)

/-! ### Reading lexemes -/

/-- A bracket whose operator has not been read: where it opened, and its items so far, last
first. -/
structure Frame where
  opened : Span
  items : List Item

/-- The frame with one more item. -/
def Frame.add (frame : Frame) (item : Item) : Frame := { frame with items := item :: frame.items }

/-- Where the parser stands among the brackets of a grammar; outer brackets come last. -/
inductive Place
  /-- Outside of all brackets. -/
  | outside
  /-- Inside a bracket. -/
  | inside (frame : Frame) (outer : List Frame)
  /-- Right after the `]` of a bracket, before its operator. -/
  | closed (frame : Frame) (outer : List Frame) (closing : Span)

/-- The rules read so far, last first, and where the parser stands. -/
structure Progress where
  rules : List Rule
  place : Place

/-- A new bracket inside of the brackets `outer`, unless it lies deeper than `limit`; a limit of 0
is none. -/
def openBracket (limit : Nat) (outer : List Frame) (span : Span) : Except GrammarError Place :=
  if limit ≠ 0 ∧ outer.length + 1 > limit then .error (.nestingTooDeep limit span)
  else .ok (.inside ⟨span, []⟩ outer)

/-- Reads one lexeme of the groups of a grammar. -/
def step (limit : Nat) (progress : Progress) (lexeme : Lexeme) : Except GrammarError Progress :=
  let span := lexeme.span
  match progress.place with
  | .outside =>
    match lexeme.kind with
    | .opening => (openBracket limit [] span).map fun place => { progress with place }
    | .word _ | .constant _ =>
      .error (.unexpectedLexeme lexeme.kind .groupAfterPositionals span)
    | .closing | .bar | .operator _ => .error (.unexpectedLexeme lexeme.kind .group span)
  | .inside frame outer =>
    match lexeme.kind with
    | .opening =>
      (openBracket limit (frame :: outer) span).map fun place => { progress with place }
    | .closing => .ok { progress with place := .closed frame outer span }
    | .word name => .ok { progress with place := .inside (frame.add (.word name span)) outer }
    | .constant name =>
      .ok { progress with place := .inside (frame.add (.constant name span)) outer }
    | .bar => .ok { progress with place := .inside (frame.add (.bar span)) outer }
    | .operator _ => .error (.unexpectedLexeme lexeme.kind .groupItem span)
  | .closed frame outer closing =>
    match lexeme.kind with
    | .operator op =>
      (arrange op 0 frame.opened frame.items.reverse).map fun rules =>
        let whole := frame.opened.join span
        match outer with
        -- Positions of top-level rules go on; those of nested ones are given by `arrange`.
        | [] =>
          { rules := .nest (.group op) progress.rules.length rules whole :: progress.rules,
            place := .outside }
        | parent :: outer =>
          { progress with place := .inside (parent.add (.group op rules whole)) outer }
    | _ => .error (.missingOperator (.point closing.stop))

/-- The rules of a grammar whose lexemes have all been read. -/
def Progress.finish (progress : Progress) (stop : Nat) : Except GrammarError (List Rule) :=
  match progress.place with
  | .outside => .ok (.finish progress.rules.length (.point stop) :: progress.rules).reverse
  | .inside frame _ => .error (.unclosedBracket frame.opened)
  | .closed _ _ closing => .error (.missingOperator (.point closing.stop))

/-- The positional arguments and constants at the front of a list of lexemes, numbered from
`position`, and the lexemes after them. -/
def positionals (position : Nat) : List Lexeme → List Rule × List Lexeme
  | [] => ([], [])
  | lexeme :: lexemes =>
    match lexeme.kind with
    | .word name =>
      let (rules, rest) := positionals (position + 1) lexemes
      (.leaf .required position name lexeme.span :: rules, rest)
    | .constant name =>
      let (rules, rest) := positionals (position + 1) lexemes
      (.leaf .constant position name lexeme.span :: rules, rest)
    | .opening | .closing | .bar | .operator _ => ([], lexeme :: lexemes)

/-- The rules that come after the command name in a grammar of `stop` bytes. -/
def rulesOf (limit stop : Nat) (lexemes : List Lexeme) : Except GrammarError (List Rule) :=
  let (rules, rest) := positionals 0 lexemes
  (rest.foldlM (step limit) ⟨rules.reverse, .outside⟩).bind (·.finish stop)

/-- The command name and the rules that a list of lexemes writes, in a text of `stop` bytes. -/
def ofLexemes (limit stop : Nat) : List Lexeme → Except GrammarError (String × List Rule)
  | [] => .error (.unexpectedEnd .commandName (.point stop))
  | lexeme :: lexemes =>
    match lexeme.kind with
    | .word command => (rulesOf limit stop lexemes).map fun rules => (command, rules)
    | kind => .error (.unexpectedLexeme kind .commandName lexeme.span)

/-- The grammar that a text writes, if its brackets nest no deeper than `limit`; a limit of 0 is
none. -/
def parse (source : String) (limit : Nat) : Except GrammarError Grammar :=
  (Lexeme.read source).bind fun lexemes =>
    (ofLexemes limit (Text.byteLength source.toList) lexemes).map fun (command, rules) =>
      ⟨command, rules, source⟩

end CommandShell.Grammar
