import CommandShell.Span

/-!
# Rules

A rule is one element of a grammar: a name, a bracketed group of rules, or the mark that ends the
rule list. The kind of a rule says how it is matched. Groups store their alternatives in one flat
list, in which a rule at position 0 begins a new alternative.

## Main definitions

* `GroupOp` — the operators that follow a bracket
* `RuleKind` — what a rule matches
* `Rule` — a rule with its position among its siblings and its span in the source
* `Rule.alternatives` — the alternatives of a group's rule list
* `Rule.minimumArguments` — the fewest tokens that are worth matching against a rule list

## Main results

* `GroupOp.ofChar?_eq_some_iff` — each operator has one character
* `Rule.flatten_alternatives` — the alternatives of a rule list make up the list
-/

namespace CommandShell

/-- The operators that follow a bracketed group. -/
inductive GroupOp
  /-- `[...]?`, at most once -/
  | zeroOrOne
  /-- `[...]*`, any number of times -/
  | zeroOrMore
  /-- `[...]+`, at least once -/
  | oneOrMore
  /-- `[...]!`, exactly once -/
  | exactlyOneOf
  /-- `[...]@`, any number of times, its words without flags -/
  | freeForm
  deriving DecidableEq, Repr

namespace GroupOp

/-- The character that writes the operator. -/
def char : GroupOp → Char
  | .zeroOrOne => '?'
  | .zeroOrMore => '*'
  | .oneOrMore => '+'
  | .exactlyOneOf => '!'
  | .freeForm => '@'

/-- The operator that a character writes. -/
def ofChar? : Char → Option GroupOp
  | '?' => some .zeroOrOne
  | '*' => some .zeroOrMore
  | '+' => some .oneOrMore
  | '!' => some .exactlyOneOf
  | '@' => some .freeForm
  | _ => none

@[simp] theorem ofChar?_char (op : GroupOp) : ofChar? op.char = some op := by cases op <;> rfl

theorem ofChar?_eq_some_iff {c : Char} {op : GroupOp} : ofChar? c = some op ↔ c = op.char := by
  constructor
  · intro h
    unfold ofChar? at h
    split at h <;> simp_all [char]
    all_goals subst h; rfl
  · rintro rfl
    exact ofChar?_char op

/-- The group may be left out. -/
def isOptional : GroupOp → Bool
  | .zeroOrOne | .zeroOrMore | .freeForm => true
  | .oneOrMore | .exactlyOneOf => false

/-- The group may be matched again. -/
def isRepeatable : GroupOp → Bool
  | .zeroOrMore | .oneOrMore | .freeForm => true
  | .zeroOrOne | .exactlyOneOf => false

end GroupOp

/-- What a rule matches. -/
inductive RuleKind
  /-- A word outside of brackets: a positional argument. -/
  | required
  /-- `<word>`: the word itself. -/
  | constant
  /-- A word in a free-form group: any token. -/
  | freeForm
  /-- A word in any other group: `-name value` or `name=value`. -/
  | named
  /-- A bracketed group. -/
  | group (op : GroupOp)
  /-- The end of the rule list. -/
  | finish
  deriving DecidableEq, Repr, Inhabited

namespace RuleKind

/-- The operator of a group kind. -/
def op? : RuleKind → Option GroupOp
  | .group op => some op
  | _ => none

def isGroup (kind : RuleKind) : Bool := kind.op?.isSome

/-- The kind is that of a group which may be left out. -/
def isOptional (kind : RuleKind) : Bool := kind.op?.any GroupOp.isOptional

/-- The kind is that of a group which may be matched again. -/
def isRepeatable (kind : RuleKind) : Bool := kind.op?.any GroupOp.isRepeatable

end RuleKind

/-- The kind of a plain word in a group with this operator. -/
def GroupOp.memberKind : GroupOp → RuleKind
  | .freeForm => .freeForm
  | _ => .named

/-- One element of a grammar. The three constructors say what the rule holds; any kind can come
with any of them in a hand-made rule. Positions count siblings from 0. -/
inductive Rule
  /-- A rule that holds a name. -/
  | leaf (kind : RuleKind) (position : Nat) (name : String) (span : Span)
  /-- A rule that holds rules. -/
  | nest (kind : RuleKind) (position : Nat) (rules : List Rule) (span : Span)
  /-- A rule that holds nothing. -/
  | bare (kind : RuleKind) (position : Nat) (span : Span)
  deriving Repr, Inhabited

namespace Rule

mutual

def decideEq : (a b : Rule) → Decidable (a = b)
  | leaf k p n s, leaf k' p' n' s' =>
    decidable_of_iff (k = k' ∧ p = p' ∧ n = n' ∧ s = s') (by simp)
  | bare k p s, bare k' p' s' => decidable_of_iff (k = k' ∧ p = p' ∧ s = s') (by simp)
  | nest k p rs s, nest k' p' rs' s' =>
    match decideEqList rs rs' with
    | isTrue h => decidable_of_iff (k = k' ∧ p = p' ∧ s = s') (by simp [h])
    | isFalse h => isFalse (by simp [h])
  | leaf .., nest .. | leaf .., bare .. | nest .., leaf .. | nest .., bare .. | bare .., leaf ..
  | bare .., nest .. => isFalse (by simp)

def decideEqList : (rs rs' : List Rule) → Decidable (rs = rs')
  | [], [] => isTrue rfl
  | [], _ :: _ | _ :: _, [] => isFalse (by simp)
  | r :: rs, r' :: rs' =>
    match decideEq r r', decideEqList rs rs' with
    | isTrue h, isTrue hs => isTrue (by rw [h, hs])
    | isFalse h, _ => isFalse (by simp [h])
    | _, isFalse hs => isFalse (by simp [hs])

end

instance : DecidableEq Rule := decideEq

def kind : Rule → RuleKind
  | leaf kind .. | nest kind .. | bare kind .. => kind

def position : Rule → Nat
  | leaf _ position .. | nest _ position .. | bare _ position _ => position

def span : Rule → Span
  | leaf _ _ _ span | nest _ _ _ span | bare _ _ span => span

def name? : Rule → Option String
  | leaf _ _ name _ => some name
  | _ => none

def rules : Rule → List Rule
  | nest _ _ rules _ => rules
  | _ => []

/-- The name that the rule is looked up by: empty if it holds none. -/
def lookupName (rule : Rule) : String := rule.name?.getD ""

/-- The rule that ends a rule list. -/
def finish (position : Nat) (span : Span) : Rule := bare .finish position span

/-- A short description of the rule for error messages. -/
def describe (rule : Rule) : String :=
  match rule.name?, rule.kind.op? with
  | some name, _ => name
  | none, some op => "[...]" ++ op.char.toString
  | none, none => "end"

/-- A rule that a line must spend a token on: a positional argument or a `+` group. -/
def needsToken (rule : Rule) : Bool :=
  rule.kind == .required || rule.kind == .group .oneOrMore

/-- The fewest tokens that are worth matching against a rule list: one for every positional
argument and one for every `+` group. -/
def minimumArguments (rules : List Rule) : Nat := rules.countP needsToken

/-- The alternatives of a group: its rule list cut before every rule at position 0 but the
first. -/
def alternatives : List Rule → List (List Rule)
  | [] => []
  | rule :: rest =>
    match alternatives rest with
    | [] => [[rule]]
    | first :: others =>
      if (rest.head?.map position) = some 0 then [rule] :: first :: others
      else (rule :: first) :: others

theorem flatten_alternatives (rules : List Rule) : (alternatives rules).flatten = rules := by
  induction rules with
  | nil => rfl
  | cons rule rest ih =>
    rw [alternatives]
    split
    · rename_i h
      simp_all
    · rename_i first others h
      rw [h] at ih
      split <;> simp_all

/-- No alternative is empty. -/
theorem ne_nil_of_mem_alternatives {rules alternative : List Rule}
    (h : alternative ∈ alternatives rules) : alternative ≠ [] := by
  induction rules generalizing alternative with
  | nil => simp [alternatives] at h
  | cons rule rest ih =>
    rw [alternatives] at h
    split at h
    · simp_all
    · rename_i first others heq
      rw [heq] at ih
      split at h <;> simp only [List.mem_cons] at h
      · rcases h with rfl | h
        · simp
        · exact ih (by simpa using h)
      · rcases h with rfl | h
        · simp
        · exact ih (by simp [h])

end Rule

end CommandShell
