import CommandShell.Argument.Basic

/-!
# Faults of rule lists

What can be wrong with a rule list as the plan of a tree. A fault lies with a single rule and can be
told from the rule, the place where it stands, and the names of the arguments. Rules stand in the
list itself and, through any number of groups, in the rule list of a group; what a rule of another
kind holds is never read and stands nowhere.

## Main definitions

* `Rule.Holds` — a rule stands in a group
* `Rule.IsWellShaped`, `Rule.IsBuildable` — a rule list without faults, but for names and at all
* `Place`, `Rule.fault?` — the fault of one rule at its place
* `Rule.visits`, `Rule.visitsFrom` — all rules that stand in a rule, or in a list, depth first
* `Rule.firstFault?` — the fault of the first visited rule that has one
-/

namespace CommandShell.Rule

/-- The rule stands in a group, inside of any number of further groups. -/
inductive Holds : Rule → Rule → Prop
  /-- The rule is one of the group's own. -/
  | own {op : GroupOp} {position : Nat} {rules : List Rule} {span : Span} {rule : Rule}
    (hrule : rule ∈ rules) : Holds (.nest (.group op) position rules span) rule
  /-- The rule stands in a group of the group. -/
  | inside {op : GroupOp} {position : Nat} {rules : List Rule} {span : Span} {inner rule : Rule}
    (hinner : inner ∈ rules) (h : Holds inner rule) :
    Holds (.nest (.group op) position rules span) rule

/-- The rule stands in a rule list, at its top or in one of its groups. -/
def StandsIn (rule : Rule) (rules : List Rule) : Prop :=
  rule ∈ rules ∨ ∃ group ∈ rules, group.Holds rule

/-- The rule is looked up by its name, so the name has to be declared. -/
def needsDeclaration (rule : Rule) : Bool :=
  match rule.kind with
  | .required | .freeForm | .named => true
  | .constant | .group _ | .finish => false

/-- A rule list with nothing wrong in it, apart from its names. -/
structure IsWellShaped (rules : List Rule) : Prop where
  /-- Nothing follows a rule that ends the line. -/
  nothing_after_finish : ∀ before rule after, rules = before ++ rule :: after →
    rule.kind = .finish → after = []
  /-- No rule of a group ends the line. -/
  no_nested_finish : ∀ group ∈ rules, ∀ rule, group.Holds rule → rule.kind ≠ .finish
  /-- No group is empty. -/
  groups_filled : ∀ rule : Rule, rule.StandsIn rules → rule.kind.isGroup = true → rule.rules ≠ []

/-- A rule list with nothing wrong in it: also the names that are looked up are declared. -/
structure IsBuildable (args : ArgumentSet) (rules : List Rule) : Prop
    extends IsWellShaped rules where
  names_declared : ∀ rule : Rule, rule.StandsIn rules → rule.needsDeclaration = true →
    rule.lookupName ∈ args.names

/-- Where a rule stands in a rule list. -/
inductive Place
  /-- At its top. -/
  | line
  /-- At its top, behind a rule that ends the line. -/
  | afterFinish
  /-- In one of its groups. -/
  | inGroup
  deriving DecidableEq, Repr

/-- What is wrong with a rule at its place. The rules that stand in it have faults of their own. -/
def fault? (args : ArgumentSet) (place : Place) (rule : Rule) : Option GrammarError :=
  match place, rule.kind with
  | .afterFinish, _ => some (.ruleAfterFinish rule)
  | .inGroup, .finish => some .nestedFinish
  | .line, .finish | _, .constant => none
  | _, .group _ => if rule.rules = [] then some (.emptyAlternative rule.span) else none
  | _, .required | _, .freeForm | _, .named =>
    if rule.lookupName ∈ args.names then none
    else some (.undeclaredArgument rule.lookupName rule.span)

mutual

/-- A rule at a place and the rules that stand in it, each before those that stand in it. -/
def visits (place : Place) : Rule → List (Place × Rule)
  | .nest (.group op) position rules span =>
    (place, .nest (.group op) position rules span) :: visitsAll rules
  | rule => [(place, rule)]
termination_by structural rule => rule

/-- The rules of a group and the rules that stand in them. -/
def visitsAll : List Rule → List (Place × Rule)
  | [] => []
  | rule :: rules => visits .inGroup rule ++ visitsAll rules
termination_by structural rules => rules

end

/-- The rules of a list and the rules that stand in them. Those in front of the list have ended the
line if `ended` says so. -/
def visitsFrom (ended : Bool) : List Rule → List (Place × Rule)
  | [] => []
  | rule :: rules =>
    visits (if ended then .afterFinish else .line) rule ++
      visitsFrom (ended || rule.kind == .finish) rules

/-- The fault of the first of the visited rules that has one. -/
def firstFault? (args : ArgumentSet) (visited : List (Place × Rule)) : Option GrammarError :=
  visited.findSome? fun (place, rule) => rule.fault? args place

end CommandShell.Rule
