import CommandShell.Tree.Frontier

/-!
# The language of rules and of trees

What a line says is a sequence of symbols, each the kind and the label of a node that takes a
token. The rules of a grammar spell such sequences, and a tree reads them on its way from the start
to the end.

## Main definitions

* `Symbol`, `Node.symbol` — what a node takes a token for
* `Rule.Spells`, `Rule.SpellsAll` — the sequences that a rule and a rule list spell
* `Tree.Reads` — the sequences that lead from a node to the end
-/

namespace CommandShell

/-- What a node takes a token for. -/
structure Symbol where
  kind : NodeKind
  label : String
  deriving DecidableEq, Repr

/-- What the node takes a token for. -/
def Node.symbol (node : Node) : Symbol := ⟨node.kind, node.label⟩

namespace Rule

variable {args : ArgumentSet} {rule : Rule} {rules others : List Rule} {symbols : List Symbol}

mutual

/-- The rule spells the symbols. Names refer to arguments by their place. A group spells what one
of its alternatives spells; if it repeats, it spells that once or more often, and if it may be left
out, it spells nothing as well. -/
inductive Spells (args : ArgumentSet) : Rule → List Symbol → Prop
  /-- The end takes no token. -/
  | finish {rule : Rule} (h : rule.kind = .finish) : Spells args rule []
  /-- A positional argument. -/
  | required {rule : Rule} {id : ArgId} (h : rule.kind = .required)
      (hid : args.idOf? rule.lookupName = some id) :
      Spells args rule [⟨.argument id, rule.lookupName⟩]
  /-- A free-form value. -/
  | freeForm {rule : Rule} {id : ArgId} (h : rule.kind = .freeForm)
      (hid : args.idOf? rule.lookupName = some id) :
      Spells args rule [⟨.freeForm id, rule.lookupName⟩]
  /-- A flag with its value. -/
  | named {rule : Rule} {id : ArgId} (h : rule.kind = .named)
      (hid : args.idOf? rule.lookupName = some id) :
      Spells args rule [⟨.flag id, rule.lookupName⟩, ⟨.freeForm id, rule.lookupName⟩]
  /-- A constant, which may be declared as an argument. -/
  | constant {rule : Rule} (h : rule.kind = .constant) :
      Spells args rule [⟨.constant rule.lookupName (args.idOf? rule.lookupName), rule.lookupName⟩]
  /-- A group that is left out. -/
  | skip {op : GroupOp} {position : Nat} {rules : List Rule} {span : Span}
      (hop : op.isOptional = true) : Spells args (.nest (.group op) position rules span) []
  /-- One round of a group. -/
  | once {op : GroupOp} {position : Nat} {rules alternative : List Rule} {span : Span}
      {symbols : List Symbol} (hmem : alternative ∈ alternatives rules)
      (h : SpellsAll args alternative symbols) :
      Spells args (.nest (.group op) position rules span) symbols
  /-- One round of a group, and more rounds after it. -/
  | again {op : GroupOp} {position : Nat} {rules alternative : List Rule} {span : Span}
      {first more : List Symbol} (hop : op.isRepeatable = true)
      (hmem : alternative ∈ alternatives rules) (h : SpellsAll args alternative first)
      (rest : Spells args (.nest (.group op) position rules span) more) :
      Spells args (.nest (.group op) position rules span) (first ++ more)

/-- The rules spell the symbols, one after the other. -/
inductive SpellsAll (args : ArgumentSet) : List Rule → List Symbol → Prop
  | nil : SpellsAll args [] []
  | cons {rule : Rule} {rules : List Rule} {first rest : List Symbol} (h : Spells args rule first)
      (hrest : SpellsAll args rules rest) : SpellsAll args (rule :: rules) (first ++ rest)

end

theorem spellsAll_nil_iff : SpellsAll args [] symbols ↔ symbols = [] := by
  constructor
  · rintro ⟨⟩
    rfl
  · rintro rfl
    exact .nil

theorem spellsAll_cons_iff :
    SpellsAll args (rule :: rules) symbols ↔
      ∃ first rest, symbols = first ++ rest ∧ Spells args rule first ∧
        SpellsAll args rules rest := by
  constructor
  · rintro (_ | ⟨h, hrest⟩)
    exact ⟨_, _, rfl, h, hrest⟩
  · rintro ⟨first, rest, rfl, h, hrest⟩
    exact .cons h hrest

end Rule

/-- The symbols lead from a node to the end: each is that of a node that can come next after the
one before. -/
inductive Tree.Reads (tree : Tree) : NodeId → List Symbol → Prop
  /-- The line may end. -/
  | finish {id : NodeId} (h : (tree.frontier id).reachesFinish = true) : Tree.Reads tree id []
  /-- A node that can come next, and what it leads to. -/
  | next {id next : NodeId} {node : Node} {symbols : List Symbol}
      (h : next ∈ (tree.frontier id).nodes) (hnode : tree.node? next = some node)
      (rest : Tree.Reads tree next symbols) : Tree.Reads tree id (node.symbol :: symbols)

end CommandShell
