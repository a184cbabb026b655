import CommandShell.Proofs.Grammar.Compiled
import CommandShell.Proofs.Grammar.Names
import CommandShell.Proofs.Matching.Verdict
import CommandShell.Proofs.Tree.Shape
import CommandShell.Proofs.Tree.Symbols

/-!
# Lines that end early

A line that ends where the end is out of reach is told what could have come next. In the tree of a
grammar that is at least one item: matching stands at a node other than the end, and from such a
node one can always go on.

## Main results

* `Matcher.stands_of_run` — matching stands at the root or at a node that takes a token
* `Matcher.exists_run_of_endsEarly` — what a line that ends early has been matched up to
* `Grammar.shape_of_parse` — the tree of a grammar is complete, and a line that ends early is told
  what is missing
-/

namespace CommandShell

namespace Matcher

variable {matcher : Matcher} {position last : Position} {id : NodeId} {token : String}
  {tokens : List Token} {step : Step} {e : MatchError} {labels : List String}

/-- The node is the root, or takes a token. -/
def Stands (matcher : Matcher) (id : NodeId) : Prop :=
  ∃ kind, matcher.tree.KindAt id kind ∧ (kind = .start ∨ kind.isBrowsable = true)

/-- A step leads to a node that takes a token: the one that has taken it, or a value behind that. -/
theorem stands_of_accept? (hm : matcher.IsBuilt) (h : matcher.accept? id token = some step) :
    matcher.Stands step.node := by
  cases (accept?_eq_some_iff hm).mp h with
  | argument hsymbol => exact ⟨_, Tree.kindAt_iff.mpr ⟨_, hsymbol⟩, .inr rfl⟩
  | freeForm hsymbol => exact ⟨_, Tree.kindAt_iff.mpr ⟨_, hsymbol⟩, .inr rfl⟩
  | constant hsymbol => exact ⟨_, Tree.kindAt_iff.mpr ⟨_, hsymbol⟩, .inr rfl⟩
  | flag hsymbol => exact ⟨_, Tree.kindAt_iff.mpr ⟨_, hsymbol⟩, .inr rfl⟩
  | assigned _ _ _ hvalue => exact ⟨_, Tree.kindAt_iff.mpr ⟨_, hvalue⟩, .inr rfl⟩

theorem stands_of_run (hm : matcher.IsBuilt) (h : matcher.run position tokens = .ok last)
    (hposition : matcher.Stands position.node) : matcher.Stands last.node := by
  induction tokens generalizing position with
  | nil =>
    cases h
    exact hposition
  | cons token tokens ih =>
    rw [run, List.foldlM_cons] at h
    obtain ⟨next, hadvance, h⟩ := bind_eq_ok_iff.mp h
    obtain ⟨step, hselect, hnode, -⟩ := (advance_eq_ok_iff hm).mp hadvance
    obtain ⟨id, -, haccept⟩ := exists_accept?_of_select? hselect
    exact ih h (hnode ▸ stands_of_accept? hm haccept)

/-- A token at fault is unknown, is one too many, or cannot be converted. -/
theorem run_ne_endsEarly : matcher.run position tokens ≠ .error (.endsEarly labels) := by
  intro h
  obtain ⟨before, token, after, mid, -, -, hadvance⟩ := foldlM_eq_error_iff.mp h
  rcases advance_eq_error_iff.mp hadvance with ⟨-, heq⟩ | ⟨argument, raw, reason, -, heq⟩
  · unfold reject at heq
    split at heq <;> cases heq
  · cases heq

theorem close_eq_endsEarly_iff : matcher.close last = .error (.endsEarly labels) ↔
    (matcher.tree.frontier last.node).reachesFinish = false ∧
      labels = matcher.expected (matcher.tree.frontier last.node) := by
  unfold close
  by_cases hend : (matcher.tree.frontier last.node).reachesFinish = true
  · cases last.bindings.firstUnbound? <;> simp [hend]
  · simp [hend, eq_comm]

/-- A line that ends early has been matched up to a node behind which the end is out of reach. -/
theorem exists_run_of_endsEarly (h : matcher.bind tokens = .error (.endsEarly labels)) :
    ∃ last, matcher.run matcher.initial tokens = .ok last ∧
      (matcher.tree.frontier last.node).reachesFinish = false ∧
      labels = matcher.expected (matcher.tree.frontier last.node) := by
  have hlength : matcher.minimum ≤ tokens.length := by
    by_contra hlength
    rw [bind, if_pos (Nat.not_le.mp hlength)] at h
    cases h
  obtain ⟨last, hrun, hclose⟩ :=
    ((bind_eq_error_iff_of_le hlength).mp h).resolve_left run_ne_endsEarly
  exact ⟨last, hrun, close_eq_endsEarly_iff.mp hclose⟩

/-- What could come next are the labels of the nodes that could. -/
theorem mem_expected_iff {label : String} :
    label ∈ matcher.expected (matcher.tree.frontier id) ↔
      ∃ next ∈ (matcher.tree.frontier id).nodes, ∃ kind,
        matcher.tree.symbol? next = some ⟨kind, label⟩ := by
  simp only [expected, List.mem_eraseDups, List.mem_filterMap, Tree.symbol?]
  refine exists_congr fun next => and_congr_right fun _ => ?_
  cases matcher.tree.node? next with
  | none => simp
  | some node => simp [Node.symbol]

end Matcher

namespace Grammar

variable {source : String} {limit : Nat} {grammar : Grammar} {args : ArgumentSet} {tree : Tree}
  {tokens : List Token} {labels : List String}

/-- In the tree of a grammar that is parsed, all nodes that take a token have names. -/
theorem isName_label_of_build {id : NodeId} {symbol : Symbol}
    (hparse : parse source limit = .ok grammar) (hbuild : Tree.build args grammar.rules = .ok tree)
    (hsymbol : tree.symbol? id = some symbol) (hkind : symbol.kind.isBrowsable = true) :
    Lexeme.Kind.IsName symbol.label.toList := by
  obtain ⟨sub, hsub, hgives⟩ := (Tree.exists_gives_of_build hbuild hsymbol).resolve_left
    (by simpa [NodeKind.isBrowsable] using hkind)
  obtain ⟨hname, hgroup, hfinish⟩ := Rule.lookupName_of_gives hgives
  rw [← hname]
  exact isName_lookupName hparse hsub hgroup hfinish

/-- A line that ends early is told at least one item that is missing, and each of them by name. -/
theorem expected_of_endsEarly (hparse : parse source limit = .ok grammar)
    (hbuild : Tree.build args grammar.rules = .ok tree)
    (h : Signature.bind ⟨grammar, args, tree, hbuild⟩ tokens = .error (.endsEarly labels)) :
    labels ≠ [] ∧ "" ∉ labels := by
  let signature : Signature := ⟨grammar, args, tree, hbuild⟩
  have hm := signature.isBuilt_matcher
  have hshaped := Tree.isShaped_build hbuild (getLast?_of_parse hparse)
  obtain ⟨last, hrun, hend, rfl⟩ := Matcher.exists_run_of_endsEarly h
  obtain ⟨kind, hkind, hstands⟩ := Matcher.stands_of_run hm hrun
    ⟨_, (hshaped.start_iff Tree.root).mpr rfl, .inl rfl⟩
  have hfinish : ¬ tree.KindAt last.node .finish := by
    intro hfinish
    cases hfinish.unique hkind
    simp [NodeKind.isBrowsable, NodeKind.isStructural] at hstands
  have hnodes := (hshaped.exists_next hkind.lt_size hfinish).resolve_right
    (by rw [show (tree.frontier last.node).reachesFinish = false from hend]; simp)
  constructor
  · obtain ⟨next, hnext⟩ := List.exists_mem_of_ne_nil _ hnodes
    obtain ⟨-, node, hnode, -⟩ := Tree.mem_nodes_frontier_iff.mp hnext
    exact List.ne_nil_of_mem
      (Matcher.mem_expected_iff.mpr ⟨next, hnext, node.kind, Tree.symbol?_of_node? hnode⟩)
  · intro hempty
    obtain ⟨next, hnext, kind, hsymbol⟩ := Matcher.mem_expected_iff.mp hempty
    obtain ⟨-, node, hnode, hbrowsable⟩ := Tree.mem_nodes_frontier_iff.mp hnext
    rw [Tree.symbol?_of_node? hnode] at hsymbol
    have hname := isName_label_of_build hparse hbuild (Tree.symbol?_of_node? hnode) hbrowsable
    rw [Option.some.inj hsymbol] at hname
    exact hname.1 rfl

/-- The tree of a grammar that is parsed is complete. So at every node but the end one can go on to
a node that takes a token or to the end, and a line that ends early is told by name what could come
next, which is never nothing. -/
theorem shape_of_parse (hparse : parse source limit = .ok grammar)
    (hbuild : Tree.build args grammar.rules = .ok tree) :
    tree.IsShaped ∧
    (∀ id < tree.size, ¬ tree.KindAt id .finish →
      (tree.frontier id).nodes ≠ [] ∨ (tree.frontier id).reachesFinish = true) ∧
    ∀ tokens labels, Signature.bind ⟨grammar, args, tree, hbuild⟩ tokens =
      .error (.endsEarly labels) → labels ≠ [] ∧ "" ∉ labels := by
  have hshaped := Tree.isShaped_build hbuild (getLast?_of_parse hparse)
  exact ⟨hshaped, fun id => hshaped.exists_next,
    fun tokens labels => expected_of_endsEarly hparse hbuild⟩

end Grammar

/-- The line `x -n` of `load path [n]*` ends where only the value of `n` can follow. -/
theorem shape_of_parse_load :
    Grammar.parse "load path [n]*" 16 = .ok loadSignature.grammar ∧ loadSignature.tree.IsShaped ∧
      loadSignature.bind [⟨"x", ⟨0, 1⟩⟩, ⟨"-n", ⟨2, 4⟩⟩] = .error (.endsEarly ["n"]) ∧
      ["n"] ≠ [] ∧ "" ∉ ["n"] := by
  have hparse : Grammar.parse "load path [n]*" 16 = .ok loadSignature.grammar := by
    decide +kernel
  have hresult : (loadSignature.bind [⟨"x", ⟨0, 1⟩⟩, ⟨"-n", ⟨2, 4⟩⟩]).map (fun _ => ()) =
      .error (.endsEarly ["n"]) := by decide +kernel
  have hbind := map_eq_error_iff.mp hresult
  obtain ⟨hshaped, -, hearly⟩ := Grammar.shape_of_parse hparse loadSignature.tree_eq
  exact ⟨hparse, hshaped, hbind, hearly _ _ hbind⟩

end CommandShell
