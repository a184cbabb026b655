import CommandShell.Proofs.Matching.Acceptance

/-!
# Passing a line through a tree

A line passes through a tree if its tokens can be taken one after the other, each by some node that
can come next, and the line may end behind the last one. Which of several nodes takes a token is
left open here, so this is what every way to choose between them has in common.

## Main definitions

* `Matcher.Passes` — the tokens lead from a node to the end, by steps that bind these raw texts

## Main results

* `exists_reads_of_passes` — a line that passes says symbols that the tree reads
* `passes_of_reads` — a line that says symbols that the tree reads passes, if the names of flags are
  identifiers
-/

namespace CommandShell.Matcher

open Sentence (Says)

variable {matcher : Matcher} {node id value c : NodeId} {arg : ArgId} {name : String}
  {symbols : List Symbol} {tokens : List String} {given : List (ArgId × String)}

/-- The tokens can be taken one after the other, each by a node that can come next, and then the
line may end. The raw texts are those that the steps bind. -/
inductive Passes (matcher : Matcher) : NodeId → List String → List (ArgId × String) → Prop
  /-- The line may end. -/
  | finish {node : NodeId} (h : (matcher.tree.frontier node).reachesFinish = true) :
      Passes matcher node [] []
  /-- A node that can come next takes the first token. -/
  | next {node id : NodeId} {token : String} {step : Step} {tokens : List String}
      {given : List (ArgId × String)} (hmem : id ∈ (matcher.tree.frontier node).nodes)
      (h : matcher.accept? id token = some step) (rest : Passes matcher step.node tokens given) :
      Passes matcher node (token :: tokens) (step.bound.toList ++ given)

/-! ### Flags and their values -/

/-- A flag leads to its value, and nowhere else. -/
theorem leads_flag_iff {tree : Tree} (htargets : tree.targets id = [value])
    (hvalue : tree.symbol? value = some ⟨.freeForm arg, name⟩) : tree.Leads id c ↔ c = value := by
  rw [Tree.leads_iff, htargets]
  simp only [List.mem_singleton, exists_eq_left]
  constructor
  · rintro (rfl | ⟨⟨node, hnode, hjoint⟩, -⟩)
    · rfl
    · rw [Tree.symbol?_of_node? hnode] at hvalue
      have hkind : node.kind = .freeForm arg := congrArg Symbol.kind (Option.some.inj hvalue)
      simp [hkind, NodeKind.isJoint] at hjoint
  · exact .inl

/-- Nothing but its value can come after a flag. -/
theorem mem_nodes_frontier_flag_iff {tree : Tree} (htargets : tree.targets id = [value])
    (hvalue : tree.symbol? value = some ⟨.freeForm arg, name⟩) :
    c ∈ (tree.frontier id).nodes ↔ c = value := by
  rw [Tree.mem_nodes_frontier_iff, leads_flag_iff htargets hvalue]
  apply and_iff_left_of_imp
  intro heq
  subst heq
  obtain ⟨node, hnode, hsymbol⟩ := Tree.symbol?_eq_some_iff.mp hvalue
  have hkind : node.kind = .freeForm arg := congrArg Symbol.kind hsymbol
  exact ⟨node, hnode, by rw [hkind]; rfl⟩

/-! ### Lines that pass are sentences -/

/-- A line that passes says symbols that the tree reads. -/
theorem exists_reads_of_passes (hm : matcher.IsBuilt) (h : matcher.Passes node tokens given) :
    ∃ symbols, matcher.tree.Reads node symbols ∧ (∀ symbol ∈ symbols, symbol.IsAddressable) ∧
      Says symbols tokens given := by
  induction h with
  | finish h => exact ⟨[], .finish h, by simp, .nil⟩
  | @next node id _ _ _ _ hmem h _ ih =>
    obtain ⟨symbols, hreads, haddress, hsaid⟩ := ih
    have hread {symbol : Symbol} {symbols : List Symbol}
        (hsymbol : matcher.tree.symbol? id = some symbol) (h : matcher.tree.Reads id symbols) :
        matcher.tree.Reads node (symbol :: symbols) :=
      Tree.reads_cons_iff.mpr ⟨id, hmem, hsymbol, h⟩
    have hcons {symbol : Symbol} (hsymbol : symbol.IsAddressable) :
        ∀ other ∈ symbol :: symbols, other.IsAddressable :=
      List.forall_mem_cons.mpr ⟨hsymbol, haddress⟩
    have hplain {symbol : Symbol} (hsymbol : ¬ symbol.IsFlag) :
        ∀ other ∈ symbol :: symbols, other.IsAddressable :=
      hcons (Symbol.isAddressable_of_not_isFlag hsymbol)
    cases (accept?_eq_some_iff hm).mp h with
    | argument hsymbol =>
      exact ⟨_, hread hsymbol hreads, hplain (by simp [Symbol.IsFlag]), .argument hsaid⟩
    | freeForm hsymbol =>
      exact ⟨_, hread hsymbol hreads, hplain (by simp [Symbol.IsFlag]), .freeForm hsaid⟩
    | constant hsymbol =>
      exact ⟨_, hread hsymbol hreads, hplain (by simp [Symbol.IsFlag]), .constant hsaid⟩
    | flag hsymbol hname =>
      exact ⟨_, hread hsymbol hreads, hcons fun _ => hname, .flag hsaid⟩
    | assigned hsymbol hname htargets hvalue =>
      -- The step skips the value node, but what is said is read through both nodes.
      have hnext := (mem_nodes_frontier_flag_iff htargets hvalue).mpr rfl
      refine ⟨_, hread hsymbol (Tree.reads_cons_iff.mpr ⟨_, hnext, hvalue, hreads⟩), ?_,
        .assigned hname hsaid⟩
      exact List.forall_mem_cons.mpr ⟨fun _ => hname, hplain (by simp [Symbol.IsFlag])⟩

/-! ### Sentences pass -/

/-- A line that says symbols that the tree reads passes, if the names of flags are identifiers. -/
theorem passes_of_reads (hm : matcher.IsBuilt) (hreads : matcher.tree.Reads node symbols)
    (haddress : ∀ symbol ∈ symbols, symbol.IsAddressable)
    (hsaid : Says symbols tokens given) : matcher.Passes node tokens given := by
  induction hsaid generalizing node with
  | nil => exact .finish (Tree.reads_nil_iff.mp hreads)
  | @argument arg name token _ _ _ _ ih =>
    obtain ⟨id, hmem, hsymbol, hrest⟩ := Tree.reads_cons_iff.mp hreads
    exact .next hmem (accept?_argument hm hsymbol) (ih hrest fun s hs => haddress s (.tail _ hs))
  | @freeForm arg name token _ _ _ _ ih =>
    obtain ⟨id, hmem, hsymbol, hrest⟩ := Tree.reads_cons_iff.mp hreads
    exact .next hmem (accept?_freeForm hsymbol) (ih hrest fun s hs => haddress s (.tail _ hs))
  | @constant arg? literal name _ _ _ _ ih =>
    obtain ⟨id, hmem, hsymbol, hrest⟩ := Tree.reads_cons_iff.mp hreads
    have hstep := (accept?_eq_some_iff hm).mpr (.constant hsymbol)
    exact .next hmem hstep (ih hrest fun s hs => haddress s (.tail _ hs))
  | @flag arg name _ _ _ _ ih =>
    obtain ⟨id, hmem, hsymbol, hrest⟩ := Tree.reads_cons_iff.mp hreads
    have hname := haddress _ List.mem_cons_self ⟨arg, rfl⟩
    have hstep := (accept?_eq_some_iff hm).mpr (.flag hsymbol hname)
    exact .next hmem hstep (ih hrest fun s hs => haddress s (.tail _ hs))
  | @assigned arg name raw _ _ _ hname _ ih =>
    -- Two symbols are read, and the second at the only node that can come after the first.
    obtain ⟨id, hmem, hsymbol, hrest⟩ := Tree.reads_cons_iff.mp hreads
    obtain ⟨value, htargets, -, hvalue⟩ := exists_value_of_flag hm hsymbol
    obtain ⟨next, hnext, -, hrest⟩ := Tree.reads_cons_iff.mp hrest
    obtain rfl := (mem_nodes_frontier_flag_iff htargets hvalue).mp hnext
    have hstep := (accept?_eq_some_iff hm).mpr (.assigned hsymbol hname htargets hvalue raw)
    exact .next hmem hstep (ih hrest fun s hs => haddress s (.tail _ (.tail _ hs)))

end CommandShell.Matcher
