import CommandShell.Proofs.Grammar.Compiled
import CommandShell.Proofs.Matching.Sentence

/-!
# Greedy matching without ambiguity

A token is taken by the first node that accepts it, and that choice is never taken back. Where at
most one node of every frontier accepts a token there is nothing to choose, so the greedy choice
follows every way for a line to pass.

## Main definitions

* `Matcher.Unambiguous` — at most one node of every frontier accepts a token

## Main results

* `exists_run_of_passes` — a line that passes is matched by the greedy choice
* `exists_bind_of_says` — every sentence of an unambiguous command is accepted
-/

namespace CommandShell

namespace Matcher

variable {matcher : Matcher} {node id : NodeId} {token : String} {step : Step}
  {tokens : List Token} {words : List String} {given : List (ArgId × String)}
  {bindings bindings' : Bindings}

/-- At most one node of every frontier accepts a token. -/
def Unambiguous (matcher : Matcher) : Prop :=
  ∀ node < matcher.tree.size, ∀ token : String,
    ∀ a ∈ (matcher.tree.frontier node).nodes, ∀ b ∈ (matcher.tree.frontier node).nodes,
      (matcher.accept? a token).isSome = true → (matcher.accept? b token).isSome = true → a = b

/-- Only nodes of the tree have a frontier. -/
theorem lt_size_of_mem_frontier {tree : Tree} (h : id ∈ (tree.frontier node).nodes) :
    node < tree.size := by
  by_contra hlt
  obtain ⟨hlead, -⟩ := Tree.mem_nodes_frontier_iff.mp h
  have hnil := Tree.targets_eq_nil (Nat.not_lt.mp hlt)
  rcases Tree.leads_iff.mp hlead with hedge | ⟨b, hedge, -⟩
  · simp [hnil] at hedge
  · simp [hnil] at hedge

/-- Without ambiguity, a node that accepts a token is the one that is selected. -/
theorem Unambiguous.select?_eq_some (hu : matcher.Unambiguous)
    (hmem : id ∈ (matcher.tree.frontier node).nodes)
    (h : matcher.accept? id token = some step) :
    matcher.select? (matcher.tree.frontier node) token = some step := by
  cases hselect : matcher.select? (matcher.tree.frontier node) token with
  | none =>
    rw [select?, List.findSome?_eq_none_iff] at hselect
    cases h.symm.trans (hselect id hmem)
  | some other =>
    obtain ⟨id', hmem', h'⟩ := exists_accept?_of_select? hselect
    have hsame : id' = id := hu node (lt_size_of_mem_frontier hmem) token id' hmem' id hmem
      (by rw [h', Option.isSome_some]) (by rw [h, Option.isSome_some])
    rw [← h', hsame, h]

/-- Without ambiguity, a line that passes is matched by the greedy choice. -/
theorem exists_run_of_passes (hm : matcher.IsBuilt) (hu : matcher.Unambiguous)
    (h : matcher.Passes node words given) (htokens : tokens.map Token.value = words)
    (hgiven : bindings.bindAll? matcher.args given = some bindings') :
    ∃ last, matcher.run ⟨node, bindings⟩ tokens = .ok last ∧
      (matcher.tree.frontier last.node).reachesFinish = true ∧ last.bindings = bindings' := by
  induction h generalizing bindings tokens with
  | finish hend =>
    obtain rfl := List.map_eq_nil_iff.mp htokens
    cases hgiven
    exact ⟨_, rfl, hend, rfl⟩
  | @next node id word step words given hmem haccept _ ih =>
    obtain ⟨token, tokens, rfl, rfl, hwords⟩ := List.map_eq_cons_iff.mp htokens
    rw [Bindings.bindAll?, List.foldlM_append] at hgiven
    obtain ⟨mid, hmid, hgiven⟩ := Option.bind_eq_some_iff.mp hgiven
    obtain ⟨last, hrun, hend, hlast⟩ := ih hwords hgiven
    refine ⟨last, ?_, hend, hlast⟩
    rw [run, List.foldlM_cons]
    refine bind_eq_ok_iff.mpr ⟨⟨step.node, mid⟩, ?_, hrun⟩
    exact (advance_eq_ok_iff hm).mpr ⟨step, hu.select?_eq_some hmem haccept, rfl, hmid⟩

end Matcher

/-- A line is accepted if it is long enough, a sentence of an unambiguous command in which the names
of flags are identifiers, and every argument without a default gets a value, where every raw text
can be converted. -/
theorem Signature.exists_bind_of_says {signature : Signature} {tokens : List Token}
    {symbols : List Symbol} {given : List (ArgId × String)} (hcompiled : signature.IsCompiled)
    (hu : signature.matcher.Unambiguous)
    (hnames : ∀ rule ∈ Rule.subrulesAll signature.grammar.rules, rule.kind = .named →
      Text.isIdentifier rule.lookupName.toList = true)
    (hlength : signature.grammar.minimumArguments ≤ tokens.length)
    (hspells : Rule.SpellsAll signature.args signature.grammar.rules symbols)
    (hsaid : Sentence.Says symbols (tokens.map Token.value) given)
    (hconvert : ∀ id raw, (id, raw) ∈ given → ∃ value, signature.args.value? id raw = some value)
    (hgiven : ∀ id argument, signature.args.get? id = some argument → argument.default? = none →
      ∃ raw, (id, raw) ∈ given) :
    ∃ bindings, signature.bind tokens = .ok bindings := by
  have hm := signature.isBuilt_matcher
  have hreads : signature.tree.Reads Tree.root symbols :=
    Tree.reads_of_spellsAll signature.tree_eq hcompiled.getLast?_rules hspells
  have haddress : ∀ symbol ∈ symbols, symbol.IsAddressable := by
    intro symbol hmem hflag
    obtain ⟨rule, hrule, word, hword, hmem⟩ := Rule.exists_spells_of_mem hspells hmem
    obtain ⟨named, hnamed, hkind, hname⟩ := Rule.exists_named_of_spells hword hmem hflag
    rw [← hname]
    exact hnames named (Rule.subrules_subset_of_mem hrule hnamed) hkind
  have hpasses := Matcher.passes_of_reads hm hreads haddress hsaid
  obtain ⟨bindings, hbindings⟩ := Bindings.exists_bindAll? hconvert
  obtain ⟨last, hrun, hend, rfl⟩ := Matcher.exists_run_of_passes hm hu hpasses rfl hbindings
  have hbound := Bindings.firstUnbound?_bindAll?_index hbindings hgiven
  exact ⟨last.bindings, Matcher.bind_tokens_eq_ok_iff.mpr ⟨hlength, last, hrun, hend, hbound, rfl⟩⟩

/-- A sentence of `load path [n]*` that is accepted. -/
theorem exists_bind_of_says_load :
    ∃ bindings, loadSignature.bind
      (["path=a=b", "n=3", "-n", "4"].map (⟨·, .point 0⟩)) = .ok bindings := by
  have hcompiled : loadSignature.IsCompiled := by
    refine .inl ⟨"load path [n]*", 16, bind_eq_ok_iff'.mpr ⟨loadSignature.grammar, ?_, ?_⟩⟩
    · decide +kernel
    · exact Signature.ofGrammar_eq loadSignature.tree_eq
  have hone : ∀ node < loadSignature.tree.size, ∀ a ∈ (loadSignature.tree.frontier node).nodes,
      ∀ b ∈ (loadSignature.tree.frontier node).nodes, a = b := by decide +kernel
  have hu : loadSignature.matcher.Unambiguous :=
    fun node hnode _ a ha b hb _ _ => hone node hnode a ha b hb
  have hn : Rule.Spells loadSignature.args (.leaf .named 0 "n" ⟨11, 12⟩)
      [⟨.flag 1, "n"⟩, ⟨.freeForm 1, "n"⟩] := .named rfl rfl
  have hspells : Rule.SpellsAll loadSignature.args loadSignature.grammar.rules
      [⟨.argument 0, "path"⟩, ⟨.flag 1, "n"⟩, ⟨.freeForm 1, "n"⟩, ⟨.flag 1, "n"⟩,
        ⟨.freeForm 1, "n"⟩] :=
    .cons (.required rfl rfl)
      (.cons (.again rfl List.mem_cons_self (.cons hn .nil)
        (.once List.mem_cons_self (.cons hn .nil))) (.cons (.finish rfl) .nil))
  have hsaid : Sentence.Says [⟨.argument 0, "path"⟩, ⟨.flag 1, "n"⟩, ⟨.freeForm 1, "n"⟩,
        ⟨.flag 1, "n"⟩, ⟨.freeForm 1, "n"⟩]
      ["path=a=b", Sentence.assignment "n" "3", "-" ++ "n", "4"]
      [(0, Sentence.ownText "path" "path=a=b"), (1, "3"), (1, "4")] :=
    .argument (.assigned (by decide +kernel) (.flag (.freeForm .nil)))
  have hconvert : ∀ pair ∈ [((0 : ArgId), Sentence.ownText "path" "path=a=b"), (1, "3"), (1, "4")],
      (loadSignature.args.value? pair.1 pair.2).isSome = true := by decide +kernel
  have hwords : (["path=a=b", "n=3", "-n", "4"].map (⟨·, .point 0⟩)).map Token.value =
      ["path=a=b", Sentence.assignment "n" "3", "-" ++ "n", "4"] := by decide +kernel
  rw [← hwords] at hsaid
  refine Signature.exists_bind_of_says hcompiled hu (by decide +kernel) (by decide +kernel)
    hspells hsaid (fun id raw hmem => Option.isSome_iff_exists.mp (hconvert _ hmem)) ?_
  intro id argument hget hdefault
  match id with
  | 0 => exact ⟨_, List.mem_cons_self⟩
  | 1 =>
    cases hget
    cases hdefault
  | id + 2 => cases hget

end CommandShell
