import CommandShell.Proofs.Matching.Greedy
import CommandShell.Proofs.Rule.Fewest

/-!
# The least number of tokens

A line with fewer tokens than there are positional arguments and `+` groups is rejected before its
first token is matched. This changes no verdict exactly if no sentence is shorter than that, and
whether one is can be computed from the rules. It holds if every `+` group has to spend a token;
but a `+` group all of whose rules may be left out need not.

## Main definitions

* `Matcher.follow?` — the node that the greedy choice leads to, without regard to the length
* `Matcher.Follows` — the greedy choice leads to where the line may end

## Main results

* `exists_shortest` — some sentence has as few tokens as the rules need at least
* `minimum_le_of_passes` — no short line passes if every `+` group spends a token
* `verdict_unchanged_iff` — when rejecting short lines changes no verdict
* `not_minimum_le_of_follows` — a grammar where it does
-/

namespace CommandShell

/-! ### Sentences by their length -/

namespace Sentence

variable {symbols symbols' : List Symbol} {words words' : List String}
  {given given' : List (ArgId × String)}

/-- No sentence says its symbols with fewer tokens than the symbols that are no flags. -/
theorem tokens_le_length (h : Says symbols words given) : Symbol.tokens symbols ≤ words.length := by
  induction h with
  | nil => exact Nat.le_refl _
  | argument _ ih | freeForm _ ih | constant _ ih | flag _ ih | assigned _ _ ih =>
    simp only [Symbol.tokens, List.length_cons]
    omega

theorem Says.append (h : Says symbols words given) (h' : Says symbols' words' given') :
    Says (symbols ++ symbols') (words ++ words') (given ++ given') := by
  induction h with
  | nil => exact h'
  | argument _ ih => exact .argument ih
  | freeForm _ ih => exact .freeForm ih
  | @constant id? literal name _ _ given _ ih =>
    rw [List.append_assoc]
    exact .constant ih
  | flag _ ih => exact .flag ih
  | assigned hname _ ih => exact .assigned hname ih

end Sentence

/-- Some line with this many tokens says symbols of the language. -/
def HasSentence (language : Language Symbol) (count : Nat) : Prop :=
  ∃ symbols ∈ language, (∀ symbol ∈ symbols, symbol.IsAddressable) ∧
    ∃ words given, Sentence.Says symbols words given ∧ words.length = count

namespace HasSentence

variable {first rest : Language Symbol} {count count' : Nat}

theorem one : HasSentence 1 0 := ⟨[], rfl, by simp, [], [], .nil, rfl⟩

theorem mul (h : HasSentence first count) (h' : HasSentence rest count') :
    HasSentence (first * rest) (count + count') := by
  obtain ⟨symbols, hmem, ha, words, given, hsaid, rfl⟩ := h
  obtain ⟨symbols', hmem', ha', words', given', hsaid', rfl⟩ := h'
  refine ⟨symbols ++ symbols', Language.append_mem_mul hmem hmem',
    List.forall_mem_append.mpr ⟨ha, ha'⟩, words ++ words', given ++ given', hsaid.append hsaid', ?_⟩
  exact List.length_append

theorem mono (h : HasSentence first count) (hle : first ≤ rest) : HasSentence rest count := by
  obtain ⟨symbols, hmem, hrest⟩ := h
  exact ⟨symbols, hle hmem, hrest⟩

end HasSentence

namespace Rule

variable {args : ArgumentSet} {rule : Rule} {rules : List Rule} {symbol : Symbol} {nested : Bool}
  {n : Nat}

/-- A rule of one symbol is said by one token. -/
theorem hasSentence_of_symbol? (h : rule.symbol? args = some symbol) :
    HasSentence (language args rule) 1 ∧ fewestSingle rule = some 1 := by
  have hmem : [symbol] ∈ language args rule := (spells_iff_of_symbol? h).mpr rfl
  have hflag := (declared_of_symbol? h).2
  have ha : ∀ other ∈ [symbol], other.IsAddressable := by
    intro other hother
    rw [List.mem_singleton.mp hother]
    exact Symbol.isAddressable_of_not_isFlag hflag
  unfold symbol? at h
  split at h
  · obtain ⟨id, -, rfl⟩ := Option.map_eq_some_iff.mp h
    exact ⟨⟨_, hmem, ha, [""], _, .argument .nil, rfl⟩, by simp [fewestSingle, *]⟩
  · obtain ⟨id, -, rfl⟩ := Option.map_eq_some_iff.mp h
    exact ⟨⟨_, hmem, ha, [""], _, .freeForm .nil, rfl⟩, by simp [fewestSingle, *]⟩
  · cases h
    exact ⟨⟨_, hmem, ha, [rule.lookupName], _, .constant .nil, rfl⟩, by simp [fewestSingle, *]⟩
  all_goals contradiction

theorem hasSentence_fewestAll
    (ih : ∀ rule ∈ rules, ∀ {n}, fewest rule = some n → HasSentence (language args rule) n)
    (h : fewestAll rules = some n) : HasSentence (languageAll args rules) n := by
  induction rules generalizing n with
  | nil =>
    cases h
    rw [languageAll_nil]
    exact .one
  | cons rule rules ihr =>
    rw [fewestAll_cons] at h
    obtain ⟨count, more, hcount, hmore, rfl⟩ := addCounts_eq_some_iff.mp h
    rw [languageAll_cons]
    exact (ih rule List.mem_cons_self hcount).mul
      (ihr (fun rule hmem => ih rule (List.mem_cons_of_mem _ hmem)) hmore)

/-- A rule that is part of a tree has a sentence of as few tokens as it needs at least. -/
theorem hasSentence_fewest (hattach : Tree.CanAttach args rule nested) (h : fewest rule = some n) :
    HasSentence (language args rule) n := by
  induction rule using Rule.induction generalizing nested n with
  | single rule hrule =>
    obtain ⟨tree, tail, ⟨tree', stop⟩, hattach⟩ := hattach
    rw [Tree.attach_of_not_isFilledGroup hrule] at hattach
    rcases Tree.attachLeaf_eq_ok hattach with
      ⟨hkind, -, -⟩ | ⟨symbol, hsymbol, -⟩ | ⟨id, -, -, hkind, hid, -, -⟩
    · rw [fewest_eq_fewestSingle (by simp [hkind]), fewestSingle, hkind] at h
      cases h
      apply HasSentence.one.mono
      rintro _ rfl
      exact .finish hkind
    · have hkind (op : GroupOp) : rule.kind ≠ .group op := by
        intro hkind
        simp [symbol?, hkind] at hsymbol
      obtain ⟨hsentence, hfewest⟩ := hasSentence_of_symbol? hsymbol
      rw [fewest_eq_fewestSingle hkind, hfewest] at h
      cases h
      exact hsentence
    · rw [fewest_eq_fewestSingle (by simp [hkind]), fewestSingle, hkind] at h
      obtain ⟨hname, heq⟩ := Option.ite_none_right_eq_some.mp h
      cases heq
      -- The shorter way to say a flag is to say it together with its value.
      refine ⟨_, .named hkind hid, ?_, [Sentence.assignment rule.lookupName ""], _,
        .assigned hname .nil, rfl⟩
      intro symbol hmem _
      rcases List.mem_cons.mp hmem with rfl | hmem
      · exact hname
      · obtain rfl := List.mem_singleton.mp hmem
        exact hname
  | group op position rules span hrules ih =>
    rw [fewest_group] at h
    by_cases hop : op.isOptional = true
    · rw [if_pos hop] at h
      cases h
      exact HasSentence.one.mono (one_le_language hop)
    · rw [if_neg hop] at h
      obtain ⟨alternative, hmem, hall⟩ := List.mem_map.mp (mem_of_leastCount h)
      have hsentence : HasSentence (languageAll args alternative) n := by
        apply hasSentence_fewestAll _ hall
        intro rule hrule _ hcount
        exact ih alternative hmem rule hrule (hattach.of_mem_alternatives hmem hrule) hcount
      -- One round by the shortest alternative is enough.
      refine hsentence.mono (le_trans ?_ roundLanguage_le)
      exact fun word hword => ⟨alternative, hmem, hword⟩

end Rule

/-! ### Walks without regard to the length -/

namespace Matcher

variable {matcher : Matcher} {node last : NodeId} {position position' : Position}
  {tokens : List Token} {words : List String} {given : List (ArgId × String)}

/-- The node that the greedy choice leads to from a node, if every token is accepted. -/
def follow? (matcher : Matcher) (node : NodeId) (words : List String) : Option NodeId :=
  words.foldlM
    (fun node word => (matcher.select? (matcher.tree.frontier node) word).map Step.node) node

/-- The greedy choice leads from the root to where the line may end. -/
def Follows (matcher : Matcher) (words : List String) : Prop :=
  ∃ last, matcher.follow? Tree.root words = some last ∧
    (matcher.tree.frontier last).reachesFinish = true

theorem follow?_cons_eq_some_iff {word : String} :
    matcher.follow? node (word :: words) = some last ↔
      ∃ step, matcher.select? (matcher.tree.frontier node) word = some step ∧
        matcher.follow? step.node words = some last := by
  rw [follow?, List.foldlM_cons]
  cases matcher.select? (matcher.tree.frontier node) word <;> simp [follow?]

/-- The greedy choice is one way for a line to pass. -/
theorem exists_passes_of_follow? (h : matcher.follow? node words = some last)
    (hend : (matcher.tree.frontier last).reachesFinish = true) :
    ∃ given, matcher.Passes node words given := by
  induction words generalizing node with
  | nil =>
    cases h
    exact ⟨[], .finish hend⟩
  | cons word words ih =>
    obtain ⟨step, hselect, h⟩ := follow?_cons_eq_some_iff.mp h
    obtain ⟨id, hmem, haccept⟩ := exists_accept?_of_select? hselect
    obtain ⟨given, hpasses⟩ := ih h
    exact ⟨_, .next hmem haccept hpasses⟩

/-- Without ambiguity, the greedy choice follows every way for a line to pass. -/
theorem exists_follow?_of_passes (hu : matcher.Unambiguous) (h : matcher.Passes node words given) :
    ∃ last, matcher.follow? node words = some last ∧
      (matcher.tree.frontier last).reachesFinish = true := by
  induction h with
  | finish hend => exact ⟨_, rfl, hend⟩
  | next hmem haccept _ ih =>
    obtain ⟨last, hfollow, hend⟩ := ih
    exact ⟨last, follow?_cons_eq_some_iff.mpr
      ⟨_, hu.select?_eq_some hmem haccept, hfollow⟩, hend⟩

end Matcher

namespace Signature

variable {signature : Signature} {words : List String} {given : List (ArgId × String)}

/-- No line passes with fewer tokens than the rules need at least. -/
theorem exists_fewestAll_le_of_passes (h : signature.matcher.Passes Tree.root words given) :
    ∃ count ≤ words.length, Rule.fewestAll signature.grammar.rules = some count := by
  obtain ⟨symbols, hreads, ha, hsaid⟩ :=
    Matcher.exists_reads_of_passes signature.isBuilt_matcher h
  have hspells := Tree.spellsAll_of_reads signature.tree_eq hreads
  obtain ⟨count, hle, hall⟩ := Rule.exists_fewestAll_le hspells ha
  exact ⟨count, Nat.le_trans hle (Sentence.tokens_le_length hsaid), hall⟩

/-- Some line passes with as many tokens as the rules need at least. -/
theorem exists_shortest (hcompiled : signature.IsCompiled) {count : Nat}
    (h : Rule.fewestAll signature.grammar.rules = some count) :
    ∃ words given, signature.matcher.Passes Tree.root words given ∧ words.length = count := by
  have hrules (rule : Rule) (hmem : rule ∈ signature.grammar.rules) {n : Nat}
      (h : Rule.fewest rule = some n) : HasSentence (Rule.language signature.args rule) n :=
    Rule.hasSentence_fewest (Tree.canAttach_of_mem_buildFrom signature.tree_eq hmem) h
  obtain ⟨symbols, hspells, ha, words, given, hsaid, hlength⟩ := Rule.hasSentence_fewestAll hrules h
  have hreads := Tree.reads_of_spellsAll signature.tree_eq hcompiled.getLast?_rules hspells
  exact ⟨words, given, Matcher.passes_of_reads signature.isBuilt_matcher hreads ha hsaid, hlength⟩

theorem minimum_le_of_passes_iff (hcompiled : signature.IsCompiled) :
    (∀ words given, signature.matcher.Passes Tree.root words given →
        signature.grammar.minimumArguments ≤ words.length) ↔
      ∀ count ∈ Rule.fewestAll signature.grammar.rules,
        signature.grammar.minimumArguments ≤ count := by
  constructor
  · intro h count hcount
    obtain ⟨words, given, hpasses, rfl⟩ := exists_shortest hcompiled hcount
    exact h words given hpasses
  · intro h words given hpasses
    obtain ⟨count, hle, hcount⟩ := exists_fewestAll_le_of_passes hpasses
    exact Nat.le_trans (h count hcount) hle

/-- If no `+` group can be passed without a token, no short line passes. -/
theorem minimum_le_of_passes (hcompiled : signature.IsCompiled)
    (hspend : ∀ rule ∈ signature.grammar.rules, rule.kind = .group .oneOrMore →
      Rule.fewest rule ≠ some 0)
    (h : signature.matcher.Passes Tree.root words given) :
    signature.grammar.minimumArguments ≤ words.length := by
  apply (minimum_le_of_passes_iff hcompiled).mpr _ words given h
  intro count hcount
  exact Rule.minimumArguments_le hspend hcount

/-- Rejecting short lines changes no verdict exactly if the rules need as many tokens at least: then
no short line passes, whichever nodes take its tokens, and a line is accepted if it would be without
regard to its length. For an unambiguous command the same decides about the greedy choice. -/
theorem verdict_unchanged_iff (hcompiled : signature.IsCompiled) :
    ((∀ words given, signature.matcher.Passes Tree.root words given →
        signature.grammar.minimumArguments ≤ words.length) ↔
      ∀ count ∈ Rule.fewestAll signature.grammar.rules,
        signature.grammar.minimumArguments ≤ count) ∧
    (signature.matcher.Unambiguous →
      ((∀ words, signature.matcher.Follows words →
          signature.grammar.minimumArguments ≤ words.length) ↔
        ∀ count ∈ Rule.fewestAll signature.grammar.rules,
          signature.grammar.minimumArguments ≤ count)) ∧
    ((∀ count ∈ Rule.fewestAll signature.grammar.rules,
        signature.grammar.minimumArguments ≤ count) →
      ∀ tokens bindings, (signature.matcher.run signature.matcher.initial tokens).bind
          signature.matcher.close = .ok bindings →
        signature.bind tokens = .ok bindings) := by
  have hiff := minimum_le_of_passes_iff hcompiled
  refine ⟨hiff, fun hu => ?_, fun hle tokens bindings h => ?_⟩
  · rw [← hiff]
    constructor
    · intro h words given hpasses
      exact h words (Matcher.exists_follow?_of_passes hu hpasses)
    · rintro h words ⟨last, hfollow, hend⟩
      obtain ⟨given, hpasses⟩ := Matcher.exists_passes_of_follow? hfollow hend
      exact h words given hpasses
  · -- The greedy choice is one way to pass, so the line is long enough.
    obtain ⟨last, hrun, hclose⟩ := bind_eq_ok_iff'.mp h
    obtain ⟨hend, hclosed⟩ := Matcher.close_eq_ok_iff.mp hclose
    obtain ⟨given, hpasses, -⟩ := Matcher.passes_of_run signature.isBuilt_matcher hrun hend
    have hlength := hiff.mpr hle _ _ hpasses
    rw [List.length_map] at hlength
    exact Matcher.bind_tokens_eq_ok_iff.mpr ⟨hlength, last, hrun, hend, hclosed⟩

/-! ### A `+` group that spends no token -/

/-- The signature of `cmd [[a]?]+`, where `a` has a default. -/
def skippable : Signature where
  grammar := {
    command := "cmd"
    rules := [.nest (.group .oneOrMore) 0
        [.nest (.group .zeroOrOne) 0 [.leaf .named 0 "a" ⟨6, 7⟩] ⟨5, 9⟩] ⟨4, 11⟩,
      .finish 1 (.point 11)]
    source := "cmd [[a]?]+" }
  args := ⟨[⟨"a", .str, some (.str ""), none⟩], by simp⟩
  tree := {
    nodes := #[
      { kind := .start, label := "start", children := [⟨1, false⟩] },
      { kind := .hook, label := "hook", parents := [0, 2], children := [⟨4, false⟩] },
      { kind := .loop, label := "loop", parents := [5], children := [⟨3, false⟩, ⟨1, true⟩] },
      { kind := .hook, label := "hook", parents := [2], children := [⟨8, false⟩] },
      { kind := .hook, label := "hook", parents := [1], children := [⟨6, false⟩, ⟨5, false⟩] },
      { kind := .hook, label := "hook", parents := [7, 4], children := [⟨2, false⟩] },
      { kind := .flag 0, label := "a", parents := [4], children := [⟨7, false⟩] },
      { kind := .freeForm 0, label := "a", parents := [6], children := [⟨5, false⟩] },
      { kind := .finish, label := "end", parents := [3] }]
    finish? := some 8 }
  tree_eq := by decide +kernel

theorem isCompiled_skippable : skippable.IsCompiled := by
  refine .inl ⟨"cmd [[a]?]+", 16, bind_eq_ok_iff'.mpr ⟨skippable.grammar, ?_, ?_⟩⟩
  · decide +kernel
  · exact ofGrammar_eq skippable.tree_eq

/-- The rules of `cmd [[a]?]+` need no token, though they have a `+` group. -/
theorem verdict_changed_skippable :
    skippable.IsCompiled ∧ ¬ ∀ words given, skippable.matcher.Passes Tree.root words given →
      skippable.grammar.minimumArguments ≤ words.length := by
  refine ⟨isCompiled_skippable, ?_⟩
  rw [(verdict_unchanged_iff isCompiled_skippable).1]
  intro h
  have hfewest : Rule.fewestAll skippable.grammar.rules = some 0 := by decide +kernel
  exact absurd (h 0 hfewest) (by decide +kernel)

/-- The empty line leads to where `cmd [[a]?]+` may end, but is shorter than the least number of
tokens. -/
theorem not_minimum_le_of_follows :
    ¬ ∀ signature : Signature, signature.IsCompiled → ∀ words, signature.matcher.Follows words →
      signature.grammar.minimumArguments ≤ words.length := by
  intro h
  have hend : (skippable.tree.frontier Tree.root).reachesFinish = true := by decide +kernel
  have hle := h skippable isCompiled_skippable [] ⟨Tree.root, rfl, hend⟩
  exact absurd hle (by decide +kernel)

end Signature

end CommandShell
