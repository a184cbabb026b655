import CommandShell.Proofs.Argument.Bindings
import CommandShell.Proofs.Matching.Passing
import CommandShell.Proofs.Tree.Language

/-!
# Accepted lines are sentences

A line that a command accepts is a sentence of its grammar, and its bindings are what the sentence
says: they begin as the defaults, and every raw text of the sentence is converted and bound in turn.

## Main results

* `passes_of_run` — the greedy choice is one way for a line to pass
* `exists_sentence_of_bind` — an accepted line is a sentence, bound as it says
-/

namespace CommandShell

namespace Matcher

variable {matcher : Matcher} {position last : Position} {bindings bindings' : Bindings}
  {id : NodeId} {arg : ArgId} {raw token : String} {step : Step} {span : Span}
  {tokens : List Token}

/-! ### Conversion -/

/-- A step binds only arguments that are declared. -/
theorem exists_get?_of_accept? (hm : matcher.IsBuilt) (h : matcher.accept? id token = some step)
    (hbound : step.bound = some (arg, raw)) :
    ∃ argument, matcher.args.get? arg = some argument := by
  have hdeclared {name : String} (h : matcher.args.idOf? name = some arg) :
      ∃ argument, matcher.args.get? arg = some argument := by
    obtain ⟨argument, hget, -⟩ := ArgumentSet.get?_of_idOf?_eq_some h
    exact ⟨argument, hget⟩
  cases (accept?_eq_some_iff hm).mp h with
  | argument hsymbol | freeForm hsymbol | assigned hsymbol =>
    cases hbound
    exact hdeclared (hm.wellFormed.declared hsymbol)
  | constant hsymbol =>
    obtain ⟨id, rfl, hid⟩ := Option.map_eq_some_iff.mp hbound
    cases hid
    exact hdeclared (hm.wellFormed.declared hsymbol).2.symm
  | flag => cases hbound

theorem convert_eq_ok_iff {argument : Argument} {value : Value}
    (h : matcher.args.get? arg = some argument) :
    matcher.convert arg raw span = .ok value ↔ matcher.args.value? arg raw = some value := by
  simp only [convert, ArgumentSet.value?, h, Option.bind_some]
  cases argument.type.convert raw <;> simp [Except.toOption]

/-- What a step records is what its raw text says. -/
theorem record_eq_ok_iff (hm : matcher.IsBuilt) (h : matcher.accept? id token = some step) :
    matcher.record bindings step span = .ok bindings' ↔
      bindings.bindAll? matcher.args step.bound.toList = some bindings' := by
  cases hbound : step.bound with
  | none => simp [record, hbound, Bindings.bindAll?]
  | some pair =>
    obtain ⟨arg, raw⟩ := pair
    obtain ⟨argument, hget⟩ := exists_get?_of_accept? hm h hbound
    simp only [record, hbound, map_eq_ok_iff, convert_eq_ok_iff hget, Bindings.bindAll?,
      Option.toList_some, List.foldlM_cons, List.foldlM_nil]
    cases matcher.args.value? arg raw <;> simp

/-! ### Greedy runs -/

theorem exists_accept?_of_select? {frontier : Frontier}
    (h : matcher.select? frontier token = some step) :
    ∃ id ∈ frontier.nodes, matcher.accept? id token = some step :=
  List.exists_of_findSome?_eq_some h

/-- A token is matched by a step to the node that is selected, with its raw text bound. -/
theorem advance_eq_ok_iff (hm : matcher.IsBuilt) {token : Token} :
    matcher.advance position token = .ok last ↔
      ∃ step, matcher.select? (matcher.tree.frontier position.node) token.value = some step ∧
        last.node = step.node ∧
        position.bindings.bindAll? matcher.args step.bound.toList = some last.bindings := by
  unfold advance
  dsimp only
  cases hselect : matcher.select? (matcher.tree.frontier position.node) token.value with
  | none => simp
  | some step =>
    obtain ⟨id, -, haccept⟩ := exists_accept?_of_select? hselect
    simp only [map_eq_ok_iff, record_eq_ok_iff hm haccept, Option.some.injEq, exists_eq_left']
    constructor
    · rintro ⟨bindings, hbind, rfl⟩
      exact ⟨rfl, hbind⟩
    · rintro ⟨hnode, hbind⟩
      exact ⟨last.bindings, hbind, by rw [← hnode]⟩

/-- The greedy choice is one way for a line to pass. -/
theorem passes_of_run (hm : matcher.IsBuilt) (h : matcher.run position tokens = .ok last)
    (hend : (matcher.tree.frontier last.node).reachesFinish = true) :
    ∃ given, matcher.Passes position.node (tokens.map Token.value) given ∧
      position.bindings.bindAll? matcher.args given = some last.bindings := by
  induction tokens generalizing position with
  | nil =>
    cases h
    exact ⟨[], .finish hend, rfl⟩
  | cons token tokens ih =>
    rw [run, List.foldlM_cons] at h
    obtain ⟨next, hadvance, h⟩ := bind_eq_ok_iff.mp h
    obtain ⟨step, hselect, hnode, hbind⟩ := (advance_eq_ok_iff hm).mp hadvance
    obtain ⟨given, hpasses, hgiven⟩ := ih h
    obtain ⟨id, hmem, haccept⟩ := exists_accept?_of_select? hselect
    refine ⟨step.bound.toList ++ given, .next hmem haccept (hnode ▸ hpasses), ?_⟩
    rw [Bindings.bindAll?, List.foldlM_append]
    exact Option.bind_eq_some_iff.mpr ⟨next.bindings, hbind, hgiven⟩

/-! ### Whole lines -/

theorem close_eq_ok_iff :
    matcher.close last = .ok bindings ↔
      (matcher.tree.frontier last.node).reachesFinish = true ∧
        last.bindings.firstUnbound? = none ∧ last.bindings = bindings := by
  unfold close
  by_cases hend : (matcher.tree.frontier last.node).reachesFinish = true
  · cases last.bindings.firstUnbound? <;> simp [hend]
  · simp [hend]

/-- A line is accepted if it is long enough, its tokens are matched up to where it may end, and no
argument is without a value then. -/
theorem bind_tokens_eq_ok_iff :
    matcher.bind tokens = .ok bindings ↔
      matcher.minimum ≤ tokens.length ∧ ∃ last, matcher.run matcher.initial tokens = .ok last ∧
        (matcher.tree.frontier last.node).reachesFinish = true ∧
        last.bindings.firstUnbound? = none ∧ last.bindings = bindings := by
  unfold bind
  by_cases hlength : tokens.length < matcher.minimum
  · simp [hlength, Nat.not_le.mpr hlength]
  · simp only [hlength, if_false, bind_eq_ok_iff', close_eq_ok_iff, Nat.not_lt.mp hlength, true_and]

end Matcher

/-- An accepted line is a sentence of its grammar, and its bindings are what the sentence says. -/
theorem Signature.exists_sentence_of_bind {signature : Signature} {tokens : List Token}
    {bindings : Bindings} (h : signature.bind tokens = .ok bindings) :
    ∃ symbols given, Rule.SpellsAll signature.args signature.grammar.rules symbols ∧
      Sentence.Says symbols (tokens.map Token.value) given ∧
      signature.args.index.bindAll? signature.args given = some bindings := by
  have hm := signature.isBuilt_matcher
  obtain ⟨-, last, hrun, hend, -, rfl⟩ := Matcher.bind_tokens_eq_ok_iff.mp h
  obtain ⟨given, hpasses, hgiven⟩ := Matcher.passes_of_run hm hrun hend
  obtain ⟨symbols, hreads, -, hsaid⟩ := Matcher.exists_reads_of_passes hm hpasses
  exact ⟨symbols, given, Tree.spellsAll_of_reads signature.tree_eq hreads, hsaid, hgiven⟩

/-- The signature of `load path [n]*`, where `n` is an integer with a default. -/
def loadSignature : Signature where
  grammar := {
    command := "load"
    rules := [.leaf .required 0 "path" ⟨5, 9⟩,
      .nest (.group .zeroOrMore) 1 [.leaf .named 0 "n" ⟨11, 12⟩] ⟨10, 14⟩, .finish 2 (.point 14)]
    source := "load path [n]*" }
  args := ⟨[⟨"path", .str, none, none⟩, ⟨"n", .int, some (.int 0), none⟩], by simp⟩
  tree := {
    nodes := #[
      { kind := .start, label := "start", children := [⟨1, false⟩] },
      { kind := .argument 0, label := "path", parents := [0], children := [⟨2, false⟩] },
      { kind := .hook, label := "hook", parents := [1, 3], children := [⟨5, false⟩, ⟨4, false⟩] },
      { kind := .loop, label := "loop", parents := [6], children := [⟨4, false⟩, ⟨2, true⟩] },
      { kind := .hook, label := "hook", parents := [3, 2], children := [⟨7, false⟩] },
      { kind := .flag 1, label := "n", parents := [2], children := [⟨6, false⟩] },
      { kind := .freeForm 1, label := "n", parents := [5], children := [⟨3, false⟩] },
      { kind := .finish, label := "end", parents := [4] }]
    finish? := some 7 }
  tree_eq := by decide +kernel

/-- An own `name=`, an assignment and a flag with its value on one line. -/
theorem exists_sentence_of_bind_load :
    ∃ bindings, loadSignature.bind
        (["path=a=b", "n=3", "-n", "4"].map (⟨·, .point 0⟩)) = .ok bindings ∧
      ∃ symbols given,
        Rule.SpellsAll loadSignature.args loadSignature.grammar.rules symbols ∧
          Sentence.Says symbols ["path=a=b", "n=3", "-n", "4"] given ∧
          loadSignature.args.index.bindAll? loadSignature.args given = some bindings := by
  obtain ⟨bindings, hbind⟩ : ∃ bindings, loadSignature.bind
      (["path=a=b", "n=3", "-n", "4"].map (⟨·, .point 0⟩)) = .ok bindings :=
    exists_eq_ok_of_isOk (by decide +kernel)
  exact ⟨bindings, hbind, Signature.exists_sentence_of_bind hbind⟩

end CommandShell
