import CommandShell.Proofs.Distinct
import CommandShell.Proofs.Matching.Completion

/-!
# Typing more narrows completion

Every node filters what it offers by what is typed, and what several nodes offer is listed once.
Both can be done in either order. So the candidates are what the nodes offer before anything is
typed, each once, as far as it begins with what is typed. Only a type of the host may offer what it
likes.

## Main definitions

* `ArgType.offers`, `Matcher.offers` — what a type and a node offer before anything is typed

## Main results

* `Matcher.candidates_suggest` — the candidates are the offers that begin with what is typed
* `Signature.narrows_suggest` — typing more keeps the candidates that begin so, in the same order
-/

namespace CommandShell

namespace Text

variable {typed more s : String}

theorem begins_empty (s : String) : begins "" s = true := begins_iff.mpr List.nil_prefix

theorem begins_of_begins_append (h : begins (typed ++ more) s = true) : begins typed s = true := by
  rw [begins_iff, String.toList_append] at h
  exact begins_iff.mpr ((List.prefix_append _ _).trans h)

end Text

namespace ArgType

/-- What a type offers before anything is typed: its label, its options, or the host's list under
its key, with the fallback where the host has none. The other types offer nothing; what a type of
the host offers is not known. -/
def offers (source : Option CandidateSource) : ArgType → List String
  | literal label => [label]
  | choice options => options
  | dynamic key fallback =>
    match source with
    | some lists => (lists key).getD fallback
    | none => fallback
  | int | str | map | host _ => []

/-- A type filters its offers, which do not depend on the line, by what is typed. -/
theorem getD_complete? {type : ArgType} (h : type.IsBuiltIn) (line : String)
    (source : Option CandidateSource) (typed : String) :
    (type.complete? ⟨line, source⟩ typed).getD [] =
      (type.offers source).filter (Text.begins typed) := by
  cases type with
  | host type => exact absurd h not_false
  | dynamic key fallback => cases source <;> rfl
  | _ => rfl

end ArgType

namespace Matcher

variable {matcher : Matcher}

/-- What a node offers before anything is typed. A flag offers the name of its argument behind a
dash, a constant its literal, and any other node what the type of its argument offers. -/
def offers (matcher : Matcher) (source : Option CandidateSource) (id : NodeId) : List String :=
  match (matcher.tree.node? id).map Node.kind with
  | some (.flag arg) => ["-" ++ matcher.argName arg]
  | some (.constant literal _) => [literal]
  | some (.argument arg) | some (.freeForm arg) =>
    ((matcher.args.get? arg).map (·.type.offers source)).getD []
  | some .start | some .finish | some .hook | some .loop | none => []

/-- A node filters its offers by what is typed. -/
theorem toList_offer? (hm : matcher.IsBuilt)
    (htypes : ∀ argument ∈ matcher.args.toList, argument.type.IsBuiltIn) (line : String)
    (source : Option CandidateSource) (typed : String) (id : NodeId) :
    (matcher.offer? ⟨line, source⟩ typed id).toList.flatMap Prod.snd =
      (matcher.offers source id).filter (Text.begins typed) := by
  rw [offer?, offers]
  cases hnode : matcher.tree.node? id with
  | none => rfl
  | some node =>
    have hsymbol : matcher.tree.symbol? id = some node.symbol :=
      Tree.symbol?_eq_some_iff.mpr ⟨node, hnode, rfl⟩
    have hvalue (arg : ArgId) :
        (((matcher.args.get? arg).map fun arg => (arg.name ++ ": " ++ arg.help typed,
          (arg.type.complete? ⟨line, source⟩ typed).getD [])).toList.flatMap Prod.snd) =
          (((matcher.args.get? arg).map (·.type.offers source)).getD []).filter
            (Text.begins typed) := by
      cases hget : matcher.args.get? arg with
      | none => rfl
      | some argument =>
        have hbuiltIn := htypes argument (List.mem_of_getElem? hget)
        simp [ArgType.getD_complete? hbuiltIn]
    obtain ⟨kind, label, parents, children⟩ := node
    cases kind with
    | flag arg =>
      have hname : matcher.argName arg = label := argName_of_idOf? (hm.wellFormed.declared hsymbol)
      simp [hname]
    | constant literal arg? => simp
    | argument arg => exact hvalue arg
    | freeForm arg => exact hvalue arg
    | start | finish | hook | loop => rfl

/-- The candidates are the offers of the nodes that can come next, each once, as far as they begin
with what is typed. -/
theorem candidates_suggest (hm : matcher.IsBuilt)
    (htypes : ∀ argument ∈ matcher.args.toList, argument.type.IsBuiltIn) (tokens : List Token)
    (line typed : String) (source : Option CandidateSource) :
    (matcher.suggest tokens typed ⟨line, source⟩).candidates =
      ((matcher.tree.frontier (matcher.walk tokens)).nodes.flatMap
        (matcher.offers source)).eraseDups.filter (Text.begins typed) := by
  -- The filter goes inside of `eraseDups`, and there into each node.
  rw [suggest, ← filter_eraseDups, List.filter_flatMap, List.filterMap_eq_flatMap_toList,
    List.flatMap_assoc]
  simp only [toList_offer? hm htypes]

end Matcher

namespace Signature

/-- Typing more only narrows completion, unless a type of the host is asked. No candidate comes
twice, every candidate begins with what is typed, and what is left when more is typed are the
candidates that begin with all of it, in the same order. The candidates before anything is typed are
what the nodes offer that can come next, each once. -/
theorem narrows_suggest (signature : Signature)
    (htypes : ∀ argument ∈ signature.args.toList, argument.type.IsBuiltIn) (tokens : List Token)
    (source : Option CandidateSource) (line line' typed more : String) :
    (signature.suggest tokens typed ⟨line, source⟩).candidates.Nodup ∧
      (∀ candidate ∈ (signature.suggest tokens typed ⟨line, source⟩).candidates,
        typed.toList <+: candidate.toList) ∧
      (signature.suggest tokens (typed ++ more) ⟨line', source⟩).candidates =
        (signature.suggest tokens typed ⟨line, source⟩).candidates.filter
          (Text.begins (typed ++ more)) ∧
      (signature.suggest tokens "" ⟨line, source⟩).candidates =
        ((signature.tree.frontier (signature.matcher.walk tokens)).nodes.flatMap
          (signature.matcher.offers source)).eraseDups := by
  have hcandidates := Matcher.candidates_suggest signature.isBuilt_matcher htypes tokens
  simp only [suggest, hcandidates]
  refine ⟨(nodup_eraseDups _).filter _, fun candidate hmem => ?_, ?_, ?_⟩
  · exact Text.begins_iff.mp (List.mem_filter.mp hmem).2
  · rw [List.filter_filter]
    refine List.filter_congr fun candidate _ => ?_
    by_cases h : Text.begins (typed ++ more) candidate = true
    · rw [h, Text.begins_of_begins_append h]
      rfl
    · rw [Bool.eq_false_iff.mpr h, Bool.false_and]
  · exact List.filter_eq_self.mpr fun candidate _ => Text.begins_empty candidate

/-- A literal, an option and an entry of the host's list are one word, which is offered once. -/
theorem narrows_suggest_modes :
    let args : ArgumentSet :=
      ⟨[⟨"mode", .choice ["on", "off"], none, none⟩, ⟨"tag", .dynamic "tags" ["x"], none, none⟩],
        by simp⟩
    let source : Option CandidateSource :=
      some fun key => [("tags", ["one", "on", "two"])].lookup key
    ∃ signature, ofSource "set [<on>|mode|tag]@" args 16 = .ok signature ∧
      (∀ argument ∈ signature.args.toList, argument.type.IsBuiltIn) ∧
      (signature.suggest [] "o" ⟨"set o", source⟩).candidates = ["on", "off", "one"] ∧
      (signature.suggest [] ("o" ++ "n") ⟨"set on", source⟩).candidates = ["on", "one"] ∧
      (signature.suggest [] "" ⟨"set o", source⟩).candidates = ["on", "off", "one", "two"] := by
  intro args source
  have hview : (ofSource "set [<on>|mode|tag]@" args 16).toOption.map (fun signature =>
      ((signature.suggest [] "o" ⟨"set o", source⟩).candidates,
        (signature.tree.frontier (signature.matcher.walk [])).nodes.flatMap
          (signature.matcher.offers source))) =
      some (["on", "off", "one"], ["on", "on", "off", "one", "on", "two"]) := by
    decide +kernel
  obtain ⟨signature, hsource, hview⟩ := Option.map_eq_some_iff.mp hview
  rw [toOption_eq_some_iff] at hsource
  obtain ⟨htyped, hoffers⟩ := Prod.mk.inj hview
  have htypes : ∀ argument ∈ signature.args.toList, argument.type.IsBuiltIn := by
    obtain ⟨grammar, -, hgrammar⟩ := bind_eq_ok_iff'.mp hsource
    rw [(ofGrammar_eq_ok hgrammar).2]
    simp [args, ArgType.IsBuiltIn]
  obtain ⟨-, -, hmore, hall⟩ :=
    signature.narrows_suggest htypes [] source "set o" "set on" "o" "n"
  refine ⟨signature, hsource, htypes, htyped, ?_, ?_⟩
  · rw [hmore, htyped]
    decide
  · rw [hall, hoffers]
    decide

end Signature

end CommandShell
