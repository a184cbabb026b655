import CommandShell.Proofs.Matching.Early

/-!
# Two ways to give a named value

A named argument gets its value by `-name value`, in two steps through the flag and its value, or by
`name=value`, in one step over the flag. Where the flag is the first node that takes `-name`, it is
the first that takes `name=value` as well: what stands in front of it takes neither. Both ways then
lead to the same node with the same value, so the rest of the line is matched alike. Only the places
that errors tell differ, as the tokens of the line do.

## Main definitions

* `MatchError.unplaced` — an error without its place in the line
* `SameOutcome` — two matches with the same result, or with the same error but for its place
* `Matcher.LiteralsAreNames` — no constant of the tree has an equals sign in it

## Main results

* `SameOutcome.run` — the texts of tokens decide a match, their places only what an error tells
* `Matcher.select?_of_find?` — the first node that takes a token also takes what only it can take
* `Signature.sameOutcome_assignment` — `-name value` and `name=value` are matched alike
-/

namespace CommandShell

/-! ### Errors without their places -/

/-- The error, without its place in the line. -/
def MatchError.unplaced : MatchError → MatchError
  | unknownArgument token => unknownArgument ⟨token.value, .point 0⟩
  | tooManyArguments token => tooManyArguments ⟨token.value, .point 0⟩
  | conversion name raw reason _ => conversion name raw reason (.point 0)
  | tooFewArguments expected found => tooFewArguments expected found
  | endsEarly expected => endsEarly expected
  | unbound name => unbound name

/-- Two matches succeed with the same result, or fail with the same error but for its place. -/
inductive SameOutcome {α : Type} : Except MatchError α → Except MatchError α → Prop
  | ok (a : α) : SameOutcome (.ok a) (.ok a)
  | error {e e' : MatchError} (h : e.unplaced = e'.unplaced) : SameOutcome (.error e) (.error e')

namespace SameOutcome

variable {α β : Type} {x y : Except MatchError α}

theorem refl (x : Except MatchError α) : SameOutcome x x := by
  cases x with
  | ok a => exact .ok a
  | error e => exact .error rfl

theorem trans {z : Except MatchError α} (h : SameOutcome x y) (h' : SameOutcome y z) :
    SameOutcome x z := by
  cases h with
  | ok a => exact h'
  | error h =>
    cases h' with
    | error h' => exact .error (h.trans h')

theorem bind {f g : α → Except MatchError β} (h : SameOutcome x y)
    (hstep : ∀ a, SameOutcome (f a) (g a)) : SameOutcome (x >>= f) (y >>= g) := by
  cases h with
  | ok a => exact hstep a
  | error h => exact .error h

theorem map (f : α → β) (h : SameOutcome x y) : SameOutcome (x.map f) (y.map f) := by
  cases h with
  | ok a => exact .ok (f a)
  | error h => exact .error h

end SameOutcome

/-- No assignment to an identifier begins with a dash. -/
theorem Sentence.dash_ne_assignment {name label raw : String}
    (h : Text.isIdentifier label.toList = true) : "-" ++ name ≠ assignment label raw := by
  intro heq
  have hlist := congrArg String.toList heq
  cases hlabel : label.toList with
  | nil => simp [hlabel, Text.isIdentifier] at h
  | cons c cs =>
    simp only [assignment, String.toList_append, hlabel, List.cons_append] at hlist
    obtain rfl : '-' = c := (List.cons.inj hlist).1
    simp [hlabel, Text.isIdentifier] at h

namespace Matcher

variable {matcher : Matcher} {position : Position} {frontier : Frontier} {id node flag : NodeId}
  {arg : ArgId} {name word word' raw : String} {step : Step} {token token' : Token}
  {before tokens tokens' : List Token}

/-! ### Tokens with the same texts -/

/-- A step records the same value wherever its token stands. -/
theorem record_sameOutcome (bindings : Bindings) (step : Step) (span span' : Span) :
    SameOutcome (matcher.record bindings step span) (matcher.record bindings step span') := by
  unfold record
  cases step.bound with
  | none => exact .refl _
  | some pair =>
    obtain ⟨id, raw⟩ := pair
    refine SameOutcome.map (bindings.bind id) ?_
    unfold convert
    cases matcher.args.get? id with
    | none => exact .refl _
    | some argument =>
      dsimp only
      cases argument.type.convert raw with
      | ok value => exact .ok value
      | error reason => exact .error rfl

theorem unplaced_reject (h : token.value = token'.value) :
    (reject frontier token).unplaced = (reject frontier token').unplaced := by
  unfold reject
  rw [h]
  split <;> simp [MatchError.unplaced, h]

theorem advance_sameOutcome (h : token.value = token'.value) :
    SameOutcome (matcher.advance position token) (matcher.advance position token') := by
  unfold advance
  dsimp only
  rw [h]
  cases matcher.select? (matcher.tree.frontier position.node) token'.value with
  | none => exact .error (unplaced_reject h)
  | some step => exact (record_sameOutcome ..).map _

/-- The texts of the tokens decide a run. -/
theorem run_sameOutcome (h : tokens.map Token.value = tokens'.map Token.value) :
    SameOutcome (matcher.run position tokens) (matcher.run position tokens') := by
  induction tokens generalizing position tokens' with
  | nil =>
    cases List.map_eq_nil_iff.mp h.symm
    exact .refl _
  | cons token tokens ih =>
    obtain ⟨token', tokens', rfl, hvalue, hrest⟩ := List.map_eq_cons_iff.mp h.symm
    rw [run, run, List.foldlM_cons, List.foldlM_cons]
    exact (advance_sameOutcome hvalue.symm).bind fun next => ih hrest.symm

theorem walkFrom_congr (h : tokens.map Token.value = tokens'.map Token.value) :
    matcher.walkFrom node tokens = matcher.walkFrom node tokens' := by
  induction tokens generalizing node tokens' with
  | nil => cases List.map_eq_nil_iff.mp h.symm; rfl
  | cons token tokens ih =>
    obtain ⟨token', tokens', rfl, hvalue, hrest⟩ := List.map_eq_cons_iff.mp h.symm
    rw [walkFrom, walkFrom, hvalue]
    split
    · exact ih hrest.symm
    · rfl

/-- Tokens that lead from the end of a walk to one node do so behind the tokens of the walk; if
those are not all accepted, neither is reached. -/
theorem walkFrom_append_congr (h : matcher.walkFrom (matcher.walkFrom node before) tokens =
    matcher.walkFrom (matcher.walkFrom node before) tokens') :
    matcher.walkFrom node (before ++ tokens) = matcher.walkFrom node (before ++ tokens') := by
  induction before generalizing node with
  | nil => exact h
  | cons token before ih =>
    rw [List.cons_append, List.cons_append, walkFrom, walkFrom]
    rw [walkFrom] at h
    split
    · rename_i step hstep
      simp only [hstep] at h
      exact ih h
    · rfl

/-! ### The first node that takes a flag -/

/-- The literals of constants are names. -/
def LiteralsAreNames (matcher : Matcher) : Prop :=
  ∀ {id : NodeId} {literal label : String} {arg? : Option ArgId},
    matcher.tree.symbol? id = some ⟨.constant literal arg?, label⟩ →
      Lexeme.Kind.IsName literal.toList

/-- The first node that takes a token takes another one first too, if the nodes that do not take the
one do not take the other. -/
theorem select?_of_find?
    (h : frontier.nodes.find? (fun id => (matcher.accept? id word).isSome) = some id)
    (hnone : ∀ other, matcher.accept? other word = none → matcher.accept? other word' = none)
    (hstep : matcher.accept? id word' = some step) :
    matcher.select? frontier word' = some step := by
  obtain ⟨-, before, after, hnodes, hbefore⟩ := List.find?_eq_some_iff_append.mp h
  have hskip : before.findSome? (matcher.accept? · word') = none := by
    refine List.findSome?_eq_none_iff.mpr fun other hother => hnone other ?_
    simpa using hbefore other hother
  rw [select?, hnodes, List.findSome?_append, hskip, Option.none_or, List.findSome?_cons, hstep]

/-- A node that does not take `-name` does not take `name=value` either. -/
theorem accept?_assignment_eq_none (hm : matcher.IsBuilt) (hliterals : matcher.LiteralsAreNames)
    (hname : Text.isIdentifier name.toList = true) (h : matcher.accept? id ("-" ++ name) = none) :
    matcher.accept? id (Sentence.assignment name raw) = none := by
  have hshape : Shape.of (Sentence.assignment name raw) = .assignment name raw :=
    Shape.of_eq_assignment_iff.mpr ⟨rfl, hname⟩
  cases haccept : matcher.accept? id (Sentence.assignment name raw) with
  | none => rfl
  | some step =>
    exfalso
    generalize htoken : Sentence.assignment name raw = word at haccept hshape
    cases (accept?_eq_some_iff hm).mp haccept with
    | argument hsymbol => simp [accept?_argument hm hsymbol] at h
    | freeForm hsymbol => simp [accept?_freeForm hsymbol] at h
    | constant hsymbol =>
      have hword := List.all_eq_true.mp (hliterals hsymbol).2 '='
      rw [← htoken] at hword
      simp [Sentence.assignment, Text.isNameChar_equals] at hword
    | flag hsymbol hother =>
      rw [Shape.of_eq_flag_iff.mpr ⟨rfl, hother⟩] at hshape
      cases hshape
    | assigned hsymbol hother =>
      rw [Shape.of_eq_assignment_iff.mpr ⟨rfl, hother⟩] at hshape
      cases hshape
      simp [(accept?_eq_some_iff hm).mpr (.flag hsymbol hname)] at h

/-- What the two ways to give a named value do, where a flag is the first node that takes its name:
the flag leads to its value alone, which both ways reach with the same text. -/
theorem exists_selects_of_find? (hm : matcher.IsBuilt) (hliterals : matcher.LiteralsAreNames)
    (hfirst : frontier.nodes.find? (fun id => (matcher.accept? id ("-" ++ name)).isSome) =
      some flag)
    (hflag : matcher.tree.KindAt flag (.flag arg)) :
    ∃ value, matcher.select? frontier ("-" ++ name) = some ⟨flag, none⟩ ∧ ∀ raw,
      matcher.select? (matcher.tree.frontier flag) raw = some ⟨value, some (arg, raw)⟩ ∧
      matcher.select? frontier (Sentence.assignment name raw) =
        some ⟨value, some (arg, raw)⟩ := by
  obtain ⟨label, hsymbol⟩ := Tree.kindAt_iff.mp hflag
  obtain ⟨value, htargets, hvalueOf, hvalue⟩ := exists_value_of_flag hm hsymbol
  have hsome := (List.find?_eq_some_iff_append.mp hfirst).1
  obtain ⟨step, haccept⟩ := Option.isSome_iff_exists.mp hsome
  have htakes (word : String) (step : Step) : matcher.accept? flag word = some step ↔ _ :=
    accept?_flag_eq_some_iff hm hsymbol hvalueOf
  -- The flag takes `-name`, so that is its name, and it is an identifier.
  obtain ⟨hname, hcase⟩ := (htakes _ _).mp haccept
  obtain rfl : label = name := by
    rcases hcase with ⟨hdash, -⟩ | ⟨raw, hassigned, -⟩
    · exact (String.append_right_inj _).mp hdash.symm
    · exact absurd hassigned (Sentence.dash_ne_assignment hname)
  refine ⟨value, ?_, fun raw => ⟨?_, ?_⟩⟩
  · exact select?_of_find? hfirst (fun _ h => h) ((htakes _ _).mpr ⟨hname, .inl ⟨rfl, rfl⟩⟩)
  · rw [select?_of_forall_eq ((mem_nodes_frontier_flag_iff htargets hvalue).mpr rfl)
      fun other => (mem_nodes_frontier_flag_iff htargets hvalue).mp, accept?_freeForm hvalue]
  · exact select?_of_find? hfirst
      (fun other => accept?_assignment_eq_none hm hliterals hname)
      ((htakes _ _).mpr ⟨hname, .inr ⟨raw, rfl, rfl⟩⟩)

/-! ### Both ways -/

section Ways

variable {flagToken valueToken : Token}
  (hflag : matcher.select? (matcher.tree.frontier node) flagToken.value = some ⟨flag, none⟩)
  (hvalue : matcher.select? (matcher.tree.frontier flag) valueToken.value = some step)
  (hassigned : matcher.select? (matcher.tree.frontier node) token.value = some step)

include hflag hvalue hassigned

/-- The two steps of `-name value` and the step of `name=value` lead to the same node. -/
theorem walkFrom_ways (tokens : List Token) :
    matcher.walkFrom node (flagToken :: valueToken :: tokens) =
      matcher.walkFrom node (token :: tokens) := by
  simp only [walkFrom, hflag, hvalue, hassigned]

/-- The two steps of `-name value` and the step of `name=value` bind the same value. -/
theorem run_ways (bindings : Bindings) (tokens : List Token) :
    SameOutcome (matcher.run ⟨node, bindings⟩ (flagToken :: valueToken :: tokens))
      (matcher.run ⟨node, bindings⟩ (token :: tokens)) := by
  have hfirst : matcher.advance ⟨node, bindings⟩ flagToken = .ok ⟨flag, bindings⟩ := by
    simp [advance, hflag, record, Except.map]
  have hstep : SameOutcome (matcher.advance ⟨flag, bindings⟩ valueToken)
      (matcher.advance ⟨node, bindings⟩ token) := by
    simp only [advance, hvalue, hassigned]
    exact (record_sameOutcome ..).map _
  simp only [run, List.foldlM_cons, hfirst]
  exact hstep.bind fun _ => .refl _

end Ways

/-- Lists that are matched alike from the end of a walk are matched alike behind its tokens. -/
theorem run_append_sameOutcome (hm : matcher.IsBuilt)
    (h : ∀ mid : Position, mid.node = matcher.walk before →
      SameOutcome (matcher.run mid tokens) (matcher.run mid tokens')) :
    SameOutcome (matcher.run matcher.initial (before ++ tokens))
      (matcher.run matcher.initial (before ++ tokens')) := by
  have happend (tokens : List Token) : matcher.run matcher.initial (before ++ tokens) =
      matcher.run matcher.initial before >>= fun mid => matcher.run mid tokens :=
    List.foldlM_append
  rw [happend, happend]
  cases hrun : matcher.run matcher.initial before with
  | error e => exact .refl _
  | ok mid => exact h mid (node_of_run_initial hm hrun)

end Matcher

namespace Signature

variable {signature : Signature} {source name value : String} {limit : Nat} {arg : ArgId}
  {flag : NodeId} {before tokens tokens' : List Token} {after : List String}

/-- In the tree of a grammar that is parsed, the literals of constants are names. -/
theorem literalsAreNames_of_ofSource
    (h : ofSource source signature.args limit = .ok signature) :
    signature.matcher.LiteralsAreNames := by
  intro id literal label arg? hsymbol
  obtain ⟨grammar, hparse, h⟩ := bind_eq_ok_iff'.mp h
  rw [← (ofGrammar_eq_ok h).1] at hparse
  obtain ⟨rfl, -⟩ := signature.isBuilt_matcher.wellFormed.declared hsymbol
  exact Grammar.isName_label_of_build hparse signature.tree_eq hsymbol rfl

theorem bind_sameOutcome (hlength : signature.grammar.minimumArguments ≤ tokens.length)
    (hlength' : signature.grammar.minimumArguments ≤ tokens'.length)
    (h : SameOutcome (signature.matcher.run signature.matcher.initial tokens)
      (signature.matcher.run signature.matcher.initial tokens')) :
    SameOutcome (signature.bind tokens) (signature.bind tokens') := by
  have heq {tokens : List Token} (hlength : signature.grammar.minimumArguments ≤ tokens.length) :
      signature.bind tokens =
        signature.matcher.run signature.matcher.initial tokens >>= signature.matcher.close :=
    if_neg (Nat.not_lt.mpr hlength)
  rw [heq hlength, heq hlength']
  exact h.bind fun last => .refl _

/-- A named value may be given as `-name value` or as `name=value`. Where a flag is the first node
that takes `-name` behind the tokens in front, both lines succeed with the same bindings or fail
with the same error but for its place, whatever the value is and whatever follows it, if they are
long enough; and their walks lead to the same node. -/
theorem sameOutcome_assignment
    (hsource : ofSource source signature.args limit = .ok signature)
    (hfirst : (signature.tree.frontier (signature.matcher.walk before)).nodes.find?
      (fun id => (signature.matcher.accept? id ("-" ++ name)).isSome) = some flag)
    (hflag : signature.tree.KindAt flag (.flag arg))
    (htokens : tokens.map Token.value =
      before.map Token.value ++ ("-" ++ name) :: value :: after)
    (htokens' : tokens'.map Token.value =
      before.map Token.value ++ Sentence.assignment name value :: after)
    (hlength : signature.grammar.minimumArguments ≤ tokens.length)
    (hlength' : signature.grammar.minimumArguments ≤ tokens'.length) :
    SameOutcome (signature.bind tokens) (signature.bind tokens') ∧
      signature.matcher.walk tokens = signature.matcher.walk tokens' := by
  have hm := signature.isBuilt_matcher
  obtain ⟨node, hselect, hvalues⟩ := Matcher.exists_selects_of_find? hm
    (literalsAreNames_of_ofSource hsource) hfirst hflag
  obtain ⟨front, rest, rfl, hfront, hrest⟩ := List.map_eq_append_iff.mp htokens
  obtain ⟨flagToken, rest, rfl, hflagToken, hrest⟩ := List.map_eq_cons_iff.mp hrest
  obtain ⟨valueToken, tail, rfl, rfl, rfl⟩ := List.map_eq_cons_iff.mp hrest
  obtain ⟨front', rest, rfl, hfront', hrest⟩ := List.map_eq_append_iff.mp htokens'
  obtain ⟨token, tail', rfl, htoken, htail⟩ := List.map_eq_cons_iff.mp hrest
  -- The tokens in front may be those of the first line on both lines, and so may those behind.
  have htexts : (front ++ token :: tail).map Token.value =
      (front' ++ token :: tail').map Token.value := by
    simp [hfront, hfront', htail]
  have hwalk : signature.matcher.walk front = signature.matcher.walk before :=
    Matcher.walkFrom_congr hfront
  obtain ⟨hvalue, hassigned⟩ := hvalues valueToken.value
  rw [← hwalk, ← hflagToken] at hselect
  rw [← hwalk, ← htoken] at hassigned
  constructor
  · have hways : SameOutcome
        (signature.matcher.run signature.matcher.initial (front ++ flagToken :: valueToken :: tail))
        (signature.matcher.run signature.matcher.initial (front ++ token :: tail)) := by
      refine Matcher.run_append_sameOutcome hm fun mid hmid => ?_
      obtain ⟨_, bindings⟩ := mid
      obtain rfl := hmid
      exact Matcher.run_ways hselect hvalue hassigned bindings tail
    exact bind_sameOutcome hlength hlength' (hways.trans (Matcher.run_sameOutcome htexts))
  · calc signature.matcher.walk (front ++ flagToken :: valueToken :: tail)
      _ = signature.matcher.walk (front ++ token :: tail) :=
        Matcher.walkFrom_append_congr (Matcher.walkFrom_ways hselect hvalue hassigned tail)
      _ = signature.matcher.walk (front' ++ token :: tail') := Matcher.walkFrom_congr htexts

end Signature

/-- After the path of `load path [n]*`, the value `-7` of `n` in both ways and another behind it. -/
theorem sameOutcome_assignment_load :
    Signature.ofSource "load path [n]*" loadSignature.args 16 = .ok loadSignature ∧
      SameOutcome
        (loadSignature.bind [⟨"x", ⟨0, 1⟩⟩, ⟨"-n", ⟨2, 4⟩⟩, ⟨"-7", ⟨5, 7⟩⟩, ⟨"n=3", ⟨8, 11⟩⟩])
        (loadSignature.bind [⟨"x", ⟨0, 1⟩⟩, ⟨"n=-7", ⟨2, 6⟩⟩, ⟨"n=3", ⟨7, 10⟩⟩]) ∧
      loadSignature.matcher.walk
          [⟨"x", ⟨0, 1⟩⟩, ⟨"-n", ⟨2, 4⟩⟩, ⟨"-7", ⟨5, 7⟩⟩, ⟨"n=3", ⟨8, 11⟩⟩] =
        loadSignature.matcher.walk [⟨"x", ⟨0, 1⟩⟩, ⟨"n=-7", ⟨2, 6⟩⟩, ⟨"n=3", ⟨7, 10⟩⟩] := by
  have hparse : Grammar.parse "load path [n]*" 16 = .ok loadSignature.grammar := by
    decide +kernel
  have hsource : Signature.ofSource "load path [n]*" loadSignature.args 16 = .ok loadSignature :=
    bind_eq_ok_iff'.mpr ⟨_, hparse, Signature.ofGrammar_eq loadSignature.tree_eq⟩
  have hfirst : (loadSignature.tree.frontier
      (loadSignature.matcher.walk [⟨"x", ⟨0, 1⟩⟩])).nodes.find?
        (fun id => (loadSignature.matcher.accept? id ("-" ++ "n")).isSome) = some 5 := by
    decide +kernel
  have hflag : loadSignature.tree.KindAt 5 (.flag 1) := Tree.kindAt_iff.mpr ⟨"n", rfl⟩
  exact ⟨hsource, Signature.sameOutcome_assignment hsource hfirst hflag rfl rfl
    (by decide +kernel) (by decide +kernel)⟩

end CommandShell
