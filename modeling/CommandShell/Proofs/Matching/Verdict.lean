import CommandShell.Proofs.Matching.Sentence

/-!
# Verdicts on tokens

Matching a line binds values as it goes, and completing it only moves through the tree; both take
the same steps. So matching fails at a token exactly if the walk of completion stops in front of it,
or if the text that the token gives to an argument cannot be converted, and no token before it is at
fault. What follows the token at fault makes no difference.

## Main definitions

* `Matcher.given?`, `Matcher.Refuses` — the text that a token gives, and whether its argument's type
  has no value for it
* `Matcher.AcceptsAll`, `Matcher.ConvertsAll` — every token is accepted, and no text is refused
* `Matcher.Stuck`, `Matcher.Misfit` — the two faults of a token behind tokens without fault
* `Matcher.Faults` — the token is the first at which a run fails
* `Unmatched`, `Unconverted`, `Incomplete` — the reports of a line that fails

## Main results

* `Matcher.exists_run_eq_ok_iff` — a run goes through if every token is accepted and every text
  converted
* `Matcher.node_of_run_initial` — a run ends where the walk of completion does
* `Matcher.run_eq_error_iff` — a run fails at the first token at fault
* `Matcher.faults_iff_stuck`, `Matcher.exists_faults_iff_misfit` — which fault gives which report
* `Signature.bind_verdict` — the verdict on a line, by the walk of its tokens
-/

namespace CommandShell

namespace Matcher

variable {matcher : Matcher} {node : NodeId} {position mid last : Position} {bindings : Bindings}
  {word : String} {token other : Token} {tokens before after : List Token} {e : MatchError}

/-! ### Faults of tokens -/

/-- The argument that a token gives a text to, and that text, if it is matched after `node`. -/
def given? (matcher : Matcher) (node : NodeId) (word : String) : Option (ArgId × String) :=
  (matcher.select? (matcher.tree.frontier node) word).bind Step.bound

/-- The token gives a text to an argument whose type has no value for it, for this reason. -/
def RefusesFor (matcher : Matcher) (node : NodeId) (word : String) (argument : Argument)
    (raw : String) (reason : ConversionError) : Prop :=
  ∃ id, matcher.given? node word = some (id, raw) ∧ matcher.args.get? id = some argument ∧
    argument.type.convert raw = .error reason

/-- The token gives a text to an argument whose type has no value for it. -/
def Refuses (matcher : Matcher) (node : NodeId) (word : String) : Prop :=
  ∃ argument raw reason, matcher.RefusesFor node word argument raw reason

/-- The walk accepts every token. -/
def AcceptsAll (matcher : Matcher) (tokens : List Token) : Prop :=
  ∀ before token after, tokens = before ++ token :: after →
    matcher.Accepts (matcher.walk before) token.value

/-- Every text that a token gives to an argument can be converted. -/
def ConvertsAll (matcher : Matcher) (tokens : List Token) : Prop :=
  ∀ before token after, tokens = before ++ token :: after →
    ¬ matcher.Refuses (matcher.walk before) token.value

/-- The tokens before are accepted and their texts converted, but nothing accepts the token. -/
def Stuck (matcher : Matcher) (before : List Token) (token : Token) : Prop :=
  matcher.AcceptsAll before ∧ matcher.ConvertsAll before ∧
    ¬ matcher.Accepts (matcher.walk before) token.value

/-- All tokens up to this one are accepted, and its text is the first that cannot be converted. -/
def Misfit (matcher : Matcher) (before : List Token) (token : Token) : Prop :=
  matcher.AcceptsAll (before ++ [token]) ∧ matcher.ConvertsAll before ∧
    matcher.Refuses (matcher.walk before) token.value

/-- What holds of every token of a list behind those before it, token by token. -/
theorem forall_split_concat {P : List Token → Token → Prop} :
    (∀ first token rest, before ++ [other] = first ++ token :: rest → P first token) ↔
      (∀ first token rest, before = first ++ token :: rest → P first token) ∧ P before other := by
  constructor
  · intro h
    refine ⟨fun first token rest hbefore => h first token (rest ++ [other]) ?_,
      h before other [] rfl⟩
    rw [hbefore, List.append_assoc, List.cons_append]
  · rintro ⟨h, hlast⟩ first token rest heq
    rcases List.eq_nil_or_concat rest with rfl | ⟨rest, last, rfl⟩
    · obtain ⟨rfl, hother⟩ := List.append_inj' heq rfl
      cases hother
      exact hlast
    · apply h first token rest
      rw [List.concat_eq_append, ← List.cons_append, ← List.append_assoc] at heq
      exact (List.append_inj' heq rfl).1

theorem acceptsAll_concat :
    matcher.AcceptsAll (before ++ [token]) ↔
      matcher.AcceptsAll before ∧ matcher.Accepts (matcher.walk before) token.value :=
  forall_split_concat

theorem convertsAll_concat :
    matcher.ConvertsAll (before ++ [token]) ↔
      matcher.ConvertsAll before ∧ ¬ matcher.Refuses (matcher.walk before) token.value :=
  forall_split_concat

theorem accepts_of_refuses (h : matcher.Refuses node word) : matcher.Accepts node word := by
  obtain ⟨argument, raw, reason, id, hgiven, -⟩ := h
  obtain ⟨step, hselect, -⟩ := Option.bind_eq_some_iff.mp hgiven
  rw [← select?_isSome_iff, hselect]
  rfl

/-! ### Single tokens -/

/-- A token fails if nothing accepts it, or if its text is refused. -/
theorem advance_eq_error_iff :
    matcher.advance position token = .error e ↔
      ¬ matcher.Accepts position.node token.value ∧
          e = reject (matcher.tree.frontier position.node) token ∨
        ∃ argument raw reason,
          matcher.RefusesFor position.node token.value argument raw reason ∧
            e = .conversion argument.name raw reason token.span := by
  rw [← select?_eq_none_iff]
  unfold advance RefusesFor given?
  dsimp only
  cases hselect : matcher.select? (matcher.tree.frontier position.node) token.value with
  | none => simp [eq_comm]
  | some step =>
    obtain ⟨node, bound⟩ := step
    simp only [map_eq_error_iff, Option.bind_some]
    cases bound with
    | none => simp [record]
    | some pair =>
      obtain ⟨id, raw⟩ := pair
      simp only [record, map_eq_error_iff, convert]
      cases hget : matcher.args.get? id with
      | none => simp [hget]
      | some argument =>
        cases hconvert : argument.type.convert raw <;> simp [hget, hconvert, eq_comm]

/-- A token goes through if some node accepts it and its text is not refused. -/
theorem exists_advance_eq_ok_iff :
    (∃ next, matcher.advance position token = .ok next) ↔
      matcher.Accepts position.node token.value ∧
        ¬ matcher.Refuses position.node token.value := by
  cases hadvance : matcher.advance position token with
  | ok next =>
    have hnot (e : MatchError) : matcher.advance position token ≠ .error e := by simp [hadvance]
    refine iff_of_true ⟨next, rfl⟩ ⟨?_, ?_⟩
    · by_contra haccepts
      exact hnot _ (advance_eq_error_iff.mpr (.inl ⟨haccepts, rfl⟩))
    · rintro ⟨argument, raw, reason, hrefuses⟩
      exact hnot _ (advance_eq_error_iff.mpr (.inr ⟨argument, raw, reason, hrefuses, rfl⟩))
  | error e =>
    refine iff_of_false (by simp) ?_
    rintro ⟨haccepts, hconverts⟩
    rcases advance_eq_error_iff.mp hadvance with
      ⟨hnone, -⟩ | ⟨argument, raw, reason, hrefuses, -⟩
    · exact hnone haccepts
    · exact hconverts ⟨argument, raw, reason, hrefuses⟩

/-! ### Runs and walks -/

/-- The walk of completion takes the steps of a run. -/
theorem node_of_run (hm : matcher.IsBuilt) (h : matcher.run position tokens = .ok last) :
    last.node = matcher.walkFrom position.node tokens := by
  induction tokens generalizing position with
  | nil =>
    cases h
    rfl
  | cons token tokens ih =>
    rw [run, List.foldlM_cons] at h
    obtain ⟨next, hadvance, h⟩ := bind_eq_ok_iff.mp h
    obtain ⟨step, hselect, hnode, -⟩ := (advance_eq_ok_iff hm).mp hadvance
    rw [ih h, walkFrom, hselect, hnode]

theorem node_of_run_initial (hm : matcher.IsBuilt)
    (h : matcher.run matcher.initial tokens = .ok last) : last.node = matcher.walk tokens :=
  node_of_run hm h

/-- The run of a line goes through exactly if no token is at fault. -/
theorem exists_run_eq_ok_iff (hm : matcher.IsBuilt) :
    (∃ last, matcher.run matcher.initial tokens = .ok last) ↔
      matcher.AcceptsAll tokens ∧ matcher.ConvertsAll tokens := by
  -- The verdict on a token depends on those before it, so the induction takes off the last one.
  induction tokens using List.reverseRecOn with
  | nil =>
    refine iff_of_true ⟨matcher.initial, rfl⟩ ⟨?_, ?_⟩ <;>
    · intro before token after hnil
      simp at hnil
  | append_singleton before token ih =>
    rw [acceptsAll_concat, convertsAll_concat, and_and_and_comm, ← ih]
    have hrun : matcher.run matcher.initial (before ++ [token]) =
        matcher.run matcher.initial before >>= fun mid => matcher.advance mid token := by
      simp [run]
    simp only [hrun, bind_eq_ok_iff]
    constructor
    · rintro ⟨last, mid, hmid, hlast⟩
      rw [← node_of_run_initial hm hmid]
      exact ⟨⟨mid, hmid⟩, exists_advance_eq_ok_iff.mp ⟨last, hlast⟩⟩
    · rintro ⟨⟨mid, hmid⟩, htoken⟩
      rw [← node_of_run_initial hm hmid] at htoken
      obtain ⟨last, hlast⟩ := exists_advance_eq_ok_iff.mpr htoken
      exact ⟨last, mid, hmid, hlast⟩

/-- The error for a token that is at fault behind tokens that are not. -/
def Faults (matcher : Matcher) (before : List Token) (token : Token) (e : MatchError) : Prop :=
  matcher.AcceptsAll before ∧ matcher.ConvertsAll before ∧
    (¬ matcher.Accepts (matcher.walk before) token.value ∧
        e = reject (matcher.tree.frontier (matcher.walk before)) token ∨
      ∃ argument raw reason,
        matcher.RefusesFor (matcher.walk before) token.value argument raw reason ∧
          e = .conversion argument.name raw reason token.span)

theorem exists_advance_eq_error_iff (hm : matcher.IsBuilt) :
    (∃ mid, matcher.run matcher.initial before = .ok mid ∧ matcher.advance mid token = .error e) ↔
      matcher.Faults before token e := by
  rw [Faults, ← and_assoc, ← exists_run_eq_ok_iff hm]
  constructor
  · rintro ⟨mid, hmid, hadvance⟩
    rw [← node_of_run_initial hm hmid]
    exact ⟨⟨mid, hmid⟩, advance_eq_error_iff.mp hadvance⟩
  · rintro ⟨⟨mid, hmid⟩, hfault⟩
    rw [← node_of_run_initial hm hmid] at hfault
    exact ⟨mid, hmid, advance_eq_error_iff.mpr hfault⟩

/-- The run of a line fails at a token that is at fault behind tokens that are not. -/
theorem run_eq_error_iff (hm : matcher.IsBuilt) :
    matcher.run matcher.initial tokens = .error e ↔
      ∃ before token after, tokens = before ++ token :: after ∧ matcher.Faults before token e := by
  simp only [← exists_advance_eq_error_iff hm]
  rw [run, foldlM_eq_error_iff]
  constructor
  · rintro ⟨before, token, after, mid, htokens, hmid, hadvance⟩
    exact ⟨before, token, after, htokens, mid, hmid, hadvance⟩
  · rintro ⟨before, token, after, htokens, mid, hmid, hadvance⟩
    exact ⟨before, token, after, mid, htokens, hmid, hadvance⟩

/-! ### The two faults -/

theorem reject_eq (frontier : Frontier) (token : Token) :
    reject frontier token = .tooManyArguments token ∨
      reject frontier token = .unknownArgument token := by
  unfold reject
  split
  · exact .inl rfl
  · exact .inr rfl

/-- The error names the token that nothing accepts. -/
theorem faults_iff_stuck :
    (matcher.Faults before token (.unknownArgument other) ∨
        matcher.Faults before token (.tooManyArguments other)) ↔
      matcher.Stuck before token ∧ other = token := by
  -- Which of the two errors it is depends on whether the line could end here.
  have hreject := reject_eq (matcher.tree.frontier (matcher.walk before)) token
  constructor
  · rintro (⟨haccepts, hconverts, hfault⟩ | ⟨haccepts, hconverts, hfault⟩)
    all_goals
      rcases hfault with ⟨hnone, heq⟩ | ⟨argument, raw, reason, -, heq⟩
      · refine ⟨⟨haccepts, hconverts, hnone⟩, ?_⟩
        rcases hreject with h | h <;> simp_all
      · cases heq
  · rintro ⟨⟨haccepts, hconverts, hnone⟩, rfl⟩
    rcases hreject with h | h
    · exact .inr ⟨haccepts, hconverts, .inl ⟨hnone, h.symm⟩⟩
    · exact .inl ⟨haccepts, hconverts, .inl ⟨hnone, h.symm⟩⟩

/-- The error for a text that cannot be converted is at its token. -/
theorem exists_faults_iff_misfit {span : Span} :
    (∃ name raw reason, matcher.Faults before token (.conversion name raw reason span)) ↔
      matcher.Misfit before token ∧ token.span = span := by
  constructor
  · rintro ⟨name, raw, reason, haccepts, hconverts, hfault⟩
    rcases hfault with ⟨-, heq⟩ | ⟨argument, raw, reason, hrefuses, heq⟩
    · rcases reject_eq (matcher.tree.frontier (matcher.walk before)) token with h | h <;>
        cases heq.trans h
    · cases heq
      have hrefuses : matcher.Refuses _ _ := ⟨argument, raw, reason, hrefuses⟩
      exact ⟨⟨acceptsAll_concat.mpr ⟨haccepts, accepts_of_refuses hrefuses⟩, hconverts, hrefuses⟩,
        rfl⟩
  · rintro ⟨⟨haccepts, hconverts, argument, raw, reason, hrefuses⟩, rfl⟩
    exact ⟨argument.name, raw, reason, (acceptsAll_concat.mp haccepts).1, hconverts,
      .inr ⟨argument, raw, reason, hrefuses, rfl⟩⟩

/-- A token is at fault in one of the two ways. -/
theorem exists_faults_iff :
    (∃ e, matcher.Faults before token e) ↔
      matcher.Stuck before token ∨ matcher.Misfit before token := by
  constructor
  · rintro ⟨e, haccepts, hconverts, ⟨hnone, -⟩ | ⟨argument, raw, reason, hrefuses, -⟩⟩
    · exact .inl ⟨haccepts, hconverts, hnone⟩
    · have hrefuses : matcher.Refuses _ _ := ⟨argument, raw, reason, hrefuses⟩
      exact .inr ⟨acceptsAll_concat.mpr ⟨haccepts, accepts_of_refuses hrefuses⟩, hconverts,
        hrefuses⟩
  · rintro (⟨haccepts, hconverts, hnone⟩ | hmisfit)
    · exact ⟨_, haccepts, hconverts, .inl ⟨hnone, rfl⟩⟩
    · obtain ⟨name, raw, reason, hfaults⟩ := exists_faults_iff_misfit.mpr ⟨hmisfit, rfl⟩
      exact ⟨_, hfaults⟩

/-! ### Whole lines -/

/-- At the end of a line, more of the line or the value of an argument can be missing. -/
theorem endsEarly_or_unbound_of_close (h : matcher.close last = .error e) :
    (∃ labels, e = .endsEarly labels) ∨ ∃ name, e = .unbound name := by
  unfold close at h
  dsimp only at h
  split at h
  · split at h
    · exact .inr ⟨_, (Except.error.inj h).symm⟩
    · cases h
  · exact .inl ⟨_, (Except.error.inj h).symm⟩

theorem bind_eq_error_iff_of_le (hlength : matcher.minimum ≤ tokens.length) :
    matcher.bind tokens = .error e ↔
      matcher.run matcher.initial tokens = .error e ∨
        ∃ last, matcher.run matcher.initial tokens = .ok last ∧ matcher.close last = .error e := by
  rw [bind, if_neg (Nat.not_lt.mpr hlength)]
  exact bind_eq_error_iff

/-- An error with a place in the line is that of a token at fault. -/
theorem bind_eq_error_iff_faults (hm : matcher.IsBuilt) (hlength : matcher.minimum ≤ tokens.length)
    (he : e.span? ≠ none) :
    matcher.bind tokens = .error e ↔
      ∃ before token after, tokens = before ++ token :: after ∧ matcher.Faults before token e := by
  rw [bind_eq_error_iff_of_le hlength, run_eq_error_iff hm, or_iff_left]
  rintro ⟨last, -, hclose⟩
  rcases endsEarly_or_unbound_of_close hclose with ⟨labels, rfl⟩ | ⟨name, rfl⟩ <;> exact he rfl

end Matcher

/-! ### Verdicts -/

/-- The result says that nothing takes the token. -/
def Unmatched (result : Except MatchError Bindings) (token : Token) : Prop :=
  result = .error (.unknownArgument token) ∨ result = .error (.tooManyArguments token)

/-- The result says that the text of the token at this place cannot be converted. -/
def Unconverted (result : Except MatchError Bindings) (span : Span) : Prop :=
  ∃ name raw reason, result = .error (.conversion name raw reason span)

/-- The result says that the line ends early, or leaves an argument without a value. -/
def Incomplete (result : Except MatchError Bindings) : Prop :=
  (∃ labels, result = .error (.endsEarly labels)) ∨ ∃ name, result = .error (.unbound name)

namespace Signature

variable {signature : Signature} {tokens before after : List Token} {token : Token} {span : Span}

theorem unmatched_bind_iff (hlength : signature.grammar.minimumArguments ≤ tokens.length) :
    Unmatched (signature.bind tokens) token ↔
      ∃ before after, tokens = before ++ token :: after ∧
        signature.matcher.Stuck before token := by
  have hm := signature.isBuilt_matcher
  rw [Unmatched, bind, Matcher.bind_eq_error_iff_faults hm hlength (by simp [MatchError.span?]),
    Matcher.bind_eq_error_iff_faults hm hlength (by simp [MatchError.span?])]
  constructor
  · rintro (⟨before, other, after, htokens, hfaults⟩ | ⟨before, other, after, htokens, hfaults⟩)
    · obtain ⟨hstuck, rfl⟩ := Matcher.faults_iff_stuck.mp (.inl hfaults)
      exact ⟨before, after, htokens, hstuck⟩
    · obtain ⟨hstuck, rfl⟩ := Matcher.faults_iff_stuck.mp (.inr hfaults)
      exact ⟨before, after, htokens, hstuck⟩
  · rintro ⟨before, after, htokens, hstuck⟩
    exact (Matcher.faults_iff_stuck.mpr ⟨hstuck, rfl⟩).imp
      (fun h => ⟨before, token, after, htokens, h⟩) (fun h => ⟨before, token, after, htokens, h⟩)

theorem unconverted_bind_iff (hlength : signature.grammar.minimumArguments ≤ tokens.length) :
    Unconverted (signature.bind tokens) span ↔
      ∃ before token after, tokens = before ++ token :: after ∧ token.span = span ∧
        signature.matcher.Misfit before token := by
  have hm := signature.isBuilt_matcher
  have hspan (name raw : String) (reason : ConversionError) :=
    Matcher.bind_eq_error_iff_faults (e := .conversion name raw reason span) hm hlength
      (by simp [MatchError.span?])
  simp only [Unconverted, bind, hspan]
  constructor
  · rintro ⟨name, raw, reason, before, token, after, htokens, hfaults⟩
    obtain ⟨hmisfit, rfl⟩ := Matcher.exists_faults_iff_misfit.mp ⟨name, raw, reason, hfaults⟩
    exact ⟨before, token, after, htokens, rfl, hmisfit⟩
  · rintro ⟨before, token, after, htokens, hspan, hmisfit⟩
    obtain ⟨name, raw, reason, hfaults⟩ :=
      Matcher.exists_faults_iff_misfit.mpr ⟨hmisfit, hspan⟩
    exact ⟨name, raw, reason, before, token, after, htokens, hfaults⟩

/-- What follows a token at fault makes no difference. -/
theorem bind_eq_error_of_faults {e : MatchError}
    (h : signature.matcher.Faults before token e)
    (hlength : signature.grammar.minimumArguments ≤ (before ++ token :: after).length) :
    signature.bind (before ++ token :: after) = .error e := by
  rw [bind, Matcher.bind_eq_error_iff_of_le hlength]
  exact .inl ((Matcher.run_eq_error_iff signature.isBuilt_matcher).mpr
    ⟨before, token, after, rfl, h⟩)

/-- A line without a token at fault is accepted or incomplete, and the walk goes through it. -/
theorem acceptsAll_of_not_fault (hlength : signature.grammar.minimumArguments ≤ tokens.length)
    (h : ∀ before token after, tokens = before ++ token :: after →
      ¬ signature.matcher.Stuck before token ∧ ¬ signature.matcher.Misfit before token) :
    signature.matcher.AcceptsAll tokens ∧
      ((∃ bindings, signature.bind tokens = .ok bindings) ∨
        Incomplete (signature.bind tokens)) := by
  have hm := signature.isBuilt_matcher
  cases hrun : signature.matcher.run signature.matcher.initial tokens with
  | error e =>
    obtain ⟨before, token, after, htokens, hfaults⟩ := (Matcher.run_eq_error_iff hm).mp hrun
    obtain ⟨hstuck, hmisfit⟩ := h before token after htokens
    rcases Matcher.exists_faults_iff.mp ⟨e, hfaults⟩ with hfault | hfault
    · exact absurd hfault hstuck
    · exact absurd hfault hmisfit
  | ok last =>
    refine ⟨((Matcher.exists_run_eq_ok_iff hm).mp ⟨last, hrun⟩).1, ?_⟩
    cases hbind : signature.bind tokens with
    | ok bindings => exact .inl ⟨bindings, rfl⟩
    | error e =>
      rw [bind, Matcher.bind_eq_error_iff_of_le hlength, hrun] at hbind
      rcases hbind with hbind | ⟨_, -, hclose⟩
      · cases hbind
      · rcases Matcher.endsEarly_or_unbound_of_close hclose with ⟨labels, rfl⟩ | ⟨name, rfl⟩
        · exact .inr (.inl ⟨labels, rfl⟩)
        · exact .inr (.inr ⟨name, rfl⟩)

/-- A token that is alone at its place stands behind the same tokens however a line is split. -/
theorem eq_of_split {before' after' : List Token} {token' : Token}
    (h : before ++ token :: after = before' ++ token' :: after') (hspan : token'.span = token.span)
    (hother : ∀ other ∈ before ++ after, other.span ≠ token.span) :
    before' = before ∧ token' = token := by
  -- One of the two beginnings continues the other. Were it longer, it would hold a token with the
  -- same place.
  rcases List.append_eq_append_iff.mp h with ⟨more, rfl, hmore⟩ | ⟨more, rfl, hmore⟩
  · cases more with
    | nil =>
      cases hmore
      exact ⟨List.append_nil _, rfl⟩
    | cons first more =>
      cases hmore
      exact absurd hspan (hother token' (by simp))
  · cases more with
    | nil =>
      cases hmore
      exact ⟨(List.append_nil _).symm, rfl⟩
    | cons first more =>
      cases hmore
      exact absurd hspan (hother token' (by simp))

/-- The verdict on a line that is long enough, told by the walk of completion. A token is reported
as unmatched or unconverted exactly if it is at fault and none before it is; where no other token
has its place, the report tells which token it is. Without a fault, the walk accepts every token,
and what may still be missing is at the end of the line. What follows a token at fault makes no
difference. -/
theorem bind_verdict (hlength : signature.grammar.minimumArguments ≤ tokens.length) :
    (∀ token, Unmatched (signature.bind tokens) token ↔
      ∃ before after, tokens = before ++ token :: after ∧
        signature.matcher.Stuck before token) ∧
    (∀ span, Unconverted (signature.bind tokens) span ↔
      ∃ before token after, tokens = before ++ token :: after ∧ token.span = span ∧
        signature.matcher.Misfit before token) ∧
    (∀ before token after, tokens = before ++ token :: after →
      (∀ other ∈ before ++ after, other.span ≠ token.span) →
      (Unmatched (signature.bind tokens) token ↔ signature.matcher.Stuck before token) ∧
        (Unconverted (signature.bind tokens) token.span ↔
          signature.matcher.Misfit before token)) ∧
    ((∀ before token after, tokens = before ++ token :: after →
        ¬ signature.matcher.Stuck before token ∧ ¬ signature.matcher.Misfit before token) →
      signature.matcher.AcceptsAll tokens ∧
        ((∃ bindings, signature.bind tokens = .ok bindings) ∨
          Incomplete (signature.bind tokens))) ∧
    (∀ bindings, signature.bind tokens = .ok bindings →
      (signature.tree.frontier (signature.matcher.walk tokens)).reachesFinish = true) ∧
    (∀ before token after other, tokens = before ++ token :: after →
      signature.matcher.Stuck before token ∨ signature.matcher.Misfit before token →
      signature.grammar.minimumArguments ≤ (before ++ token :: other).length →
      ∃ e, signature.bind tokens = .error e ∧
        signature.bind (before ++ token :: other) = .error e) := by
  have hm := signature.isBuilt_matcher
  refine ⟨fun token => unmatched_bind_iff hlength, fun span => unconverted_bind_iff hlength, ?_,
    acceptsAll_of_not_fault hlength, ?_, ?_⟩
  · rintro before token after rfl hother
    rw [unmatched_bind_iff hlength, unconverted_bind_iff hlength]
    constructor
    · constructor
      · rintro ⟨before', after', hsplit, hstuck⟩
        rwa [(eq_of_split hsplit rfl hother).1] at hstuck
      · exact fun hstuck => ⟨before, after, rfl, hstuck⟩
    · constructor
      · rintro ⟨before', token', after', hsplit, hspan, hmisfit⟩
        obtain ⟨rfl, rfl⟩ := eq_of_split hsplit hspan hother
        exact hmisfit
      · exact fun hmisfit => ⟨before, token, after, rfl, rfl, hmisfit⟩
  · intro bindings hbind
    obtain ⟨-, last, hrun, hend, -⟩ := Matcher.bind_tokens_eq_ok_iff.mp hbind
    rwa [Matcher.node_of_run_initial hm hrun] at hend
  · rintro before token after other rfl hfault hother
    obtain ⟨e, hfaults⟩ := Matcher.exists_faults_iff.mpr hfault
    exact ⟨e, bind_eq_error_of_faults hfaults hlength, bind_eq_error_of_faults hfaults hother⟩

end Signature

/-- On the line `x n=y -z` of `load path [n]*` the second token is no number, and that nothing takes
the third makes no difference. -/
theorem bind_verdict_load :
    loadSignature.grammar.minimumArguments ≤ 3 ∧
      Unconverted (loadSignature.bind [⟨"x", ⟨0, 1⟩⟩, ⟨"n=y", ⟨2, 5⟩⟩, ⟨"-z", ⟨6, 8⟩⟩]) ⟨2, 5⟩ ∧
      loadSignature.matcher.Misfit [⟨"x", ⟨0, 1⟩⟩] ⟨"n=y", ⟨2, 5⟩⟩ ∧
      ∃ e, loadSignature.bind [⟨"x", ⟨0, 1⟩⟩, ⟨"n=y", ⟨2, 5⟩⟩, ⟨"-z", ⟨6, 8⟩⟩] = .error e ∧
        loadSignature.bind [⟨"x", ⟨0, 1⟩⟩, ⟨"n=y", ⟨2, 5⟩⟩] = .error e := by
  have hlength : loadSignature.grammar.minimumArguments ≤
      List.length (α := Token) [⟨"x", ⟨0, 1⟩⟩, ⟨"n=y", ⟨2, 5⟩⟩, ⟨"-z", ⟨6, 8⟩⟩] := by
    decide +kernel
  have hresult : (loadSignature.bind [⟨"x", ⟨0, 1⟩⟩, ⟨"n=y", ⟨2, 5⟩⟩, ⟨"-z", ⟨6, 8⟩⟩]).map
      (fun _ => ()) = .error (.conversion "n" "y" (.notNumber "y") ⟨2, 5⟩) := by decide +kernel
  have hunconverted : Unconverted _ _ := ⟨"n", "y", .notNumber "y", map_eq_error_iff.mp hresult⟩
  obtain ⟨-, -, hplace, -, -, hrest⟩ := Signature.bind_verdict hlength
  have hmisfit := (hplace [_] _ [_] rfl (by decide)).2.mp hunconverted
  exact ⟨hlength, hunconverted, hmisfit, hrest [_] _ [_] [] rfl (.inr hmisfit) (by decide +kernel)⟩

end CommandShell
