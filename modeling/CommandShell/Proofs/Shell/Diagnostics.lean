import CommandShell.Proofs.Grammar.Spans
import CommandShell.Proofs.Line.OpenQuote
import CommandShell.Proofs.Line.Partition
import CommandShell.Proofs.Matching.Completion
import CommandShell.Shell.Basic

/-!
# Diagnostics point at the fault

The span of a fault lies between characters of the text, whether the text is compiled as a grammar
or executed as a line. So its diagnostic shows the text with carets under the fault and nowhere
else. What does not fit a command is marked as it is written in the line, with its quotes.

## Main results

* `Line.liesIn_of_tokens?` — an open quote lies in the line
* `Line.liesIn_of_mem` — so do the tokens
* `Matcher.Faults.span?_eq` — a fault has the span of the token at fault
* `Shell.diagnostics_point` — diagnostics point at the fault
-/

namespace CommandShell

namespace Line

variable {line : String} {e : OpenQuote} {token : Token} {tokens : List Token}

/-- An open quote lies in the line, from its mark to the end. -/
theorem liesIn_of_tokens? (h : tokens? line = .error e) : e.span.LiesIn line.toList := by
  obtain ⟨hopen, hstop⟩ := tokens?_eq_error_iff.mp h
  obtain ⟨front, back, hline, hstart⟩ := exists_mark_of_openQuote? hopen
  have hboundary : Text.IsBoundary e.span.start line.toList := by
    rw [hline, ← hstart]
    exact Text.isBoundary_append _ _
  refine ⟨?_, hboundary, ?_⟩
  · rw [hstop]
    exact hboundary.le
  · rw [hstop]
    exact Text.isBoundary_end _

/-- The tokens lie in the line. -/
theorem liesIn_of_mem (h : tokens? line = .ok tokens) (hmem : token ∈ tokens) :
    token.span.LiesIn line.toList := by
  obtain ⟨-, rfl⟩ := tokens?_eq_ok_iff.mp h
  obtain ⟨before, c, form, after, hline, -, hspan⟩ :=
    (laid_scan 0 line.toList).parts.marked token hmem
  rw [hspan, hline]
  exact Span.liesIn_append _ _ _

end Line

/-- A fault has the span of the token at fault. -/
theorem Matcher.Faults.span?_eq {matcher : Matcher} {before : List Token} {token : Token}
    {e : MatchError} (h : matcher.Faults before token e) : e.span? = some token.span := by
  obtain ⟨-, -, ⟨-, rfl⟩ | ⟨_, _, _, -, rfl⟩⟩ := h
  · rcases reject_eq (matcher.tree.frontier (matcher.walk before)) token with h | h
    · rw [h, MatchError.span?]
    · rw [h, MatchError.span?]
  · rfl

/-- What a diagnostic points at is the text that the span marks. -/
theorem Span.PointsAt.slice_eq {text message : String} {span : Span} {diagnostic? : Option String}
    {before marked : List Char} (h : PointsAt text message span diagnostic? before marked) :
    span.slice text = .ofList marked := by
  obtain ⟨-, ⟨after, hsplit⟩, rfl, -⟩ := h
  rw [slice, hsplit, sliceChars_append]

namespace Signature

variable {signature : Signature} {tokens : List Token} {e : MatchError} {span : Span}

/-- An error with a place in the line is that of a token at fault. -/
theorem exists_faults_of_bind (h : signature.bind tokens = .error e) (hspan : e.span? = some span) :
    ∃ before token after, tokens = before ++ token :: after ∧
      signature.matcher.Faults before token e ∧ span = token.span := by
  have hlength : signature.matcher.minimum ≤ tokens.length := by
    refine Nat.not_lt.mp fun hlt => ?_
    rw [bind, Matcher.bind, if_pos hlt] at h
    cases h
    cases hspan
  obtain ⟨before, token, after, htokens, hfault⟩ :=
    (Matcher.bind_eq_error_iff_faults signature.isBuilt_matcher hlength (by simp [hspan])).mp h
  rw [hfault.span?_eq] at hspan
  exact ⟨before, token, after, htokens, hfault, (Option.some.inj hspan).symm⟩

end Signature

namespace Shell

/-- Diagnostics point at the fault: for a text without line feed, whenever compiling it as a grammar
fails, or executing it as a line fails at a quote that stays open or at a token that does not fit,
and the fault has a place in the text. What is marked of a token that does not fit is its written
form, which is read as that token on its own. -/
theorem diagnostics_point (text : String) (htext : '\n' ∉ text.toList) :
    (∀ args limit e span, Signature.ofSource text args limit = .error e → e.span? = some span →
      ∃ before marked, Span.PointsAt text e.message span (e.diagnostic? text) before marked) ∧
    (∀ (shell : Shell) e, Line.tokens? text = .error e →
      (shell.execute text).1 = .error (.quoting e) ∧
      ∃ before marked, Span.PointsAt text e.message e.span
        ((ShellError.quoting e).diagnostic? text) before marked) ∧
    ∀ (shell : Shell) head rest command e span, Line.tokens? text = .ok (head :: rest) →
      shell.registry.get? head.value = some command →
      command.spec.signature.bind rest = .error e → e.span? = some span →
        (shell.execute text).1 = .error (.matching e) ∧
        ∃ before marked front token back,
          Span.PointsAt text e.message span ((ShellError.matching e).diagnostic? text)
            before marked ∧
          rest = front ++ token :: back ∧ command.spec.signature.matcher.Faults front token e ∧
          span = token.span ∧
          Line.tokens? (.ofList marked) = .ok [⟨token.value, ⟨0, token.span.length⟩⟩] := by
  refine ⟨fun args limit e span he hspan => ?_, fun shell e he => ⟨?_, ?_⟩,
    fun shell head rest command e span hread hget hbind hspan => ⟨?_, ?_⟩⟩
  · rw [GrammarError.diagnostic?, hspan]
    exact (Signature.liesIn_of_ofSource he hspan).exists_pointsAt htext _
  · rw [execute, he]
  · exact (Line.liesIn_of_tokens? he).exists_pointsAt htext _
  · simp only [execute, hread, hget, hbind]
  · obtain ⟨front, token, back, hrest, hfault, rfl⟩ :=
      Signature.exists_faults_of_bind hbind hspan
    have hmem : token ∈ head :: rest := by simp [hrest]
    obtain ⟨before, marked, hpoints⟩ :=
      (Line.liesIn_of_mem hread hmem).exists_pointsAt htext e.message
    refine ⟨before, marked, front, token, back, ?_, hrest, hfault, rfl, ?_⟩
    · rw [ShellError.diagnostic?, MatchError.diagnostic?, hspan]
      exact hpoints
    · rw [← hpoints.slice_eq]
      exact Line.tokens?_slice hread hmem

/-- A shell with the one command `cmd [1a|_b]*`. -/
def numberedShell : Shell where
  registry := ⟨Dict.ofList [("cmd",
    ⟨⟨"cmd", "", Signature.numbered⟩, .pure fun _ => .ok .silent⟩)], false⟩
  cache := ∅
  config := {}

/-- A letter of two bytes in quotes is no part of a grammar, and fits no argument of the command;
without the second quote the line cannot be read. -/
theorem diagnostics_point_numbered :
    (∃ before marked, Span.PointsAt "cmd 'ä'" "unexpected character ''' at position 4" ⟨4, 5⟩
      ((GrammarError.unexpectedCharacter '\'' ⟨4, 5⟩).diagnostic? "cmd 'ä'") before marked) ∧
    (numberedShell.execute "cmd 'ä").1 = .error (.quoting ⟨.single, ⟨4, 7⟩⟩) ∧
    (numberedShell.execute "cmd 'ä'").1 =
      .error (.matching (.tooManyArguments ⟨"ä", ⟨4, 8⟩⟩)) ∧
    ∃ before marked, Span.PointsAt "cmd 'ä'" "too many arguments: <ä>" ⟨4, 8⟩
      ((ShellError.matching (.tooManyArguments ⟨"ä", ⟨4, 8⟩⟩)).diagnostic? "cmd 'ä'")
      before marked := by
  obtain ⟨hgrammar, -, hmatching⟩ := diagnostics_point "cmd 'ä'" (by decide)
  obtain ⟨-, hquoting, -⟩ := diagnostics_point "cmd 'ä" (by decide)
  have hread : Line.tokens? "cmd 'ä'" = .ok [⟨"cmd", ⟨0, 3⟩⟩, ⟨"ä", ⟨4, 8⟩⟩] := by decide
  have hbind : (Signature.numbered.bind [⟨"ä", ⟨4, 8⟩⟩]).map (fun _ => ()) =
      .error (.tooManyArguments ⟨"ä", ⟨4, 8⟩⟩) := by decide +kernel
  obtain ⟨hexecute, before, marked, _, _, _, hpoints, -⟩ :=
    hmatching numberedShell _ _ _ _ _ hread rfl (map_eq_error_iff.mp hbind) rfl
  exact ⟨hgrammar ∅ 0 _ _ rfl rfl, (hquoting numberedShell _ (by decide)).1, hexecute, before,
    marked, hpoints⟩

end Shell

end CommandShell
