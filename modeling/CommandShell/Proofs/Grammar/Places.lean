import CommandShell.Proofs.Grammar.Lexemes
import CommandShell.Proofs.Grammar.Rules
import CommandShell.Proofs.Grammar.Tracing
import CommandShell.Proofs.Span
import CommandShell.Proofs.Tree.Building

/-!
# Where rules are written

The rules of a grammar that is parsed are laid out in its text: one is written behind the other,
those of a group between its brackets, and each has the span of its written form. So a span marks
what its rule says, groups enclose their rules, and rules that stand side by side are in order. A
name that no argument has is marked where it is written, as a whole word.

## Main definitions

* `Text.Balanced` — every bracket of a text has its partner in it
* `Span.MarksWord`, `Span.MarksGroup` — a span marks a word, or a group from bracket to operator
* `Rule.IsMarked`, `Grammar.AreMarked` — the span of a rule, and of all rules, marks what it says
* `Rule.LaidOut` — the text that rules are written as, and the spans that come of it

## Main results

* `Rule.ReadFrom.laidOut` — rules are laid out in the text of the lexemes that they are read from
* `Rule.LaidOut.bounds`, `Rule.LaidOut.pairwise_precedes` — where the rules of a text lie
* `Rule.LaidOut.isMarked` — all rules of a text are marked by their spans
* `Grammar.exists_laidOut_of_parse` — the rules of a grammar are laid out in its text
* `Grammar.spans_mark_source` — the spans of a grammar, and those of names that are not declared
-/

namespace CommandShell

/-! ### Brackets and their partners -/

namespace Text

variable {c : Char} {cs front : List Char}

/-- Every bracket of the text has its partner in the text. -/
inductive Balanced : List Char → Prop
  | nil : Balanced []
  | char {c : Char} {cs : List Char} (hc : c ≠ '[' ∧ c ≠ ']') (h : Balanced cs) :
    Balanced (c :: cs)
  | bracket {body cs : List Char} (hbody : Balanced body) (h : Balanced cs) :
    Balanced ('[' :: (body ++ ']' :: cs))

theorem Balanced.append (h : Balanced cs) (hfront : ∀ c ∈ front, c ≠ '[' ∧ c ≠ ']') :
    Balanced (front ++ cs) := by
  induction front with
  | nil => exact h
  | cons c front ih =>
    rw [List.forall_mem_cons] at hfront
    exact .char hfront.1 (ih hfront.2)

theorem not_bracket_of_isNameChar (h : isNameChar c = true) : c ≠ '[' ∧ c ≠ ']' := by
  constructor <;>
  · rintro rfl
    revert h
    decide

theorem not_bracket_of_isBlank (h : isBlank c = true) : c ≠ '[' ∧ c ≠ ']' := by
  constructor <;>
  · rintro rfl
    revert h
    decide

end Text

/-! ### What spans mark -/

/-- A group as it is written: a text in brackets, then blanks, then the operator. -/
def GroupOp.enclose (op : GroupOp) (body gap : List Char) : List Char :=
  '[' :: (body ++ ']' :: (gap ++ [op.char]))

namespace Span

/-- The one span begins before the other, and ends before the other begins. -/
def Precedes (a b : Span) : Prop := a.start < b.start ∧ a.stop ≤ b.start

/-- The span marks the name in the text, and no name character stands next to it. -/
structure MarksWord (source : String) (span : Span) (name : String) : Prop where
  isName : Lexeme.Kind.IsName name.toList
  slice_eq : span.slice source = name
  whole : ∃ before after, source.toList = before ++ (name.toList ++ after) ∧
    span.start = Text.byteLength before ∧ Text.Ends before.reverse ∧ Text.Ends after

/-- The span marks a group in the text: it begins at a bracket and ends behind the operator, and
between the operator and the partner of the bracket there are only blanks. -/
def MarksGroup (source : String) (span : Span) (op : GroupOp) : Prop :=
  ∃ body gap, span.slice source = .ofList (op.enclose body gap) ∧ Text.Balanced body ∧
    gap.all Text.isBlank = true

end Span

namespace Rule

variable {rule : Rule} {source : String}

/-- The span of the rule marks what the rule is written as: a name, a name in angle brackets, or a
group that encloses its rules, in order. An end rule stands at the end of the text. -/
def IsMarked (source : String) (rule : Rule) : Prop :=
  match rule.kind with
  | .required | .freeForm | .named => rule.span.MarksWord source rule.lookupName
  | .constant => rule.span.slice source = "<" ++ rule.lookupName ++ ">"
  | .group op => rule.span.MarksGroup source op ∧
      (∀ child ∈ rule.rules,
        rule.span.start < child.span.start ∧ child.span.stop < rule.span.stop) ∧
      rule.rules.Pairwise (·.span.Precedes ·.span)
  | .finish => rule.span = .point (Text.byteLength source.toList)

/-- A rule that is looked up by its name is written as that name. -/
theorem isMarked_iff_of_needsDeclaration (h : rule.needsDeclaration = true) :
    rule.IsMarked source ↔ rule.span.MarksWord source rule.lookupName := by
  unfold needsDeclaration at h
  unfold IsMarked
  split <;> simp_all

end Rule

/-- The spans of a rule list mark what its rules are written as. -/
structure Grammar.AreMarked (source : String) (rules : List Rule) : Prop where
  /-- That holds of every rule, inside and outside of groups. -/
  marked : ∀ rule : Rule, rule.StandsIn rules → rule.IsMarked source
  /-- Rules outside of all groups are in order. -/
  ordered : rules.Pairwise (·.span.Precedes ·.span)
  /-- The last rule is the end rule, at the end of the text. -/
  finish : ∃ front, rules =
    front ++ [.finish front.length (.point (Text.byteLength source.toList))]

/-! ### The layout of rules -/

/-- Behind `start` bytes the rules are written in the text, one after the other, and each has the
span of its written form. Only blanks and bars stand between rules, and a word ends where no name
character follows. -/
inductive Rule.LaidOut : Nat → List Rule → List Char → Prop
  | done (start : Nat) : LaidOut start [] []
  | gap {start : Nat} {c : Char} {rules : List Rule} {cs : List Char}
    (hc : Text.isBlank c = true ∨ c = '|') (h : LaidOut (start + c.utf8Size) rules cs) :
    LaidOut start rules (c :: cs)
  | word {start stop : Nat} {kind : RuleKind} {position : Nat} {name : String} {rules : List Rule}
    {cs : List Char} (hstop : stop = start + Text.byteLength name.toList)
    (hkind : (Rule.leaf kind position name ⟨start, stop⟩).needsDeclaration = true)
    (hname : Lexeme.Kind.IsName name.toList) (hends : Text.Ends cs)
    (h : LaidOut stop rules cs) :
    LaidOut start (.leaf kind position name ⟨start, stop⟩ :: rules) (name.toList ++ cs)
  | constant {start stop position : Nat} {name : String} {rules : List Rule} {cs : List Char}
    (hstop : stop = start + Text.byteLength ('<' :: (name.toList ++ ['>'])))
    (hname : Lexeme.Kind.IsName name.toList) (h : LaidOut stop rules cs) :
    LaidOut start (.leaf .constant position name ⟨start, stop⟩ :: rules)
      ('<' :: (name.toList ++ ['>']) ++ cs)
  | group {start stop position : Nat} {op : GroupOp} {inner rules : List Rule}
    {body gap cs : List Char} (hstop : stop = start + Text.byteLength (op.enclose body gap))
    (hinner : LaidOut (start + 1) inner body) (hgap : gap.all Text.isBlank = true)
    (h : LaidOut stop rules cs) :
    LaidOut start (.nest (.group op) position inner ⟨start, stop⟩ :: rules)
      (op.enclose body gap ++ cs)

namespace Rule

variable {start : Nat} {rule : Rule} {rules : List Rule} {cs gap : List Char} {source : String}
  {lexemes : List Lexeme} {entries : List (Lexeme.Kind × List Char)}

/-- Rules are laid out behind blanks as they are without. -/
theorem LaidOut.blanks (h : LaidOut (start + Text.byteLength gap) rules cs)
    (hgap : gap.all Text.isBlank = true) : LaidOut start rules (gap ++ cs) := by
  induction gap generalizing start with
  | nil => exact h
  | cons c gap ih =>
    rw [List.all_cons, Bool.and_eq_true] at hgap
    rw [Text.byteLength_cons, ← Nat.add_assoc] at h
    exact .gap (.inl hgap.1) (ih h hgap.2)

/-- The rules that are read from written lexemes are laid out in their text. -/
theorem ReadFrom.laidOut (h : ReadFrom rules lexemes)
    (hlexemes : WrittenLexemes.lexemesFrom start entries = lexemes)
    (hspaced : WrittenLexemes.IsSpaced entries) (hsound : ∀ entry ∈ entries, entry.1.IsSound) :
    LaidOut start rules (WrittenLexemes.charsOf entries) := by
  induction h generalizing start entries with
  | nil =>
    cases entries with
    | nil => exact .done start
    | cons entry entries => cases hlexemes
  | bar span _ ih =>
    obtain ⟨gap, others, rfl, -, hrest⟩ := WrittenLexemes.exists_cons_of_lexemesFrom hlexemes
    obtain ⟨hgap, -, hspaced⟩ := WrittenLexemes.isSpaced_cons.mp hspaced
    rw [List.forall_mem_cons] at hsound
    rw [WrittenLexemes.charsOf_cons]
    exact .gap (.inr rfl) ((ih hrest hspaced hsound.2).blanks hgap)
  | word hkind _ ih =>
    obtain ⟨gap, others, rfl, rfl, hrest⟩ := WrittenLexemes.exists_cons_of_lexemesFrom hlexemes
    obtain ⟨hgap, hwords, hspaced⟩ := WrittenLexemes.isSpaced_cons.mp hspaced
    rw [List.forall_mem_cons] at hsound
    rw [WrittenLexemes.charsOf_cons]
    exact .word rfl hkind hsound.1 ((WrittenLexemes.ends_iff hgap hsound.2).mpr (hwords rfl))
      ((ih hrest hspaced hsound.2).blanks hgap)
  | constant position name span _ ih =>
    obtain ⟨gap, others, rfl, rfl, hrest⟩ := WrittenLexemes.exists_cons_of_lexemesFrom hlexemes
    obtain ⟨hgap, -, hspaced⟩ := WrittenLexemes.isSpaced_cons.mp hspaced
    rw [List.forall_mem_cons] at hsound
    rw [WrittenLexemes.charsOf_cons]
    exact .constant rfl hsound.1 ((ih hrest hspaced hsound.2).blanks hgap)
  | @group op inner rules body lexemes position opening closing operator _ _ ihinner ih =>
    obtain ⟨lead, others, rfl, rfl, hothers⟩ := WrittenLexemes.exists_cons_of_lexemesFrom hlexemes
    obtain ⟨hlead, -, hspaced⟩ := WrittenLexemes.isSpaced_cons.mp hspaced
    rw [List.forall_mem_cons] at hsound
    obtain ⟨first, closed, rfl, hbody, hclosed⟩ :=
      WrittenLexemes.exists_append_of_lexemesFrom hothers
    obtain ⟨gap, operators, rfl, -, hoperators⟩ :=
      WrittenLexemes.exists_cons_of_lexemesFrom hclosed
    obtain ⟨after, last, rfl, rfl, hrest⟩ := WrittenLexemes.exists_cons_of_lexemesFrom hoperators
    obtain ⟨hgap, -, hlast⟩ := WrittenLexemes.isSpaced_cons.mp hspaced.of_append_right
    obtain ⟨hafter, -, hlast⟩ := WrittenLexemes.isSpaced_cons.mp hlast
    obtain ⟨hfirstSound, hclosedSound⟩ := List.forall_mem_append.mp hsound.2
    rw [List.forall_mem_cons, List.forall_mem_cons] at hclosedSound
    have htext : WrittenLexemes.charsOf ((.opening, lead) ::
        (first ++ (.closing, gap) :: (.operator op, after) :: last)) =
          op.enclose (lead ++ WrittenLexemes.charsOf first) gap ++
            (after ++ WrittenLexemes.charsOf last) := by
      simp [WrittenLexemes.charsOf, GroupOp.enclose, Lexeme.Kind.written]
    have hstop : start + Text.byteLength Lexeme.Kind.opening.written + Text.byteLength lead +
        Text.byteLength (WrittenLexemes.charsOf first) +
        Text.byteLength Lexeme.Kind.closing.written + Text.byteLength gap +
        Text.byteLength (Lexeme.Kind.operator op).written =
          start + Text.byteLength (op.enclose (lead ++ WrittenLexemes.charsOf first) gap) := by
      simp [GroupOp.enclose, Lexeme.Kind.written, Nat.add_assoc]
    rw [hstop] at hrest ⊢
    rw [htext, Span.join_of_le (by dsimp only; omega) (by dsimp only; omega)]
    exact .group rfl ((ihinner hbody hspaced.of_append hfirstSound).blanks hlead) hgap
      ((ih hrest hlast hclosedSound.2.2).blanks hafter)

namespace LaidOut

/-- Induction on the layout of rules that does not look into groups: a rule is written in front of
those after it, and its written form is not empty. -/
theorem flatInduction
    {motive : ∀ {start : Nat} {rules : List Rule} {cs : List Char}, LaidOut start rules cs → Prop}
    (done : ∀ start, motive (.done start))
    (gap : ∀ {start : Nat} {c : Char} {rules : List Rule} {cs : List Char}
      (h : LaidOut (start + c.utf8Size) rules cs) (hall : LaidOut start rules (c :: cs)),
      motive h → motive hall)
    (rule : ∀ {start : Nat} {first : Rule} {rules : List Rule} {written cs : List Char}
      (h : LaidOut (start + Text.byteLength written) rules cs)
      (hall : LaidOut start (first :: rules) (written ++ cs)),
      first.span = ⟨start, start + Text.byteLength written⟩ → 0 < Text.byteLength written →
      motive h → motive hall)
    (h : LaidOut start rules cs) : motive h := by
  have hpos {written : List Char} (hwritten : written ≠ []) : 0 < Text.byteLength written :=
    Nat.pos_of_ne_zero fun h => hwritten (Text.eq_nil_of_byteLength h)
  induction h with
  | done start => exact done start
  | gap hc h ih => exact gap h _ ih
  | word hstop _ hname _ h ih =>
    subst hstop
    exact rule h _ rfl (hpos hname.1) ih
  | constant hstop _ h ih =>
    subst hstop
    exact rule h _ rfl (hpos (List.cons_ne_nil _ _)) ih
  | group hstop _ _ h _ ih =>
    subst hstop
    exact rule h _ rfl (hpos (List.cons_ne_nil _ _)) ih

/-- Rules lie in the text that they are laid out in, and their spans are not empty. -/
theorem bounds (h : LaidOut start rules cs) :
    ∀ rule ∈ rules, start ≤ rule.span.start ∧ rule.span.start < rule.span.stop ∧
      rule.span.stop ≤ start + Text.byteLength cs := by
  induction h using flatInduction with
  | done start => exact fun _ hmem => absurd hmem List.not_mem_nil
  | gap _ _ ih =>
    intro rule hmem
    have := ih rule hmem
    rw [Text.byteLength_cons]
    omega
  | rule _ _ hspan _ ih =>
    rw [Text.byteLength_append]
    refine List.forall_mem_cons.mpr ⟨?_, fun rule hmem => ?_⟩
    · rw [hspan]
      dsimp only
      omega
    · have := ih rule hmem
      omega

/-- Rules are laid out in order. -/
theorem pairwise_precedes (h : LaidOut start rules cs) :
    rules.Pairwise (·.span.Precedes ·.span) := by
  induction h using flatInduction with
  | done start => exact .nil
  | gap _ _ ih => exact ih
  | rule h _ hspan _ ih =>
    refine List.pairwise_cons.mpr ⟨fun rule hmem => ?_, ih⟩
    have := (h.bounds rule hmem).1
    rw [Span.Precedes, hspan]
    dsimp only
    omega

/-- Brackets match each other in the text of rules. -/
theorem balanced (h : LaidOut start rules cs) : Text.Balanced cs := by
  have hname {name : String} (hname : Lexeme.Kind.IsName name.toList) :
      ∀ c ∈ name.toList, c ≠ '[' ∧ c ≠ ']' :=
    fun c hmem => Text.not_bracket_of_isNameChar (List.all_eq_true.mp hname.2 c hmem)
  induction h with
  | done start => exact .nil
  | gap hc _ ih =>
    exact .char (hc.elim Text.not_bracket_of_isBlank (by rintro rfl; decide)) ih
  | word _ _ hword _ _ ih => exact ih.append (hname hword)
  | constant _ hword _ ih =>
    rw [List.cons_append, List.append_assoc]
    exact .char (by decide) ((Text.Balanced.char (by decide) ih).append (hname hword))
  | @group start stop position op inner rules body gap cs _ _ hgap _ ihinner ih =>
    have hop : op.char ≠ '[' ∧ op.char ≠ ']' := by cases op <;> decide
    have hrest : Text.Balanced (gap ++ op.char :: cs) :=
      (Text.Balanced.char hop ih).append fun c hmem =>
        Text.not_bracket_of_isBlank (List.all_eq_true.mp hgap c hmem)
    simpa [GroupOp.enclose] using Text.Balanced.bracket ihinner hrest

/-- A group that is laid out is marked by its span. -/
theorem isMarked_group {op : GroupOp} {stop position : Nat} {inner : List Rule}
    {body gap before after : List Char}
    (hsource : source.toList = before ++ (op.enclose body gap ++ after))
    (hstop : stop = Text.byteLength before + Text.byteLength (op.enclose body gap))
    (hinner : LaidOut (Text.byteLength before + 1) inner body)
    (hgap : gap.all Text.isBlank = true) :
    (Rule.nest (.group op) position inner ⟨Text.byteLength before, stop⟩).IsMarked source := by
  subst hstop
  refine ⟨⟨body, gap, Span.slice_of_split hsource, hinner.balanced, hgap⟩, fun child hmem => ?_,
    hinner.pairwise_precedes⟩
  have hbounds := hinner.bounds child hmem
  have henclose : Text.byteLength (op.enclose body gap) =
      1 + (Text.byteLength body + (1 + (Text.byteLength gap + op.char.utf8Size))) := by
    simp only [GroupOp.enclose, Text.byteLength_cons, Text.byteLength_append, Text.byteLength_nil]
    rfl
  change Text.byteLength before < child.span.start ∧
    child.span.stop < Text.byteLength before + Text.byteLength (op.enclose body gap)
  omega

/-- A constant that is laid out is marked by its span. -/
theorem isMarked_constant {stop position : Nat} {name : String} {before after : List Char}
    (hsource : source.toList = before ++ ('<' :: (name.toList ++ ['>']) ++ after))
    (hstop : stop = Text.byteLength before + Text.byteLength ('<' :: (name.toList ++ ['>']))) :
    (Rule.leaf .constant position name ⟨Text.byteLength before, stop⟩).IsMarked source := by
  subst hstop
  have hslice := Span.slice_of_split hsource
  rw [show String.ofList ('<' :: (name.toList ++ ['>'])) = "<" ++ name ++ ">" from
    String.toList_injective (by simp)] at hslice
  exact hslice

/-- All rules that stand in rules that are laid out are marked by their spans. -/
theorem isMarked (h : LaidOut start rules cs) {before after : List Char}
    (hsource : source.toList = before ++ (cs ++ after)) (hstart : start = Text.byteLength before)
    (hparts : Text.Ends before.reverse ∨ Text.Ends (cs ++ after)) (hafter : Text.Ends after)
    (hrule : rule.StandsIn rules) : rule.IsMarked source := by
  -- The text before grows by what has been passed over; inside of a bracket, what comes after the
  -- rules is the rest of the group and of the text.
  induction h generalizing before after with
  | done start => simp [StandsIn] at hrule
  | @gap start c rules cs hc _ ih =>
    have hname : Text.isNameChar c = false :=
      hc.elim Text.isNameChar_of_isBlank (by rintro rfl; decide)
    refine @ih (before ++ [c]) after (by simp [hsource]) (by simp [hstart]) (.inl ?_) hafter hrule
    simpa using Text.ends_cons.mpr hname
  | @word start stop kind position name rules cs hstop hkind hname hends _ ih =>
    have hafter' : Text.Ends (cs ++ after) := hends.append hafter
    rw [List.append_assoc] at hsource hparts
    subst hstart
    rcases standsIn_cons.mp hrule with (rfl | hholds) | hrule
    · -- The name begins with a name character, so none stands in front of it.
      have hbefore : Text.Ends before.reverse := hparts.resolve_right fun hends => by
        cases (@Lexeme.Kind.ends_written_append (.word name) hname _).mp hends
      subst hstop
      refine (isMarked_iff_of_needsDeclaration hkind).mpr
        ⟨hname, ?_, before, cs ++ after, hsource, rfl, hbefore, hafter'⟩
      exact (Span.slice_of_split hsource).trans String.ofList_toList
    · exact absurd hholds (not_holds_of_not_isFilledGroup rfl)
    · exact @ih (before ++ name.toList) after (by simp [hsource]) (by simp [hstop]) (.inr hafter')
        hafter hrule
  | @constant start stop position name rules cs hstop hname _ ih =>
    rw [List.append_assoc] at hsource
    subst hstart
    rcases standsIn_cons.mp hrule with (rfl | hholds) | hrule
    · exact isMarked_constant hsource hstop
    · exact absurd hholds (not_holds_of_not_isFilledGroup rfl)
    · refine @ih (before ++ '<' :: (name.toList ++ ['>'])) after (by simp [hsource])
        (by rw [hstop, Text.byteLength_append]) (.inl ?_) hafter hrule
      simpa using Text.ends_cons.mpr (by decide)
  | @group start stop position op inner rules body gap cs hstop hinner hgap _ ihinner ih =>
    rw [List.append_assoc] at hsource
    subst hstart
    rcases standsIn_cons.mp hrule with (rfl | hholds) | hrule
    · exact isMarked_group hsource hstop hinner hgap
    · refine @ihinner (before ++ ['[']) (']' :: (gap ++ [op.char]) ++ (cs ++ after))
        (by simp [hsource, GroupOp.enclose]) (by rw [Text.byteLength_append]; rfl) (.inl ?_)
        (Text.ends_cons.mpr (by decide)) (holds_group_iff.mp hholds)
      simpa using Text.ends_cons.mpr (by decide)
    · refine @ih (before ++ op.enclose body gap) after (by simp [hsource])
        (by rw [hstop, Text.byteLength_append]) (.inl ?_) hafter hrule
      have hop : Text.isNameChar op.char = false := by cases op <;> decide
      simpa [GroupOp.enclose] using Text.ends_cons.mpr hop

end LaidOut

end Rule

/-! ### Whole grammars -/

namespace Grammar

variable {source : String} {limit : Nat} {grammar : Grammar}

/-- The rules of a grammar are laid out in its text, behind the command name, which is written like
a positional argument. -/
theorem exists_laidOut_of_parse (h : parse source limit = .ok grammar) :
    ∃ span rules,
      Rule.LaidOut 0 (.leaf .required 0 grammar.command span :: rules) source.toList ∧
      grammar.rules =
        rules ++ [.finish rules.length (.point (Text.byteLength source.toList))] := by
  obtain ⟨span, lexemes, rules, hread, hrules, heq⟩ := exists_readFrom_of_parse h
  obtain ⟨text, ⟨hlead, hspaced, hsound⟩, hchars, hlexemes⟩ := Lexeme.read_eq_ok_iff.mp hread
  have hall : Rule.ReadFrom (.leaf .required 0 grammar.command span :: rules) text.lexemes := by
    rw [← hlexemes]
    exact .word rfl hrules
  refine ⟨span, rules, ?_, heq⟩
  rw [hchars]
  have hlaid := hall.laidOut rfl hspaced hsound
  rw [← Nat.zero_add (Text.byteLength text.lead)] at hlaid
  exact hlaid.blanks hlead

theorem areMarked_of_parse (h : parse source limit = .ok grammar) :
    AreMarked source grammar.rules := by
  obtain ⟨span, rules, hlaid, hrules⟩ := exists_laidOut_of_parse h
  rw [hrules]
  refine ⟨fun rule hrule => ?_, ?_, rules, rfl⟩
  · rcases Rule.standsIn_append_finish.mp hrule with hrule | rfl
    · have hsource : source.toList = [] ++ (source.toList ++ []) := by simp
      exact hlaid.isMarked hsource rfl (.inl Text.ends_nil) Text.ends_nil
        (Rule.standsIn_cons.mpr (.inr hrule))
    · rfl
  · refine List.pairwise_append.mpr ⟨(List.pairwise_cons.mp hlaid.pairwise_precedes).2,
      List.pairwise_singleton _ _, fun rule hmem last hlast => ?_⟩
    cases List.mem_singleton.mp hlast
    have hbounds := hlaid.bounds rule (List.mem_cons_of_mem _ hmem)
    change rule.span.start < Text.byteLength source.toList ∧
      rule.span.stop ≤ Text.byteLength source.toList
    omega

/-- The spans of a grammar's rules say where the rules are written in its text: the span of a word
or a constant marks that word or constant, that of a group goes from its bracket to its operator and
encloses those of its rules, and rules that stand side by side are in order. So a name that turns
out not to be declared is marked where it is written. -/
theorem spans_mark_source (h : parse source limit = .ok grammar) :
    AreMarked source grammar.rules ∧
      ∀ args name span,
        Tree.build args grammar.rules = .error (.undeclaredArgument name span) →
          name ∉ args.names ∧ span.MarksWord source name ∧
            ∃ rule : Rule, rule.StandsIn grammar.rules ∧ rule.needsDeclaration = true ∧
              rule.lookupName = name ∧ rule.span = span := by
  have hmarked := areMarked_of_parse h
  refine ⟨hmarked, fun args name span hbuild => ?_⟩
  obtain ⟨before, place, rule, after, hvisits, hfault, -⟩ :=
    Rule.firstFault?_eq_some_iff.mp (Tree.reports_build.eq_error_iff.mp hbuild)
  have hvisited : (place, rule) ∈ Rule.visitsFrom false grammar.rules := by simp [hvisits]
  obtain ⟨hstands, -, -⟩ := (isWellShaped_rules h).of_mem_visitsFrom hvisited
  obtain ⟨hneeds, rfl, rfl, hname⟩ := Rule.needsDeclaration_of_fault? hfault
  exact ⟨hname, (Rule.isMarked_iff_of_needsDeclaration hneeds).mp (hmarked.marked rule hstands),
    rule, hstands, hneeds, rfl, rfl⟩

/-- The blank behind `from` has two bytes. -/
theorem spans_mark_source_copy :
    let source := "cp from\u00a0[<all>|[depth] ? to]*"
    let args : ArgumentSet :=
      ⟨[⟨"from", .str, none, none⟩, ⟨"depth", .int, none, none⟩], by simp⟩
    ∃ grammar, parse source defaultMaxDepth = .ok grammar ∧ AreMarked source grammar.rules ∧
      Tree.build args grammar.rules = .error (.undeclaredArgument "to" ⟨26, 28⟩) ∧
      "to" ∉ args.names ∧ Span.MarksWord source ⟨26, 28⟩ "to" := by
  intro source args
  have hfails : (parse source defaultMaxDepth).bind (fun grammar =>
      (Tree.build args grammar.rules).map fun _ => ()) =
        .error (.undeclaredArgument "to" ⟨26, 28⟩) := by decide +kernel
  have hok : (parse source defaultMaxDepth).isOk = true := by decide +kernel
  obtain ⟨grammar, hparse⟩ := exists_eq_ok_of_isOk hok
  rw [hparse] at hfails
  have hbuild := map_eq_error_iff.mp hfails
  obtain ⟨hmarked, hundeclared⟩ := spans_mark_source hparse
  obtain ⟨hname, hword, -⟩ := hundeclared args "to" ⟨26, 28⟩ hbuild
  exact ⟨grammar, hparse, hmarked, hbuild, hname, hword⟩

end Grammar

end CommandShell
