import CommandShell.Proofs.Grammar.Compiled
import CommandShell.Proofs.Grammar.Rules
import CommandShell.Proofs.Rule.Fault
import CommandShell.Proofs.Span
import CommandShell.Proofs.Tree.Building

/-!
# Where faults of a grammar lie

Every span that comes up while a grammar is read lies between characters of its text: those of the
lexemes, those that the parser puts together, and those of the rules. So the place of a fault lies
between characters, whichever step finds the fault.

## Main definitions

* `LocatesIn` — what comes of a step has a property, or the fault lies in the text
* `Rule.IsWrittenIn`, `Grammar.Progress.IsWrittenIn` — all spans lie in the text

## Main results

* `Lexeme.locatesIn_read` — lexemes, and the faults of the reader
* `Grammar.locatesIn_step`, `Grammar.locatesIn_parse` — rules, and the faults of the parser
* `Signature.liesIn_of_ofSource` — the faults of a grammar and of its names lie in the text
-/

namespace CommandShell

/-! ### Steps that locate faults -/

section LocatesIn

variable {α β : Type} {text : List Char} {x : Except GrammarError α} {q : α → Prop} {r : β → Prop}

/-- What comes of the step has the property, or else the fault lies in the text, if it is one that
has a place there. -/
def LocatesIn (text : List Char) (q : α → Prop) (x : Except GrammarError α) : Prop :=
  match x with
  | .ok a => q a
  | .error e => ∀ span, e.span? = some span → span.LiesIn text

theorem LocatesIn.bind {f : α → Except GrammarError β} (h : LocatesIn text q x)
    (hf : ∀ a, q a → LocatesIn text r (f a)) : LocatesIn text r (x.bind f) := by
  cases x with
  | ok a => exact hf a h
  | error e => exact h

theorem LocatesIn.map {f : α → β} (h : LocatesIn text q x) (hf : ∀ a, q a → r (f a)) :
    LocatesIn text r (x.map f) := by
  cases x with
  | ok a => exact hf a h
  | error e => exact h

theorem locatesIn_error {e : GrammarError} {span : Span} (he : e.span? = some span)
    (h : span.LiesIn text) : LocatesIn text q (.error e) := by
  intro other hother
  rw [he] at hother
  cases hother
  exact h

/-- A chain of steps keeps a property if each of them does. -/
theorem locatesIn_foldlM {step : α → β → Except GrammarError α} {a : α} {list : List β}
    (ha : q a) (hlist : ∀ b ∈ list, r b) (hstep : ∀ a b, q a → r b → LocatesIn text q (step a b)) :
    LocatesIn text q (list.foldlM step a) := by
  induction list generalizing a with
  | nil => exact ha
  | cons b list ih =>
    rw [List.forall_mem_cons] at hlist
    rw [List.foldlM_cons]
    exact (hstep a b ha hlist.1).bind fun next hnext => ih hnext hlist.2

end LocatesIn

/-! ### Lexemes -/

namespace Lexeme

variable {text : List Char}

/-- The name in hand began between characters of the text, and a constant did with a `<`. -/
def Pending.IsWrittenIn (text : List Char) (pos : Nat) : Pending → Prop
  | .nothing => True
  | .word start _ => start ≤ pos ∧ Text.IsBoundary start text
  | .constant start _ =>
    start ≤ pos ∧ Text.IsBoundary start text ∧ Text.IsBoundary (start + 1) text

theorem Pending.IsWrittenIn.add {pending : Pending} {pos : Nat}
    (h : pending.IsWrittenIn text pos) (hpos : Text.IsBoundary pos text) (c : Char) :
    (pending.add c pos).IsWrittenIn text (pos + c.utf8Size) := by
  cases pending with
  | nothing => exact ⟨Nat.le_add_right _ _, hpos⟩
  | word start name => exact ⟨Nat.le_add_right_of_le h.1, h.2⟩
  | constant start name => exact ⟨Nat.le_add_right_of_le h.1, h.2⟩

/-- The word in hand lies in the text. -/
theorem Pending.IsWrittenIn.liesIn_word? {pending : Pending} {pos : Nat}
    (h : pending.IsWrittenIn text pos) (hpos : Text.IsBoundary pos text) :
    ∀ lexeme ∈ (pending.word? pos).toList, lexeme.span.LiesIn text := by
  intro lexeme hmem
  cases pending with
  | word start name =>
    cases List.mem_singleton.mp hmem
    exact ⟨h.1, h.2, hpos⟩
  | _ => cases hmem

/-- The lexemes of a text lie in it, and so does the first character at fault. -/
theorem locatesIn_readFrom {pending : Pending} {pos : Nat} {before cs : List Char}
    (htext : text = before ++ cs) (hpos : pos = Text.byteLength before)
    (h : pending.IsWrittenIn text pos) :
    LocatesIn text (fun lexemes => ∀ lexeme ∈ lexemes, lexeme.span.LiesIn text)
      (readFrom pending pos cs) := by
  have hstart : Text.IsBoundary pos text := by
    rw [htext, hpos]
    exact Text.isBoundary_append before cs
  -- The induction is on the characters to come; `before` grows by those that have been read.
  induction cs generalizing pending pos before with
  | nil =>
    cases pending with
    | constant start name => exact locatesIn_error rfl ⟨Nat.le_add_right _ _, h.2.1, h.2.2⟩
    | nothing => exact h.liesIn_word? hstart
    | word start name => exact h.liesIn_word? hstart
  | cons c cs ih =>
    have htext' : text = (before ++ [c]) ++ cs := by rw [htext, List.append_cons]
    have hpos' : pos + c.utf8Size = Text.byteLength (before ++ [c]) := by
      rw [hpos, Text.byteLength_append]
      rfl
    have hstop : Text.IsBoundary (pos + c.utf8Size) text := by
      rw [htext', hpos']
      exact Text.isBoundary_append _ _
    have hspan : Span.LiesIn ⟨pos, pos + c.utf8Size⟩ text := ⟨Nat.le_add_right _ _, hstart, hstop⟩
    have hrest {pending : Pending} (h : pending.IsWrittenIn text (pos + c.utf8Size)) :=
      ih htext' hpos' h hstop
    have hnothing : Pending.nothing.IsWrittenIn text (pos + c.utf8Size) := trivial
    rw [readFrom.eq_def]
    dsimp only
    split
    · exact hrest (h.add hstart c)
    · split
      · rename_i start name
        split
        · refine (hrest hnothing).map fun lexemes hlexemes => ?_
          exact List.forall_mem_cons.mpr ⟨⟨Nat.le_add_right_of_le h.1, h.2.1, hstop⟩, hlexemes⟩
        · exact locatesIn_error rfl ⟨Nat.le_add_right _ _, h.2.1, h.2.2⟩
      all_goals
        refine LocatesIn.map ?_ fun lexemes hlexemes =>
          List.forall_mem_append.mpr ⟨h.liesIn_word? hstart, hlexemes⟩
        split
        · exact (hrest hnothing).map fun lexemes hlexemes =>
            List.forall_mem_cons.mpr ⟨hspan, hlexemes⟩
        · split
          · exact hrest hnothing
          · split
            · rename_i hopen
              exact hrest ⟨Nat.le_add_right _ _, hstart, by rwa [hopen] at hstop⟩
            · exact locatesIn_error rfl hspan

theorem locatesIn_read (source : String) :
    LocatesIn source.toList (fun lexemes => ∀ lexeme ∈ lexemes, lexeme.span.LiesIn source.toList)
      (read source) :=
  locatesIn_readFrom (List.nil_append _).symm rfl trivial

end Lexeme

/-! ### Rules -/

namespace Rule

variable {text : List Char} {rule : Rule} {rules : List Rule} {span : Span}

/-- The rule lies in the text, and so do all rules that stand in it. -/
def IsWrittenIn (text : List Char) (rule : Rule) : Prop :=
  rule.span.LiesIn text ∧ ∀ sub, rule.Holds sub → sub.span.LiesIn text

theorem isWrittenIn_of_not_isFilledGroup (h : rule.isFilledGroup = false)
    (hspan : rule.span.LiesIn text) : rule.IsWrittenIn text :=
  ⟨hspan, fun _ hholds => absurd hholds (not_holds_of_not_isFilledGroup h)⟩

theorem isWrittenIn_group (op : GroupOp) (position : Nat) (hspan : span.LiesIn text)
    (hrules : ∀ rule ∈ rules, rule.IsWrittenIn text) :
    (Rule.nest (.group op) position rules span).IsWrittenIn text := by
  refine ⟨hspan, fun sub hholds => ?_⟩
  rcases holds_group_iff.mp hholds with hmem | ⟨inner, hmem, hinner⟩
  · exact (hrules sub hmem).1
  · exact (hrules inner hmem).2 sub hinner

/-- What stands in rules that are written in the text lies in it. -/
theorem StandsIn.liesIn (h : rule.StandsIn rules) (hrules : ∀ rule ∈ rules, rule.IsWrittenIn text) :
    rule.span.LiesIn text := by
  rcases h with hmem | ⟨group, hmem, hholds⟩
  · exact (hrules rule hmem).1
  · exact (hrules group hmem).2 rule hholds

end Rule

namespace Grammar

variable {text : List Char} {limit stop : Nat} {span separator : Span} {items : List Item}
  {frames : List Frame} {progress : Progress} {lexeme : Lexeme} {lexemes : List Lexeme}

/-- The item of a bracket lies in the text, with all rules that it holds. -/
def Item.IsWrittenIn (text : List Char) : Item → Prop
  | .word _ span | .constant _ span | .bar span => span.LiesIn text
  | .group _ rules span => span.LiesIn text ∧ ∀ rule ∈ rules, rule.IsWrittenIn text

/-- The bracket and its items lie in the text. -/
structure Frame.IsWrittenIn (text : List Char) (frame : Frame) : Prop where
  opened : frame.opened.LiesIn text
  items : ∀ item ∈ frame.items, item.IsWrittenIn text

theorem Frame.IsWrittenIn.add {frame : Frame} {item : Item} (h : frame.IsWrittenIn text)
    (hitem : item.IsWrittenIn text) : (frame.add item).IsWrittenIn text :=
  ⟨h.opened, List.forall_mem_cons.mpr ⟨hitem, h.items⟩⟩

/-- The brackets that are open lie in the text. -/
def Place.IsWrittenIn (text : List Char) : Place → Prop
  | .outside => True
  | .inside frame outer => ∀ bracket ∈ frame :: outer, bracket.IsWrittenIn text
  | .closed frame outer closing =>
    (∀ bracket ∈ frame :: outer, bracket.IsWrittenIn text) ∧ closing.LiesIn text

/-- The rules that have been read and the brackets that are open lie in the text. -/
structure Progress.IsWrittenIn (text : List Char) (progress : Progress) : Prop where
  rules : ∀ rule ∈ progress.rules, rule.IsWrittenIn text
  place : progress.place.IsWrittenIn text

/-! ### The parser -/

/-- The rules of a bracket lie where its items do, and an alternative without items lies behind what
it is separated by. -/
theorem locatesIn_arrange (op : GroupOp) (position : Nat) (hseparator : separator.LiesIn text)
    (hitems : ∀ item ∈ items, item.IsWrittenIn text) :
    LocatesIn text (fun rules => ∀ rule ∈ rules, rule.IsWrittenIn text)
      (arrange op position separator items) := by
  induction items generalizing position separator with
  | nil =>
    rw [arrange]
    split
    · exact locatesIn_error rfl hseparator
    · exact fun rule hmem => absurd hmem List.not_mem_nil
  | cons item items ih =>
    rw [List.forall_mem_cons] at hitems
    obtain ⟨hitem, hitems⟩ := hitems
    cases item with
    | bar span =>
      rw [arrange]
      split
      · exact locatesIn_error rfl hitem
      · exact ih _ hitem hitems
    | word name span =>
      exact (ih _ hseparator hitems).map fun rules hrules => List.forall_mem_cons.mpr
        ⟨Rule.isWrittenIn_of_not_isFilledGroup rfl hitem, hrules⟩
    | constant name span =>
      exact (ih _ hseparator hitems).map fun rules hrules => List.forall_mem_cons.mpr
        ⟨Rule.isWrittenIn_of_not_isFilledGroup rfl hitem, hrules⟩
    | group inner rules span =>
      exact (ih _ hseparator hitems).map fun others hothers => List.forall_mem_cons.mpr
        ⟨Rule.isWrittenIn_group inner _ hitem.1 hitem.2, hothers⟩

theorem locatesIn_openBracket (limit : Nat) (hframes : ∀ frame ∈ frames, frame.IsWrittenIn text)
    (hspan : span.LiesIn text) :
    LocatesIn text (Place.IsWrittenIn text) (openBracket limit frames span) := by
  rw [openBracket]
  split
  · exact locatesIn_error rfl hspan
  · have hframe : Frame.IsWrittenIn text ⟨span, []⟩ :=
      ⟨hspan, fun _ hmem => absurd hmem List.not_mem_nil⟩
    exact List.forall_mem_cons.mpr ⟨hframe, hframes⟩

/-- A lexeme that lies in the text keeps the progress there, or the fault lies there. -/
theorem locatesIn_step (limit : Nat) (h : progress.IsWrittenIn text)
    (hlexeme : lexeme.span.LiesIn text) :
    LocatesIn text (Progress.IsWrittenIn text) (step limit progress lexeme) := by
  obtain ⟨rules, place⟩ := progress
  obtain ⟨kind, span⟩ := lexeme
  obtain ⟨hrules, hplace⟩ := h
  cases place with
  | outside =>
    cases kind with
    | opening =>
      exact (locatesIn_openBracket limit (fun _ hmem => absurd hmem List.not_mem_nil) hlexeme).map
        fun place hplace => ⟨hrules, hplace⟩
    | _ => exact locatesIn_error rfl hlexeme
  | inside frame outer =>
    have hadd (item : Item) (hitem : item.IsWrittenIn text) :
        Progress.IsWrittenIn text ⟨rules, .inside (frame.add item) outer⟩ := by
      obtain ⟨hframe, houter⟩ := List.forall_mem_cons.mp hplace
      exact ⟨hrules, List.forall_mem_cons.mpr ⟨hframe.add hitem, houter⟩⟩
    cases kind with
    | opening =>
      exact (locatesIn_openBracket limit hplace hlexeme).map fun place hplace => ⟨hrules, hplace⟩
    | closing => exact ⟨hrules, hplace, hlexeme⟩
    | word name => exact hadd (.word name span) hlexeme
    | constant name => exact hadd (.constant name span) hlexeme
    | bar => exact hadd (.bar span) hlexeme
    | operator op => exact locatesIn_error rfl hlexeme
  | closed frame outer closing =>
    obtain ⟨hframes, hclosing⟩ := hplace
    obtain ⟨hframe, houter⟩ := List.forall_mem_cons.mp hframes
    cases kind with
    | operator op =>
      have hitems : ∀ item ∈ frame.items.reverse, item.IsWrittenIn text :=
        fun item hmem => hframe.items item (List.mem_reverse.mp hmem)
      have hwhole : (frame.opened.join span).LiesIn text := hframe.opened.join hlexeme
      refine (locatesIn_arrange op 0 hframe.opened hitems).map fun inner hinner => ?_
      cases outer with
      | nil =>
        have hgroup := Rule.isWrittenIn_group op rules.length hwhole hinner
        exact ⟨List.forall_mem_cons.mpr ⟨hgroup, hrules⟩, trivial⟩
      | cons parent outer =>
        obtain ⟨hparent, houter⟩ := List.forall_mem_cons.mp houter
        exact ⟨hrules, List.forall_mem_cons.mpr ⟨hparent.add ⟨hwhole, hinner⟩, houter⟩⟩
    | _ =>
      exact locatesIn_error rfl (Span.liesIn_point hclosing.stop)

theorem locatesIn_finish (h : progress.IsWrittenIn text) (hstop : Text.IsBoundary stop text) :
    LocatesIn text (fun rules => ∀ rule ∈ rules, rule.IsWrittenIn text) (progress.finish stop) := by
  obtain ⟨rules, place⟩ := progress
  obtain ⟨hrules, hplace⟩ := h
  cases place with
  | outside =>
    intro rule hmem
    rcases List.mem_cons.mp (List.mem_reverse.mp hmem) with rfl | hmem
    · exact Rule.isWrittenIn_of_not_isFilledGroup rfl (Span.liesIn_point hstop)
    · exact hrules rule hmem
  | inside frame outer => exact locatesIn_error rfl (List.forall_mem_cons.mp hplace).1.opened
  | closed frame outer closing => exact locatesIn_error rfl (Span.liesIn_point hplace.2.stop)

/-- Positional arguments lie where their lexemes do. -/
theorem isWrittenIn_positionals (position : Nat)
    (h : ∀ lexeme ∈ lexemes, lexeme.span.LiesIn text) :
    (∀ rule ∈ (positionals position lexemes).1, rule.IsWrittenIn text) ∧
      ∀ lexeme ∈ (positionals position lexemes).2, lexeme.span.LiesIn text := by
  induction lexemes generalizing position with
  | nil => exact ⟨fun _ hmem => absurd hmem List.not_mem_nil, h⟩
  | cons lexeme lexemes ih =>
    obtain ⟨hlexeme, hlexemes⟩ := List.forall_mem_cons.mp h
    obtain ⟨hrules, hrest⟩ := ih (position + 1) hlexemes
    rw [positionals]
    split
    · exact ⟨List.forall_mem_cons.mpr
        ⟨Rule.isWrittenIn_of_not_isFilledGroup rfl hlexeme, hrules⟩, hrest⟩
    · exact ⟨List.forall_mem_cons.mpr
        ⟨Rule.isWrittenIn_of_not_isFilledGroup rfl hlexeme, hrules⟩, hrest⟩
    all_goals exact ⟨fun _ hmem => absurd hmem List.not_mem_nil, h⟩

theorem locatesIn_rulesOf (limit : Nat) (hstop : Text.IsBoundary stop text)
    (h : ∀ lexeme ∈ lexemes, lexeme.span.LiesIn text) :
    LocatesIn text (fun rules => ∀ rule ∈ rules, rule.IsWrittenIn text)
      (rulesOf limit stop lexemes) := by
  obtain ⟨hrules, hrest⟩ := isWrittenIn_positionals 0 h
  have hstart : Progress.IsWrittenIn text ⟨(positionals 0 lexemes).1.reverse, .outside⟩ :=
    ⟨fun rule hmem => hrules rule (List.mem_reverse.mp hmem), trivial⟩
  exact (locatesIn_foldlM hstart hrest fun _ _ hprogress hlexeme =>
    locatesIn_step limit hprogress hlexeme).bind fun _ hprogress => locatesIn_finish hprogress hstop

/-- The rules of a grammar lie in its text, and so does what the parser finds at fault. -/
theorem locatesIn_parse (source : String) (limit : Nat) :
    LocatesIn source.toList (fun grammar => ∀ rule ∈ grammar.rules, rule.IsWrittenIn source.toList)
      (parse source limit) := by
  have hstop : Text.IsBoundary (Text.byteLength source.toList) source.toList :=
    Text.isBoundary_end _
  refine (Lexeme.locatesIn_read source).bind fun lexemes hlexemes => ?_
  have hrules : LocatesIn source.toList
      (fun found => ∀ rule ∈ found.2, rule.IsWrittenIn source.toList)
      (ofLexemes limit (Text.byteLength source.toList) lexemes) := by
    cases lexemes with
    | nil => exact locatesIn_error rfl (Span.liesIn_point hstop)
    | cons lexeme lexemes =>
      obtain ⟨hlexeme, hlexemes⟩ := List.forall_mem_cons.mp hlexemes
      rw [ofLexemes]
      split
      · exact (locatesIn_rulesOf limit hstop hlexemes).map fun rules hrules => hrules
      · exact locatesIn_error rfl hlexeme
  exact hrules.map fun found hfound => hfound

end Grammar

/-! ### Names -/

namespace Signature

variable {source : String} {args : ArgumentSet} {limit : Nat} {e : GrammarError} {span : Span}

/-- What is at fault with a grammar lies in its text, also if it is a name that no argument has. -/
theorem liesIn_of_ofSource (h : ofSource source args limit = .error e)
    (hspan : e.span? = some span) : span.LiesIn source.toList := by
  have hparse := Grammar.locatesIn_parse source limit
  rcases bind_eq_error_iff.mp h with hfault | ⟨grammar, hgrammar, hbuild⟩
  · rw [hfault] at hparse
    exact hparse span hspan
  · -- A name that no argument has is that of a rule, which lies in the text.
    rw [hgrammar] at hparse
    have hfault := Tree.reports_build.eq_error_iff.mp (ofGrammar_eq_error_iff.mp hbuild)
    obtain ⟨rule, hstands, -, rfl⟩ :=
      (Grammar.isWellShaped_rules hgrammar).exists_undeclared hfault
    cases hspan
    exact hstands.liesIn hparse

end Signature

end CommandShell
