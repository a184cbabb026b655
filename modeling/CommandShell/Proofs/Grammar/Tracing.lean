import CommandShell.Proofs.Grammar.Brackets
import CommandShell.Rule.Fault

/-!
# The lexemes that rules are read from

The rules of a grammar are read from its lexemes in order, and the span of a rule is made up from
those of the lexemes it is read from. A word or a constant has the span of its lexeme. A group has
the span from its bracket to its operator, and its rules are read from what stands between.

## Main definitions

* `Rule.ReadFrom` — the lexemes that rules are read from, with the spans that come of them
* `Grammar.Item.ReadFrom`, `Grammar.Gathers` — the same of the items of a bracket
* `Grammar.Unclosed`, `Grammar.Progress.ReadFrom` — the same where the parser stands

## Main results

* `Grammar.Progress.ReadFrom.step`, `Grammar.Progress.ReadFrom.run` — no lexeme is lost on the way
* `Grammar.exists_readFrom_of_parse` — the rules of a grammar are read from all its lexemes
-/

namespace CommandShell

/-! ### Rules -/

/-- The rules are read from the lexemes, one after the other, and each has the span of the lexemes
that it is read from. Bars belong to no rule. -/
inductive Rule.ReadFrom : List Rule → List Lexeme → Prop
  | nil : ReadFrom [] []
  | bar {rules : List Rule} {lexemes : List Lexeme} (span : Span) (h : ReadFrom rules lexemes) :
    ReadFrom rules (⟨.bar, span⟩ :: lexemes)
  | word {kind : RuleKind} {position : Nat} {name : String} {span : Span} {rules : List Rule}
    {lexemes : List Lexeme} (hkind : (Rule.leaf kind position name span).needsDeclaration = true)
    (h : ReadFrom rules lexemes) :
    ReadFrom (.leaf kind position name span :: rules) (⟨.word name, span⟩ :: lexemes)
  | constant {rules : List Rule} {lexemes : List Lexeme} (position : Nat) (name : String)
    (span : Span) (h : ReadFrom rules lexemes) :
    ReadFrom (.leaf .constant position name span :: rules) (⟨.constant name, span⟩ :: lexemes)
  | group {op : GroupOp} {inner rules : List Rule} {body lexemes : List Lexeme} (position : Nat)
    (opening closing operator : Span) (hinner : ReadFrom inner body)
    (h : ReadFrom rules lexemes) :
    ReadFrom (.nest (.group op) position inner (opening.join operator) :: rules)
      (⟨.opening, opening⟩ ::
        (body ++ ⟨.closing, closing⟩ :: ⟨.operator op, operator⟩ :: lexemes))

theorem Rule.ReadFrom.append {rules others : List Rule} {lexemes more : List Lexeme}
    (h : ReadFrom rules lexemes) (hothers : ReadFrom others more) :
    ReadFrom (rules ++ others) (lexemes ++ more) := by
  induction h with
  | nil => exact hothers
  | bar span _ ih => exact .bar span ih
  | word hkind _ ih => exact .word hkind ih
  | constant position name span _ ih => exact .constant position name span ih
  | group position opening closing operator hinner _ _ ih =>
    simpa using Rule.ReadFrom.group position opening closing operator hinner ih

namespace Grammar

variable {limit stop position : Nat} {op : GroupOp} {item : Item} {items : List Item}
  {inner all : List Rule} {whole separator : Span} {frame : Frame} {outer frames : List Frame}
  {lexeme : Lexeme} {own lexemes more : List Lexeme}
  {progress progress' : Progress} {source : String} {grammar : Grammar}

/-! ### The items of a bracket -/

/-- The item of a bracket is read from the lexemes. -/
inductive Item.ReadFrom : Item → List Lexeme → Prop
  | single {item : Item} {lexeme : Lexeme} (h : item.WrittenAs lexeme) : ReadFrom item [lexeme]
  | group {op : GroupOp} {rules : List Rule} {body : List Lexeme}
    (opening closing operator : Span) (h : Rule.ReadFrom rules body) :
    ReadFrom (.group op rules (opening.join operator))
      (⟨.opening, opening⟩ :: (body ++ [⟨.closing, closing⟩, ⟨.operator op, operator⟩]))

/-- The items of a bracket, last first, are read from the lexemes, first to last. -/
inductive Gathers : List Item → List Lexeme → Prop
  | empty : Gathers [] []
  | item {items : List Item} {item : Item} {lexemes own : List Lexeme}
    (h : Gathers items lexemes) (hitem : item.ReadFrom own) :
    Gathers (item :: items) (lexemes ++ own)

/-- The words of a group are looked up by their names, whatever its operator. -/
theorem needsDeclaration_memberKind (op : GroupOp) (position : Nat) (name : String) (span : Span) :
    (Rule.leaf op.memberKind position name span).needsDeclaration = true := by
  cases op <;> rfl

/-- A group is a rule by itself, wherever it stands. -/
theorem Item.ReadFrom.rule (h : (Item.group op inner whole).ReadFrom own) (position : Nat) :
    Rule.ReadFrom [.nest (.group op) position inner whole] own := by
  cases h with
  | single h => cases h
  | group opening closing operator h =>
    exact .group position opening closing operator h .nil

/-- What an item is read from, its rule is read from, in front of the rules after it; a bar has no
rule. -/
theorem exists_arrange_item (hitem : item.ReadFrom own)
    (h : arrange op position separator (item :: items) = .ok all) :
    ∃ rules position' separator' rest, Rule.ReadFrom rules own ∧
      arrange op position' separator' items = .ok rest ∧ all = rules ++ rest := by
  cases item with
  | bar span =>
    rw [arrange] at h
    split at h
    · cases h
    · cases hitem with
      | single hwritten =>
        cases hwritten
        exact ⟨[], 0, span, all, .bar span .nil, h, rfl⟩
  | word name span =>
    obtain ⟨rest, hrest, rfl⟩ := map_eq_ok_iff.mp h
    cases hitem with
    | single hwritten =>
      cases hwritten
      exact ⟨[_], _, _, rest, .word (needsDeclaration_memberKind op _ _ _) .nil, hrest, rfl⟩
  | constant name span =>
    obtain ⟨rest, hrest, rfl⟩ := map_eq_ok_iff.mp h
    cases hitem with
    | single hwritten =>
      cases hwritten
      exact ⟨[_], _, _, rest, .constant _ _ _ .nil, hrest, rfl⟩
  | group inner rules span =>
    obtain ⟨rest, hrest, rfl⟩ := map_eq_ok_iff.mp h
    exact ⟨[_], _, _, rest, hitem.rule _, hrest, rfl⟩

theorem Gathers.exists_arrange {rest : List Item} (hitems : Gathers items lexemes)
    (h : arrange op position separator (items.reverse ++ rest) = .ok all) :
    ∃ rules position' separator' others, Rule.ReadFrom rules lexemes ∧
      arrange op position' separator' rest = .ok others ∧ all = rules ++ others := by
  -- The items of a bracket come last first, so each is arranged in front of those before it.
  induction hitems generalizing rest all with
  | empty => exact ⟨[], position, separator, all, .nil, h, rfl⟩
  | item _ hitem ih =>
    rw [List.reverse_cons, List.append_assoc, List.singleton_append] at h
    obtain ⟨rules, _, _, mid, hrules, hmid, rfl⟩ := ih h
    obtain ⟨others, position', separator', last, hothers, hlast, rfl⟩ :=
      exists_arrange_item hitem hmid
    exact ⟨rules ++ others, position', separator', last, hrules.append hothers, hlast,
      (List.append_assoc _ _ _).symm⟩

/-- The rules of a bracket are read from what its items are read from. -/
theorem Gathers.readFrom (hitems : Gathers items lexemes)
    (h : arrange op position separator items.reverse = .ok all) : Rule.ReadFrom all lexemes := by
  rw [← List.append_nil items.reverse] at h
  obtain ⟨rules, position', separator', others, hrules, hothers, rfl⟩ := hitems.exists_arrange h
  rw [arrange] at hothers
  split at hothers
  · cases hothers
  · cases hothers
    rwa [List.append_nil]

/-! ### Brackets that are open -/

/-- The brackets that are open, innermost first, and the lexemes that have been read since the
outermost of them was opened. -/
inductive Unclosed : List Frame → List Lexeme → Prop
  | none : Unclosed [] []
  | bracket {frame : Frame} {outer : List Frame} {before lexemes : List Lexeme}
    (houter : Unclosed outer before) (hitems : Gathers frame.items lexemes) :
    Unclosed (frame :: outer) (before ++ ⟨.opening, frame.opened⟩ :: lexemes)

namespace Unclosed

theorem opening (h : Unclosed frames lexemes) (span : Span) :
    Unclosed (⟨span, []⟩ :: frames) (lexemes ++ [⟨.opening, span⟩]) :=
  @bracket ⟨span, []⟩ frames lexemes [] h .empty

theorem add (h : Unclosed (frame :: outer) lexemes) (hitem : item.ReadFrom own) :
    Unclosed (frame.add item :: outer) (lexemes ++ own) := by
  cases h with
  | bracket houter hitems =>
    rw [List.append_assoc, List.cons_append]
    exact @bracket (frame.add item) _ _ _ houter (hitems.item hitem)

/-- Once its operator has been read, a bracket is a group that is read from all lexemes since it was
opened. -/
theorem close (h : Unclosed (frame :: outer) lexemes) (closing operator : Span)
    (harrange : arrange op position separator frame.items.reverse = .ok inner) :
    ∃ before own, Unclosed outer before ∧
      lexemes ++ [⟨.closing, closing⟩, ⟨.operator op, operator⟩] = before ++ own ∧
      (Item.group op inner (frame.opened.join operator)).ReadFrom own := by
  cases h with
  | bracket houter hitems =>
    exact ⟨_, _, houter, by rw [List.append_assoc, List.cons_append],
      .group _ closing operator (hitems.readFrom harrange)⟩

end Unclosed

/-! ### Where the parser stands -/

/-- The brackets that are open at a place, innermost first. -/
def Place.brackets : Place → List Frame
  | .outside => []
  | .inside frame outer | .closed frame outer _ => frame :: outer

/-- The second half of the innermost bracket, if it has been read. -/
def Place.closing : Place → List Lexeme
  | .outside | .inside .. => []
  | .closed _ _ closing => [⟨.closing, closing⟩]

theorem Place.brackets_within (frames : List Frame) : (Place.within frames).brackets = frames := by
  cases frames <;> rfl

theorem Place.closing_within (frames : List Frame) : (Place.within frames).closing = [] := by
  cases frames <;> rfl

/-- The lexemes are those that the rules so far are read from, and behind them those that have been
read since the outermost open bracket was opened. -/
def Progress.ReadFrom (progress : Progress) (lexemes : List Lexeme) : Prop :=
  ∃ front rest, Rule.ReadFrom progress.rules.reverse front ∧ Unclosed progress.place.brackets rest ∧
    lexemes = front ++ (rest ++ progress.place.closing)

/-- No lexeme that the parser gets past is lost. -/
theorem Progress.ReadFrom.step (h : progress.ReadFrom lexemes)
    (hstep : Grammar.step limit progress lexeme = .ok progress') :
    progress'.ReadFrom (lexemes ++ [lexeme]) := by
  obtain ⟨front, rest, hfront, hrest, rfl⟩ := h
  cases step_eq_ok_iff.mp hstep with
  | opening rules span hroom =>
    rw [Place.brackets_within] at hrest
    refine ⟨front, _, hfront, hrest.opening span, ?_⟩
    rw [Place.closing_within, List.append_nil, List.append_assoc]
    simp [Place.closing]
  | item rules frame outer hitem =>
    refine ⟨front, _, hfront, hrest.add (.single hitem), ?_⟩
    simp [Place.closing]
  | closing rules frame outer span =>
    refine ⟨front, rest, hfront, hrest, ?_⟩
    simp [Place.closing]
  | @operator rules frame outer closing span op inner harrange =>
    obtain ⟨before, own, hbefore, heq, hown⟩ := hrest.close closing span harrange
    have hlexemes : front ++ (rest ++ [⟨.closing, closing⟩]) ++ [⟨.operator op, span⟩] =
        front ++ (before ++ own) := by
      rw [← heq]
      simp
    rw [Place.closing, hlexemes]
    cases outer with
    | nil =>
      cases hbefore
      refine ⟨front ++ own, [], ?_, .none, by simp [grouped, Place.closing]⟩
      rw [grouped, List.reverse_cons]
      exact hfront.append (hown.rule _)
    | cons parent outer =>
      exact ⟨front, before ++ own, hfront, hbefore.add hown, by simp [grouped, Place.closing]⟩

theorem Progress.ReadFrom.run (h : progress.ReadFrom lexemes)
    (hrun : more.foldlM (Grammar.step limit) progress = .ok progress') :
    progress'.ReadFrom (lexemes ++ more) := by
  induction more generalizing progress lexemes with
  | nil =>
    cases hrun
    rwa [List.append_nil]
  | cons lexeme more ih =>
    rw [List.foldlM_cons] at hrun
    obtain ⟨next, hstep, hrun⟩ := bind_eq_ok_iff.mp hrun
    rw [List.append_cons]
    exact ih (h.step hstep) hrun

/-! ### Whole grammars -/

/-- Positional arguments are read from the lexemes at the front. -/
theorem exists_readFrom_positionals (position : Nat) (lexemes : List Lexeme) :
    ∃ front, Rule.ReadFrom (positionals position lexemes).1 front ∧
      lexemes = front ++ (positionals position lexemes).2 := by
  induction lexemes generalizing position with
  | nil => exact ⟨[], .nil, rfl⟩
  | cons lexeme lexemes ih =>
    obtain ⟨front, hfront, heq⟩ := ih (position + 1)
    obtain ⟨kind, span⟩ := lexeme
    cases kind with
    | word name => exact ⟨⟨.word name, span⟩ :: front, .word rfl hfront, congrArg _ heq⟩
    | constant name =>
      exact ⟨⟨.constant name, span⟩ :: front, .constant _ _ _ hfront, congrArg _ heq⟩
    | _ => exact ⟨[], .nil, rfl⟩

/-- Rules are read from all lexemes behind the command name, and the end rule stands at the end of
the text. -/
theorem exists_readFrom_of_rulesOf (h : rulesOf limit stop lexemes = .ok all) :
    ∃ rules, Rule.ReadFrom rules lexemes ∧
      all = rules ++ [.finish rules.length (.point stop)] := by
  obtain ⟨front, hfront, heq⟩ := exists_readFrom_positionals 0 lexemes
  obtain ⟨progress, hrun, hfinish⟩ := bind_eq_ok_iff'.mp h
  have hstart : Progress.ReadFrom ⟨(positionals 0 lexemes).1.reverse, .outside⟩ front :=
    ⟨front, [], by rwa [List.reverse_reverse], .none, (List.append_nil _).symm⟩
  obtain ⟨read, rest, hread, hrest, hlexemes⟩ := hstart.run hrun
  obtain ⟨rules, place⟩ := progress
  cases place with
  | outside =>
    cases hfinish
    cases hrest
    refine ⟨rules.reverse, ?_, by rw [List.reverse_cons, List.length_reverse]⟩
    rw [← heq] at hlexemes
    rw [hlexemes]
    simpa [Place.closing] using hread
  | inside frame outer => cases hfinish
  | closed frame outer closing => cases hfinish

/-- The rules of a grammar that is parsed are read from all its lexemes but the command name, and
the end rule stands at the end of the text. -/
theorem exists_readFrom_of_parse (h : parse source limit = .ok grammar) :
    ∃ span lexemes rules, Lexeme.read source = .ok (⟨.word grammar.command, span⟩ :: lexemes) ∧
      Rule.ReadFrom rules lexemes ∧
      grammar.rules =
        rules ++ [.finish rules.length (.point (Text.byteLength source.toList))] := by
  obtain ⟨read, hread, h⟩ := bind_eq_ok_iff'.mp h
  obtain ⟨⟨command, all⟩, hall, rfl⟩ := map_eq_ok_iff.mp h
  cases read with
  | nil => cases hall
  | cons lexeme lexemes =>
    obtain ⟨kind, span⟩ := lexeme
    cases kind with
    | word name =>
      obtain ⟨found, hfound, heq⟩ := map_eq_ok_iff.mp hall
      cases heq
      obtain ⟨rules, hrules, rfl⟩ := exists_readFrom_of_rulesOf hfound
      exact ⟨span, lexemes, rules, hread, hrules, rfl⟩
    | _ => cases hall

end Grammar

end CommandShell
