import CommandShell.Proofs.Grammar.Limit
import CommandShell.Proofs.Grammar.Notation

/-!
# Brackets nested too deep

What a limit on the nesting of brackets changes about parsing a text. It changes nothing, unless the
text opens a bracket where as many are open as may be and nothing before that bracket is at fault.
The first such bracket is then the fault.

## Main definitions

* `Grammar.openBehind` — how many brackets a text leaves open
* `Grammar.OpensBehind` — a bracket that is opened before anything is at fault
* `Grammar.FirstTooDeep` — the first bracket that lies deeper than a limit

## Main results

* `Grammar.parse_of_firstTooDeep` — the first bracket that lies too deep is the fault
* `Grammar.exists_firstTooDeep_or` — there is such a bracket, or a limit changes nothing
* `Grammar.exists_firstTooDeep_iff` — a grammar has such a bracket if its brackets nest too deep
* `Grammar.parse_under_limit` — parsing under a limit and without one
-/

namespace CommandShell.Grammar

variable {limit : Nat} {source name : String} {before earlier after : List Char}
  {lexeme command : Lexeme} {front back lexemes args : List Lexeme} {progress mid : Progress}
  {grammar : Grammar}

/-! ### Texts and their brackets -/

/-- How many brackets are open behind a text: those that it opens and does not close. -/
def openBehind (before : List Char) : Nat := before.count '[' - before.count ']'

/-- Where a bracket is written that comes right behind a text. -/
def bracketBehind (before : List Char) : Span :=
  ⟨Text.byteLength before, Text.byteLength before + 1⟩

/-- The source opens a bracket behind `before`, and nothing is at fault up to there: the characters
of the source make up lexemes, and cut off behind the bracket, it only lacks what closes it. -/
structure OpensBehind (source : String) (before : List Char) : Prop where
  readable : ∃ lexemes, Lexeme.read source = .ok lexemes
  begins : before ++ ['['] <+: source.toList
  unclosed : parse (.ofList (before ++ ['['])) 0 = .error (.unclosedBracket (bracketBehind before))

/-- The bracket that the source opens behind `before` is the first that lies deeper than the
limit. -/
structure FirstTooDeep (limit : Nat) (source : String) (before : List Char) : Prop where
  opens : OpensBehind source before
  full : openBehind before = limit
  first : ∀ earlier, earlier ++ ['['] <+: source.toList → earlier.length < before.length →
    openBehind earlier < limit

/-! ### Reading up to a bracket -/

/-- How far the parser gets with the lexemes behind the command name. -/
def progressOf (limit : Nat) (args : List Lexeme) : Except GrammarError Progress :=
  (positionals 0 args).2.foldlM (step limit) ⟨(positionals 0 args).1.reverse, .outside⟩

theorem positionals_append_opening (hkind : lexeme.kind = .opening) (position : Nat)
    (front back : List Lexeme) :
    positionals position (front ++ lexeme :: back) =
      ((positionals position front).1, (positionals position front).2 ++ lexeme :: back) := by
  induction front generalizing position with
  | nil => simp only [List.nil_append, positionals, hkind]
  | cons first front ih =>
    rw [List.cons_append, positionals, positionals]
    split <;> simp only [ih, List.cons_append]

/-- Positional arguments are read from the front. -/
theorem positionals_suffix (position : Nat) (lexemes : List Lexeme) :
    (positionals position lexemes).2 <:+ lexemes := by
  induction lexemes generalizing position with
  | nil => exact List.suffix_rfl
  | cons lexeme lexemes ih =>
    rw [positionals]
    split
    · exact (ih _).trans (List.suffix_cons _ _)
    · exact (ih _).trans (List.suffix_cons _ _)
    all_goals exact List.suffix_rfl

/-- No positional argument is a bracket. -/
theorem count_positionals {kind : Lexeme.Kind} (hkind : kind = .opening ∨ kind = .closing)
    (position : Nat) (lexemes : List Lexeme) :
    ((positionals position lexemes).2.map Lexeme.kind).count kind =
      (lexemes.map Lexeme.kind).count kind := by
  induction lexemes generalizing position with
  | nil => rfl
  | cons lexeme lexemes ih =>
    rw [positionals]
    split
    · rename_i hword
      rw [ih, List.map_cons, hword, List.count_cons_of_ne]
      rcases hkind with rfl | rfl <;> simp
    · rename_i hconstant
      rw [ih, List.map_cons, hconstant, List.count_cons_of_ne]
      rcases hkind with rfl | rfl <;> simp
    all_goals rfl

theorem progressOf_append_opening (hkind : lexeme.kind = .opening) (limit : Nat)
    (front back : List Lexeme) :
    progressOf limit (front ++ lexeme :: back) =
      progressOf limit front >>= (lexeme :: back).foldlM (step limit) := by
  rw [progressOf, positionals_append_opening hkind, List.foldlM_append, progressOf]

/-- Past a bracket, the parser has come to it, opened it, and gone on. -/
theorem progressOf_append_opening_eq_ok_iff (hkind : lexeme.kind = .opening) :
    progressOf limit (front ++ lexeme :: back) = .ok progress ↔
      ∃ mid next, progressOf limit front = .ok mid ∧ step limit mid lexeme = .ok next ∧
        back.foldlM (step limit) next = .ok progress := by
  rw [progressOf_append_opening hkind, bind_eq_ok_iff]
  simp only [List.foldlM_cons, bind_eq_ok_iff]
  constructor
  · rintro ⟨mid, hmid, next, hnext, hback⟩
    exact ⟨mid, next, hmid, hnext, hback⟩
  · rintro ⟨mid, next, hmid, hnext, hback⟩
    exact ⟨mid, hmid, next, hnext, hback⟩

/-- Behind a command name, the grammar depends on how far the parser gets. -/
theorem parse_of_read (hread : Lexeme.read source = .ok (command :: args))
    (hword : command.kind = .word name) (limit : Nat) :
    parse source limit =
      ((progressOf limit args).bind (·.finish (Text.byteLength source.toList))).map
        fun rules => ⟨name, rules, source⟩ := by
  have hlexemes : ofLexemes limit (Text.byteLength source.toList) (command :: args) =
      (rulesOf limit (Text.byteLength source.toList) args).map fun rules => (name, rules) := by
    simp only [ofLexemes, hword]
  rw [parse, hread]
  simp only [Except.bind]
  rw [hlexemes]
  change _ = (rulesOf limit (Text.byteLength source.toList) args).map _
  cases rulesOf limit (Text.byteLength source.toList) args <;> rfl

/-- Under a limit the parser gets as far as without one, unless it comes to a bracket where as many
are open as may be. -/
theorem progressOf_cases (hlimit : limit ≠ 0) (args : List Lexeme) :
    (progressOf limit args = progressOf 0 args ∧
        ∀ front lexeme back reached, args = front ++ lexeme :: back → lexeme.kind = .opening →
          progressOf 0 (front ++ [lexeme]) = .ok reached →
            progressOf limit (front ++ [lexeme]) = .ok reached) ∨
      ∃ front lexeme back mid, args = front ++ lexeme :: back ∧ lexeme.kind = .opening ∧
        progressOf limit front = .ok mid ∧ mid.place.depth = limit ∧
        (∃ next, progressOf 0 (front ++ [lexeme]) = .ok next) ∧
        progressOf limit args = .error (.nestingTooDeep limit lexeme.span) := by
  have hstart : Place.outside.depth ≤ limit := Nat.zero_le _
  rcases @foldlM_step_cases limit ⟨(positionals 0 args).1.reverse, .outside⟩ hlimit hstart
    (positionals 0 args).2 with
    ⟨hsame, hfronts⟩ | ⟨front, lexeme, back, mid, hsplit, hkind, hrun, hfull, ⟨next, hnext⟩, herror⟩
  · refine .inl ⟨hsame, fun front lexeme back reached hargs hkind hrun => ?_⟩
    have hpositionals := positionals_append_opening hkind 0 front
    rw [progressOf, hpositionals] at hrun ⊢
    rw [hargs, hpositionals] at hfronts
    exact hfronts _ back reached (by rw [List.append_assoc]; rfl) hrun
  · obtain ⟨names, hnames⟩ := positionals_suffix 0 args
    have hargs : args = (names ++ front) ++ lexeme :: back := by
      rw [List.append_assoc, ← hsplit, hnames]
    have hfront : positionals 0 (names ++ front) = ((positionals 0 args).1, front) := by
      have hpositionals := positionals_append_opening hkind 0 (names ++ front) back
      rw [← hargs] at hpositionals
      exact Prod.ext (by rw [hpositionals])
        (List.append_cancel_right (by rw [← hsplit, hpositionals]))
    refine .inr ⟨names ++ front, lexeme, back, mid, hargs, hkind, ?_, hfull, ⟨next, ?_⟩, herror⟩
    · rw [progressOf, hfront]
      exact hrun
    · refine (progressOf_append_opening_eq_ok_iff hkind).mpr ⟨mid, next, ?_, hnext, rfl⟩
      rw [progressOf, hfront]
      exact foldlM_step_of_widens (.inl rfl) hrun

/-! ### Brackets that are reached -/

/-- The brackets that are open where the parser stands are those that the text leaves open. -/
theorem depth_eq_openBehind (hread : Lexeme.read (.ofList before) = .ok (command :: front))
    (hword : command.kind = .word name) (hrun : progressOf limit front = .ok mid) :
    mid.place.depth = openBehind before := by
  have hcount {c : Char} {kind : Lexeme.Kind} (hkind : kind = .opening ∨ kind = .closing)
      (hmark : Lexeme.Kind.ofMark? c = some kind) :
      before.count c = ((positionals 0 front).2.map Lexeme.kind).count kind := by
    have h := Lexeme.count_toList_of_read hmark hread
    rw [String.toList_ofList, List.map_cons, hword, List.count_cons_of_ne] at h
    · rw [h, count_positionals hkind]
    · rcases hkind with rfl | rfl <;> simp
  -- What the parser opens and closes behind the positional arguments is all that the text does.
  have hdepth := depth_of_run hrun
  rw [← hcount (c := '[') (.inl rfl) rfl, ← hcount (c := ']') (.inr rfl) rfl] at hdepth
  have hstart : Place.outside.depth = 0 := rfl
  rw [hstart] at hdepth
  rw [openBehind]
  omega

/-- Where a bracket opens, the lexemes before it are those of the text before it. -/
theorem exists_read_of_opening
    (hread : Lexeme.read (.ofList (before ++ '[' :: after)) = .ok lexemes) :
    ∃ front back, lexemes = front ++ ⟨.opening, bracketBehind before⟩ :: back ∧
      Lexeme.read (.ofList before) = .ok front := by
  rw [Lexeme.read_append_opening] at hread
  obtain ⟨front, hfront, hrest⟩ := bind_eq_ok_iff'.mp hread
  obtain ⟨back, -, rfl⟩ := map_eq_ok_iff.mp hrest
  exact ⟨front, back, rfl, hfront⟩

theorem read_opening (hread : Lexeme.read (.ofList before) = .ok front) :
    Lexeme.read (.ofList (before ++ ['['])) =
      .ok (front ++ [⟨.opening, bracketBehind before⟩]) := by
  rw [Lexeme.read_append_opening, hread]
  rfl

/-- The items of a bracket are not what leaves it unclosed. -/
theorem arrange_ne_unclosedBracket (op : GroupOp) (position : Nat) (separator : Span)
    (items : List Item) (span : Span) :
    arrange op position separator items ≠ .error (.unclosedBracket span) := by
  induction items generalizing position separator with
  | nil =>
    rw [arrange]
    split <;> simp
  | cons item items ih =>
    cases item with
    | bar =>
      rw [arrange]
      split
      · simp
      · exact ih _ _
    | _ => exact fun h => ih _ _ (map_eq_error_iff.mp h)

/-- Only where the lexemes end is a bracket found to be unclosed. -/
theorem step_ne_unclosedBracket (limit : Nat) (progress : Progress) (lexeme : Lexeme)
    (span : Span) : step limit progress lexeme ≠ .error (.unclosedBracket span) := by
  obtain ⟨rules, place⟩ := progress
  obtain ⟨kind, written⟩ := lexeme
  have hopen (outer : List Frame) :
      openBracket limit outer written ≠ .error (.unclosedBracket span) := by
    rw [openBracket]
    split <;> simp
  cases place with
  | outside =>
    cases kind with
    | opening => exact fun h => hopen _ (map_eq_error_iff.mp h)
    | _ => simp [step]
  | inside frame outer =>
    cases kind with
    | opening => exact fun h => hopen _ (map_eq_error_iff.mp h)
    | _ => simp [step]
  | closed frame outer closing =>
    cases kind with
    | operator op => exact fun h => arrange_ne_unclosedBracket _ _ _ _ _ (map_eq_error_iff.mp h)
    | _ => simp [step]

theorem progressOf_ne_unclosedBracket (limit : Nat) (args : List Lexeme) (span : Span) :
    progressOf limit args ≠ .error (.unclosedBracket span) := by
  intro h
  obtain ⟨_, lexeme, _, mid, -, -, hstep⟩ := foldlM_eq_error_iff.mp h
  exact step_ne_unclosedBracket limit mid lexeme span hstep

/-- A bracket that is reached is one of the lexemes of the source, and the parser gets past it. -/
theorem OpensBehind.exists_lexemes (h : OpensBehind source before) :
    ∃ command name front back mid,
      Lexeme.read source =
        .ok (command :: (front ++ ⟨.opening, bracketBehind before⟩ :: back)) ∧
      command.kind = .word name ∧ Lexeme.read (.ofList before) = .ok (command :: front) ∧
      progressOf 0 (front ++ [⟨.opening, bracketBehind before⟩]) = .ok mid := by
  obtain ⟨⟨lexemes, hread⟩, ⟨after, hafter⟩, hunclosed⟩ := h
  have hsource : source = .ofList (before ++ '[' :: after) := by
    rw [← String.ofList_toList (s := source), ← hafter, List.append_assoc]
    rfl
  obtain ⟨whole, back, rfl, hbefore⟩ := exists_read_of_opening (hsource ▸ hread)
  have hcut := read_opening hbefore
  cases whole with
  | nil =>
    rw [parse, hcut] at hunclosed
    cases hunclosed
  | cons command front =>
    cases hkind : command.kind with
    | word name =>
      rw [parse_of_read hcut hkind, map_eq_error_iff] at hunclosed
      rcases bind_eq_error_iff.mp hunclosed with herror | ⟨mid, hmid, -⟩
      · exact absurd herror (progressOf_ne_unclosedBracket _ _ _)
      · exact ⟨command, name, front, back, mid, hread, hkind, hbefore, hmid⟩
    | _ =>
      rw [parse, hcut] at hunclosed
      simp only [Except.bind, List.cons_append, ofLexemes, hkind] at hunclosed
      cases hunclosed

/-- A bracket is reached if it is one of the lexemes of the source and the parser gets past it. -/
theorem exists_opensBehind (hkind : lexeme.kind = .opening)
    (hread : Lexeme.read source = .ok (command :: (front ++ lexeme :: back)))
    (hword : command.kind = .word name) (hrun : progressOf 0 (front ++ [lexeme]) = .ok progress) :
    ∃ before, OpensBehind source before ∧ lexeme.span = bracketBehind before ∧
      Lexeme.read (.ofList before) = .ok (command :: front) := by
  rw [← List.cons_append] at hread
  obtain ⟨before, after, hsource, hspan, hbefore⟩ := Lexeme.exists_split_of_read hread
  rw [hkind, Lexeme.Kind.written] at hsource hspan
  replace hspan : lexeme.span = bracketBehind before := by
    rw [hspan, Text.byteLength_append]
    rfl
  have hlexeme : lexeme = ⟨.opening, bracketBehind before⟩ := by rw [← hspan, ← hkind]
  refine ⟨before, ⟨⟨_, hread⟩, ⟨after, by rw [hsource, List.append_assoc]⟩, ?_⟩, hspan, hbefore⟩
  obtain ⟨mid, next, hmid, hnext, hend⟩ := (progressOf_append_opening_eq_ok_iff hkind).mp hrun
  cases hend
  obtain ⟨_, -, -, rfl⟩ := (step_opening_iff hkind).mp hnext
  rw [parse_of_read (read_opening hbefore) hword, map_eq_error_iff, ← hlexeme, ← hspan]
  refine bind_eq_error_iff.mpr (.inr ⟨_, hrun, ?_⟩)
  rfl

/-- Brackets that open before the parser stands under a limit lie within the limit. -/
theorem openBehind_lt_of_run (hlimit : limit ≠ 0)
    (hread : Lexeme.read (.ofList before) = .ok (command :: front))
    (hword : command.kind = .word name) (hrun : progressOf limit front = .ok mid)
    (hearlier : earlier ++ ['['] <+: before) : openBehind earlier < limit := by
  obtain ⟨after, rfl⟩ := hearlier
  rw [List.append_assoc] at hread
  obtain ⟨whole, back, hwhole, hbefore⟩ := exists_read_of_opening hread
  cases whole with
  | nil =>
    cases hwhole
    cases hword
  | cons first front =>
    obtain ⟨rfl, rfl⟩ := List.cons.inj hwhole
    obtain ⟨reached, next, hreached, hstep, -⟩ :=
      (progressOf_append_opening_eq_ok_iff rfl).mp hrun
    have hdepth := depth_of_step hstep
    have hle := depth_le_of_step hlimit
      (depth_le_of_run hlimit (Nat.zero_le _) hreached) hstep
    rw [depth_eq_openBehind hbefore hword hreached] at hdepth
    have hopening : [Lexeme.Kind.opening].count .opening = 1 := rfl
    have hclosing : [Lexeme.Kind.opening].count .closing = 0 := rfl
    simp only [hopening, hclosing] at hdepth
    omega

/-! ### What a limit changes -/

/-- The first bracket that lies deeper than the limit is the fault. -/
theorem parse_of_firstTooDeep (hlimit : limit ≠ 0) (h : FirstTooDeep limit source before) :
    parse source limit = .error (.nestingTooDeep limit (bracketBehind before)) := by
  obtain ⟨command, name, front, back, mid, hread, hword, hbefore, hmid⟩ := h.opens.exists_lexemes
  rcases progressOf_cases hlimit (front ++ ⟨.opening, bracketBehind before⟩ :: back) with
    ⟨-, hsame⟩ | ⟨front', lexeme, back', mid', hsplit, hkind, hmid', hfull, ⟨next, hnext⟩, herror⟩
  · have hlt := openBehind_lt_of_run hlimit (read_opening hbefore) hword
      (hsame front _ back mid rfl rfl hmid) List.prefix_rfl
    rw [h.full] at hlt
    exact absurd hlt (Nat.lt_irrefl _)
  · -- Under the limit the parser stops at some bracket, and it remains that it is this one.
    rw [hsplit] at hread
    obtain ⟨before', hopens, hspan, hbefore'⟩ := exists_opensBehind hkind hread hword hnext
    rw [depth_eq_openBehind hbefore' hword hmid'] at hfull
    -- Of two brackets that open as deep as that, neither comes before the other.
    have hsame : before' = before := by
      rcases Nat.lt_trichotomy before'.length before.length with hlt | heq | hgt
      · have := h.first before' hopens.begins hlt
        omega
      · have hbegins := List.prefix_of_prefix_length_le hopens.begins h.opens.begins (by simp [heq])
        exact (List.append_inj (hbegins.eq_of_length (by simp [heq])) heq).1
      · have hbegins := List.prefix_of_prefix_length_le h.opens.begins
          ((List.prefix_append _ _).trans hopens.begins) (by simpa using Nat.succ_le_of_lt hgt)
        have hlt := openBehind_lt_of_run hlimit hbefore' hword hmid' hbegins
        rw [h.full] at hlt
        exact absurd hlt (Nat.lt_irrefl _)
    rw [← hsplit] at hread
    rw [parse_of_read hread hword, herror, hspan, hsame]
    rfl

/-- Unless there is such a bracket, the limit changes nothing, and every bracket that is reached
lies within the limit. -/
theorem exists_firstTooDeep_or (hlimit : limit ≠ 0) (source : String) :
    (∃ before, FirstTooDeep limit source before) ∨
      parse source limit = parse source 0 ∧
        ∀ before, OpensBehind source before → openBehind before < limit := by
  by_cases hcommand : ∃ command args name,
    Lexeme.read source = .ok (command :: args) ∧ command.kind = .word name
  · obtain ⟨command, args, name, hread, hword⟩ := hcommand
    rcases progressOf_cases hlimit args with
      ⟨hsame, hfronts⟩ | ⟨front, lexeme, back, mid, rfl, hkind, hmid, hfull, ⟨next, hnext⟩, -⟩
    · -- Whatever the parser gets past without a limit, it gets past under the limit.
      refine .inr ⟨by rw [parse_of_read hread hword, parse_of_read hread hword, hsame],
        fun before hopens => ?_⟩
      obtain ⟨_, _, front, back, mid, hread', hword', hbefore, hmid⟩ := hopens.exists_lexemes
      obtain ⟨rfl, rfl⟩ := List.cons.inj (Except.ok.inj (hread.symm.trans hread'))
      exact openBehind_lt_of_run hlimit (read_opening hbefore) hword'
        (hfronts front _ back mid rfl rfl hmid) List.prefix_rfl
    · obtain ⟨before, hopens, -, hbefore⟩ := exists_opensBehind hkind hread hword hnext
      refine .inl ⟨before, hopens, ?_, fun earlier hearlier hlt => ?_⟩
      · rw [← depth_eq_openBehind hbefore hword hmid, hfull]
      · exact openBehind_lt_of_run hlimit hbefore hword hmid
          (List.prefix_of_prefix_length_le hearlier
            ((List.prefix_append _ _).trans hopens.begins)
            (by simpa using Nat.succ_le_of_lt hlt))
  · refine .inr ⟨?_, fun before hopens => ?_⟩
    · cases hread : Lexeme.read source with
      | error e =>
        rw [parse, parse, hread]
        rfl
      | ok lexemes =>
        cases lexemes with
        | nil =>
          rw [parse, parse, hread]
          rfl
        | cons command args =>
          rw [parse, parse, hread]
          simp only [Except.bind, ofLexemes]
          split
          · rename_i name hword
            exact absurd ⟨command, args, name, hread, hword⟩ hcommand
          · rfl
    · obtain ⟨command, name, _, _, _, hread, hword, -⟩ := hopens.exists_lexemes
      exact absurd ⟨command, _, name, hread, hword⟩ hcommand

/-- A text without a fault is parsed under a limit if the brackets of its grammar nest no
deeper. -/
theorem parse_eq_ok_iff (hlimit : limit ≠ 0) (h : parse source 0 = .ok grammar) :
    parse source limit = .ok grammar ↔ Rule.depthOfAll grammar.rules ≤ limit := by
  obtain ⟨phrase, text, hwrites, hchars, -, -, hrules⟩ := exists_writes_of_parse h
  rw [← Rule.depthOfAll_unplacedAll, ← hrules, Phrase.depthOfAll_rules]
  constructor
  · intro hparse
    -- The two phrases need not be the same, but they have the same rules.
    obtain ⟨phrase', -, -, -, hdepth, -, hrules'⟩ := exists_writes_of_parse hparse
    rw [← Phrase.depthOfAll_rules, hrules, ← hrules', Phrase.depthOfAll_rules]
    exact hdepth.resolve_left hlimit
  · intro hdepth
    obtain ⟨grammar', hparse, -, -⟩ := exists_parse_of_writes hwrites hchars (.inr hdepth)
    rw [parse_of_widens (.inl rfl) hparse] at h
    rwa [← Except.ok.inj h]

/-- A text without a fault opens a bracket too deep if the brackets of its grammar nest deeper. -/
theorem exists_firstTooDeep_iff (hlimit : limit ≠ 0) (h : parse source 0 = .ok grammar) :
    (∃ before, FirstTooDeep limit source before) ↔ limit < Rule.depthOfAll grammar.rules := by
  rw [← Nat.not_le, ← parse_eq_ok_iff hlimit h]
  constructor
  · rintro ⟨before, hfirst⟩ hparse
    rw [parse_of_firstTooDeep hlimit hfirst] at hparse
    cases hparse
  · intro hparse
    refine (exists_firstTooDeep_or hlimit source).resolve_right fun hsame => hparse ?_
    rw [hsame.1, h]

/-- A limit on the nesting of brackets only limits. A grammar that is parsed without a limit is
parsed alike under one that its brackets nest within; otherwise the fault is the first bracket that
lies deeper. A text that is at fault without a limit has the same fault under one, unless a bracket
that lies deeper comes first. So a wider limit changes nothing about a grammar that is parsed. -/
theorem parse_under_limit (source : String) (limit : Nat) (hlimit : 0 < limit) :
    (∀ grammar, parse source 0 = .ok grammar →
      (Rule.depthOfAll grammar.rules ≤ limit → parse source limit = .ok grammar) ∧
      (limit < Rule.depthOfAll grammar.rules → ∃ before, FirstTooDeep limit source before ∧
        parse source limit = .error (.nestingTooDeep limit (bracketBehind before)))) ∧
    (∀ e, parse source 0 = .error e →
      (∃ before, FirstTooDeep limit source before ∧
        parse source limit = .error (.nestingTooDeep limit (bracketBehind before))) ∨
      parse source limit = .error e ∧
        ∀ before, OpensBehind source before → openBehind before < limit) ∧
    ∀ wider grammar, wider = 0 ∨ limit ≤ wider → parse source limit = .ok grammar →
      parse source wider = .ok grammar := by
  have hne : limit ≠ 0 := Nat.pos_iff_ne_zero.mp hlimit
  refine ⟨fun grammar hparse => ⟨(parse_eq_ok_iff hne hparse).mpr, fun hdeep => ?_⟩,
    fun e hparse => ?_, fun wider grammar hwider hparse => ?_⟩
  · obtain ⟨before, hfirst⟩ := (exists_firstTooDeep_iff hne hparse).mpr hdeep
    exact ⟨before, hfirst, parse_of_firstTooDeep hne hfirst⟩
  · rcases exists_firstTooDeep_or hne source with ⟨before, hfirst⟩ | ⟨hsame, hwithin⟩
    · exact .inl ⟨before, hfirst, parse_of_firstTooDeep hne hfirst⟩
    · exact .inr ⟨hsame.trans hparse, hwithin⟩
  · exact parse_of_widens (hwider.imp_right fun hle => ⟨hne, hle⟩) hparse

/-- The third bracket comes before the one that closes nothing. -/
theorem parse_under_limit_unbalanced :
    parse "x [[[a]?]!]*]" 0 = .error (.unexpectedLexeme .closing .group ⟨12, 13⟩) ∧
      ∃ before, FirstTooDeep 2 "x [[[a]?]!]*]" before ∧
        parse "x [[[a]?]!]*]" 2 = .error (.nestingTooDeep 2 (bracketBehind before)) := by
  have hfault : parse "x [[[a]?]!]*]" 0 =
      .error (.unexpectedLexeme .closing .group ⟨12, 13⟩) := by rfl
  have hdeep : parse "x [[[a]?]!]*]" 2 = .error (.nestingTooDeep 2 ⟨4, 5⟩) := by rfl
  obtain ⟨-, herror, -⟩ := parse_under_limit "x [[[a]?]!]*]" 2 (by decide)
  refine ⟨hfault, (herror _ hfault).resolve_right fun hsame => ?_⟩
  rw [hdeep] at hsame
  cases hsame.1

end CommandShell.Grammar
