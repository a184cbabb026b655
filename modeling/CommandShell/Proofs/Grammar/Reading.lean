import CommandShell.Proofs.Grammar.Brackets

/-!
# Groups are read as they are written

The lexemes of groups lead the parser from one progress to another. Clauses that are written inside
of a bracket join its items, and what is written outside of all brackets becomes rules. The other
way round, the place of the parser tells which lexemes it has read: the clauses of whole groups, and
the beginnings of those whose brackets are still open.

## Main definitions

* `Grammar.Reaches` — lexemes lead from one progress of the parser to another
* `Grammar.Joins` — a clause that is read in a bracket joins the current alternative
* `Grammar.Opened`, `Grammar.Place.Reads`, `Grammar.Progress.Reads` — the lexemes that have been
  read where the parser stands

## Main results

* `Grammar.joins` — every clause joins the current alternative
* `Grammar.exists_reaches_groups` — groups outside of brackets are read as rules
* `Grammar.Progress.Reads.step`, `Grammar.Progress.Reads.run` — the progress says what has been
  read, lexeme by lexeme
-/

namespace CommandShell

namespace Grammar

variable {limit : Nat} {op : GroupOp} {item : Item} {items : List Item} {clause : Clause}
  {finished alternatives : List (List Clause)} {current front groups : List Clause}
  {rules inner : List Rule} {opened : Span} {frame : Frame} {outer frames : List Frame}
  {kinds : List Lexeme.Kind} {lexeme : Lexeme} {lexemes : List Lexeme}
  {progress progress' : Progress}

/-! ### What is written is read -/

/-- Reading the lexemes one by one leads from the one progress to the other. -/
def Reaches (limit : Nat) (progress : Progress) (lexemes : List Lexeme) (progress' : Progress) :
    Prop :=
  lexemes.foldlM (step limit) progress = .ok progress'

theorem Reaches.append {first second : List Lexeme} {middle : Progress}
    (hfirst : Reaches limit progress first middle)
    (hsecond : Reaches limit middle second progress') :
    Reaches limit progress (first ++ second) progress' := by
  rw [Reaches, List.foldlM_append]
  exact bind_eq_ok_iff.mpr ⟨middle, hfirst, hsecond⟩

theorem reaches_singleton (h : step limit progress lexeme = .ok progress') :
    Reaches limit progress [lexeme] progress' := by
  rw [Reaches, List.foldlM_cons]
  exact bind_eq_ok_iff.mpr ⟨progress', h, rfl⟩

/-- The clause joins the current alternative when it is read in a bracket. -/
def Joins (limit : Nat) (clause : Clause) : Prop :=
  ∀ (rules : List Rule) (opened : Span) (items : List Item) (outer : List Frame)
    (lexemes : List Lexeme) (finished : List (List Clause)) (current : List Clause),
    clause.Admitted limit (outer.length + 1) → lexemes.map Lexeme.kind = clause.lexemes →
      Collects items finished current →
        ∃ items', Reaches limit ⟨rules, .inside ⟨opened, items⟩ outer⟩ lexemes
            ⟨rules, .inside ⟨opened, items'⟩ outer⟩ ∧
          Collects items' finished (current ++ [clause])

/-- So do clauses, one after the other. -/
theorem exists_reaches_all {clauses : List Clause} (hjoins : ∀ clause ∈ clauses, Joins limit clause)
    (hadmitted : ∀ clause ∈ clauses, clause.Admitted limit (outer.length + 1))
    (hkinds : lexemes.map Lexeme.kind = Clause.lexemesOfAll clauses)
    (hcollects : Collects items finished current) :
    ∃ items', Reaches limit ⟨rules, .inside ⟨opened, items⟩ outer⟩ lexemes
        ⟨rules, .inside ⟨opened, items'⟩ outer⟩ ∧
      Collects items' finished (current ++ clauses) := by
  induction clauses generalizing items current lexemes with
  | nil =>
    rw [Clause.lexemesOfAll, List.map_eq_nil_iff] at hkinds
    subst hkinds
    exact ⟨items, rfl, by rwa [List.append_nil]⟩
  | cons clause clauses ih =>
    rw [List.forall_mem_cons] at hjoins hadmitted
    rw [Clause.lexemesOfAll, List.map_eq_append_iff] at hkinds
    obtain ⟨first, second, rfl, hfirst, hsecond⟩ := hkinds
    obtain ⟨_, hreach, hcollects⟩ := hjoins.1 rules opened items outer first finished current
      hadmitted.1 hfirst hcollects
    obtain ⟨items', hreach', hcollects'⟩ := ih hjoins.2 hadmitted.2 hsecond hcollects
    exact ⟨items', hreach.append hreach', by rwa [List.append_assoc] at hcollects'⟩

/-- Alternatives are finished one after the other, with a bar between any two. -/
theorem exists_reaches_alternatives (rules : List Rule) (opened : Span) (hne : alternatives ≠ [])
    (hjoins : ∀ alternative ∈ alternatives, ∀ clause ∈ alternative, Joins limit clause)
    (hadmitted : ∀ alternative ∈ alternatives, ∀ clause ∈ alternative,
      clause.Admitted limit (outer.length + 1))
    (hkinds : lexemes.map Lexeme.kind = Clause.lexemesOfAlternatives alternatives)
    (hcollects : Collects items finished []) :
    ∃ items' finished' current, Reaches limit ⟨rules, .inside ⟨opened, items⟩ outer⟩ lexemes
        ⟨rules, .inside ⟨opened, items'⟩ outer⟩ ∧
      Collects items' finished' current ∧ finished' ++ [current] = finished ++ alternatives := by
  induction alternatives generalizing items finished lexemes with
  | nil => exact absurd rfl hne
  | cons alternative alternatives ih =>
    rw [List.forall_mem_cons] at hjoins hadmitted
    by_cases halternatives : alternatives = []
    · subst halternatives
      obtain ⟨items, hreach, hcollects⟩ :=
        exists_reaches_all hjoins.1 hadmitted.1 hkinds hcollects
      exact ⟨items, finished, alternative, hreach, by rwa [List.nil_append] at hcollects, rfl⟩
    · rw [Clause.lexemesOfAlternatives_cons _ halternatives, List.map_eq_append_iff] at hkinds
      obtain ⟨first, others, rfl, hfirst, hothers⟩ := hkinds
      obtain ⟨bar, second, rfl, hbar, hsecond⟩ := List.map_eq_cons_iff.mp hothers
      obtain ⟨items, hreach, hcollects⟩ :=
        exists_reaches_all hjoins.1 hadmitted.1 hfirst hcollects
      have hstep : step limit ⟨rules, .inside ⟨opened, items⟩ outer⟩ bar =
          .ok ⟨rules, .inside ⟨opened, .bar bar.span :: items⟩ outer⟩ := by
        simp only [step, hbar, Frame.add]
      obtain ⟨items', finished', current, hreach', hcollects', heq⟩ :=
        ih halternatives hjoins.2 hadmitted.2 hsecond (hcollects.bar bar.span)
      refine ⟨items', finished', current, ?_, hcollects', by simp [heq]⟩
      exact hreach.append ((reaches_singleton hstep).append hreach')

/-- A group is read if its clauses are. -/
theorem exists_reaches_group (rules : List Rule) (frames : List Frame)
    (hadmitted : (Clause.group op alternatives).Admitted limit frames.length)
    (hjoins : ∀ alternative ∈ alternatives, ∀ clause ∈ alternative, Joins limit clause)
    (hkinds : lexemes.map Lexeme.kind = (Clause.group op alternatives).lexemes) :
    ∃ inner whole,
      Rule.unplacedAll inner = Clause.rulesOfAlternatives op.memberKind alternatives ∧
      Reaches limit ⟨rules, .within frames⟩ lexemes (grouped rules op inner whole frames) := by
  obtain ⟨hlevel, hne, halternatives⟩ := Clause.admitted_group_iff.mp hadmitted
  rw [Clause.lexemes] at hkinds
  obtain ⟨opening, others, rfl, hopening, hothers⟩ := List.map_eq_cons_iff.mp hkinds
  obtain ⟨body, closed, rfl, hbody, hclosed⟩ := List.map_eq_append_iff.mp hothers
  obtain ⟨closing, operators, rfl, hclosing, hoperators⟩ := List.map_eq_cons_iff.mp hclosed
  obtain ⟨operator, rfl, hoperator⟩ := List.map_eq_singleton_iff.mp hoperators
  have hopen : step limit ⟨rules, .within frames⟩ opening =
      .ok ⟨rules, .inside ⟨opening.span, []⟩ frames⟩ :=
    (step_opening hopening).mpr ⟨hlevel, rfl⟩
  obtain ⟨items, finished, current, hreach, hcollects, heq⟩ :=
    exists_reaches_alternatives rules opening.span hne hjoins
      (fun alternative h => (halternatives alternative h).2) hbody .empty
  have hclose : step limit ⟨rules, .inside ⟨opening.span, items⟩ frames⟩ closing =
      .ok ⟨rules, .closed ⟨opening.span, items⟩ frames closing.span⟩ := by
    simp only [step, hclosing]
  rw [List.nil_append] at heq
  obtain ⟨inner, hinner, harrange⟩ := exists_arrange hcollects op opening.span
  rw [heq] at hinner harrange
  have hend : step limit ⟨rules, .closed ⟨opening.span, items⟩ frames closing.span⟩ operator =
      .ok (grouped rules op inner (opening.span.join operator.span) frames) := by
    rw [step_operator hoperator]
    exact map_eq_ok_iff.mpr ⟨inner, (harrange inner).mpr
      ⟨fun alternative h => (halternatives alternative h).1, rfl⟩, rfl⟩
  exact ⟨inner, _, hinner, (reaches_singleton hopen).append (hreach.append
    ((reaches_singleton hclose).append (reaches_singleton hend)))⟩

/-- A word or a constant joins the current alternative as one item. -/
theorem joins_of_not_isGroup (hgroup : clause.isGroup = false) : Joins limit clause := by
  intro rules opened items outer lexemes finished current _ hkinds hcollects
  obtain ⟨kind, hkind⟩ := Clause.exists_lexemes_eq hgroup
  rw [hkind, List.map_eq_singleton_iff] at hkinds
  obtain ⟨lexeme, rfl, rfl⟩ := hkinds
  obtain ⟨item, hitem, hstep⟩ := exists_step_item hgroup hkind
  exact ⟨_, reaches_singleton (hstep _ _ _ _), hcollects.item hitem⟩

/-- Every clause joins the current alternative. -/
theorem joins (clause : Clause) : Joins limit clause := by
  induction clause using Clause.induction with
  | word name => exact joins_of_not_isGroup rfl
  | constant name => exact joins_of_not_isGroup rfl
  | group op alternatives ih =>
    intro rules opened items outer lexemes finished current hadmitted hkinds hcollects
    obtain ⟨inner, whole, hinner, hreach⟩ :=
      exists_reaches_group rules (⟨opened, items⟩ :: outer) hadmitted ih hkinds
    exact ⟨_, hreach, hcollects.item (.group op whole hinner)⟩

/-- Groups outside of brackets are read as the next rules. -/
theorem exists_reaches_groups {clauses groups : List Clause}
    (hgroups : ∀ clause ∈ groups, clause.isGroup = true)
    (hadmitted : ∀ clause ∈ groups, clause.Admitted limit 0)
    (hkinds : lexemes.map Lexeme.kind = Clause.lexemesOfAll groups)
    (hrules : Rule.unplacedAll rules.reverse = Clause.rulesFrom .required 0 clauses) :
    ∃ rules', Reaches limit ⟨rules, .outside⟩ lexemes ⟨rules', .outside⟩ ∧
      Rule.unplacedAll rules'.reverse = Clause.rulesFrom .required 0 (clauses ++ groups) := by
  induction groups generalizing clauses lexemes rules with
  | nil =>
    rw [Clause.lexemesOfAll, List.map_eq_nil_iff] at hkinds
    subst hkinds
    exact ⟨rules, rfl, by rwa [List.append_nil]⟩
  | cons clause groups ih =>
    rw [List.forall_mem_cons] at hgroups hadmitted
    rw [Clause.lexemesOfAll, List.map_eq_append_iff] at hkinds
    obtain ⟨first, second, rfl, hfirst, hsecond⟩ := hkinds
    cases clause with
    | word name => cases hgroups.1
    | constant name => cases hgroups.1
    | group op alternatives =>
      obtain ⟨inner, whole, hinner, hreach⟩ :=
        exists_reaches_group rules [] hadmitted.1 (fun _ _ clause _ => joins clause) hfirst
      obtain ⟨rules', hreach', hrules'⟩ :=
        ih hgroups.2 hadmitted.2 hsecond (unplacedAll_grouped hrules hinner whole)
      exact ⟨rules', hreach.append hreach', by rwa [List.append_assoc] at hrules'⟩

/-! ### What is read is written -/

/-- The brackets that are open, innermost first, and the lexemes that have been read since the
outermost of them was opened. -/
inductive Opened (limit : Nat) : List Frame → List Lexeme.Kind → Prop
  | none : Opened limit [] []
  | bracket {frame : Frame} {outer : List Frame} {before : List Lexeme.Kind}
    {finished : List (List Clause)} {current : List Clause} (houter : Opened limit outer before)
    (hlevel : limit = 0 ∨ outer.length + 1 ≤ limit)
    (hcollects : Collects frame.items finished current)
    (hadmitted : ∀ alternative ∈ finished ++ [current], ∀ clause ∈ alternative,
      clause.Admitted limit (outer.length + 1)) :
    Opened limit (frame :: outer)
      (before ++ .opening :: Clause.lexemesOfAlternatives (finished ++ [current]))

namespace Opened

theorem level (h : Opened limit (frame :: outer) kinds) : limit = 0 ∨ outer.length + 1 ≤ limit := by
  cases h with
  | bracket _ hlevel _ _ => exact hlevel

theorem opening (h : Opened limit frames kinds) (hlevel : limit = 0 ∨ frames.length + 1 ≤ limit)
    (span : Span) : Opened limit (⟨span, []⟩ :: frames) (kinds ++ [.opening]) :=
  @bracket limit ⟨span, []⟩ frames kinds [] [] h hlevel .empty (by simp)

theorem add (h : Opened limit (frame :: outer) kinds) (hitem : item.Says clause)
    (hclause : clause.Admitted limit (outer.length + 1)) :
    Opened limit (frame.add item :: outer) (kinds ++ clause.lexemes) := by
  cases h with
  | @bracket _ _ before finished current houter hlevel hcollects hadmitted =>
    -- The current alternative is written last, so a clause behind it belongs to it.
    have hlexemes : before ++ .opening :: Clause.lexemesOfAlternatives (finished ++ [current]) ++
        clause.lexemes =
          before ++ .opening ::
            Clause.lexemesOfAlternatives (finished ++ [current ++ [clause]]) := by
      simp only [Clause.lexemesOfAlternatives_append_singleton, Clause.lexemesOfAll_append,
        Clause.lexemesOfAll_singleton, List.append_assoc, List.cons_append]
    rw [hlexemes]
    refine .bracket houter hlevel (hcollects.item hitem) ?_
    rw [List.forall_mem_append, List.forall_mem_singleton] at hadmitted ⊢
    refine ⟨hadmitted.1, ?_⟩
    rw [List.forall_mem_append, List.forall_mem_singleton]
    exact ⟨hadmitted.2, hclause⟩

theorem bar (h : Opened limit (frame :: outer) kinds) (span : Span) :
    Opened limit (frame.add (.bar span) :: outer) (kinds ++ [.bar]) := by
  cases h with
  | @bracket _ _ before finished current houter hlevel hcollects hadmitted =>
    have hlexemes : before ++ .opening :: Clause.lexemesOfAlternatives (finished ++ [current]) ++
        [.bar] =
          before ++ .opening :: Clause.lexemesOfAlternatives (finished ++ [current] ++ [[]]) := by
      rw [Clause.lexemesOfAlternatives_append_singleton,
        Clause.lexemesOfAlternatives_append_singleton (finished ++ [current])]
      simp [Clause.lexemesOfAll]
    rw [hlexemes]
    refine .bracket houter hlevel (hcollects.bar span) ?_
    rw [List.forall_mem_append, List.forall_mem_singleton]
    exact ⟨hadmitted, fun _ h => absurd h List.not_mem_nil⟩

/-- The items of a bracket that can be arranged are those of a group. -/
theorem close (h : Opened limit (frame :: outer) kinds) {separator : Span}
    (harrange : arrange op 0 separator frame.items.reverse = .ok inner) :
    ∃ before alternatives, Opened limit outer before ∧
      kinds ++ [.closing, .operator op] =
        before ++ (Clause.group op alternatives).lexemes ∧
      Rule.unplacedAll inner = Clause.rulesOfAlternatives op.memberKind alternatives ∧
      (Clause.group op alternatives).Admitted limit outer.length := by
  cases h with
  | @bracket _ _ before finished current houter hlevel hcollects hadmitted =>
    obtain ⟨all, hall, hiff⟩ := exists_arrange hcollects op separator
    obtain ⟨hne, rfl⟩ := (hiff inner).mp harrange
    refine ⟨before, finished ++ [current], houter, ?_, hall, Clause.admitted_group_iff.mpr
      ⟨hlevel, by simp, fun alternative h => ⟨hne alternative h, hadmitted alternative h⟩⟩⟩
    rw [Clause.lexemes, List.append_assoc, List.cons_append]

end Opened

/-- The lexemes that have been read at the place since all brackets were closed. -/
inductive Place.Reads (limit : Nat) : Place → List Lexeme.Kind → Prop
  | outside : Reads limit .outside []
  | inside {frame : Frame} {outer : List Frame} {kinds : List Lexeme.Kind}
    (h : Opened limit (frame :: outer) kinds) : Reads limit (.inside frame outer) kinds
  | closed {frame : Frame} {outer : List Frame} {kinds : List Lexeme.Kind} (closing : Span)
    (h : Opened limit (frame :: outer) kinds) :
    Reads limit (.closed frame outer closing) (kinds ++ [.closing])

/-- The lexemes that have been read behind the clauses `front`: whole groups, whose rules are known,
and the lexemes since the last of them. -/
def Progress.Reads (limit : Nat) (front : List Clause) (progress : Progress)
    (kinds : List Lexeme.Kind) : Prop :=
  ∃ groups rest, (∀ clause ∈ groups, clause.isGroup = true ∧ clause.Admitted limit 0) ∧
    Rule.unplacedAll progress.rules.reverse = Clause.rulesFrom .required 0 (front ++ groups) ∧
    progress.place.Reads limit rest ∧ kinds = Clause.lexemesOfAll groups ++ rest

/-- Inside of these brackets, what has been read since the outermost of them was opened. -/
theorem Place.reads_within_iff : (Place.within frames).Reads limit kinds ↔
    Opened limit frames kinds := by
  cases frames with
  | nil =>
    constructor <;> intro h <;> cases h
    · exact .none
    · exact .outside
  | cons frame outer =>
    constructor <;> intro h
    · cases h with
      | inside h => exact h
    · exact .inside h

/-- The item of a lexeme joins the innermost bracket. -/
theorem Opened.addWritten (h : Opened limit (frame :: outer) kinds)
    (hitem : item.WrittenAs lexeme) :
    Opened limit (frame.add item :: outer) (kinds ++ [lexeme.kind]) := by
  cases hitem with
  | word name span =>
    exact h.add (.word name span) (Clause.admitted_of_not_isGroup rfl h.level)
  | constant name span =>
    exact h.add (.constant name span) (Clause.admitted_of_not_isGroup rfl h.level)
  | bar span => exact h.bar span

/-- The progress says what has been read, also after the next lexeme. -/
theorem Progress.Reads.step (h : progress.Reads limit front kinds)
    (hstep : Grammar.step limit progress lexeme = .ok progress') :
    progress'.Reads limit front (kinds ++ [lexeme.kind]) := by
  obtain ⟨groups, rest, hgroups, hrules, hplace, rfl⟩ := h
  -- Unless a group outside of all brackets ends, the rules stay as they are.
  cases step_eq_ok_iff.mp hstep with
  | opening rules span hroom =>
    exact ⟨groups, _, hgroups, hrules,
      .inside ((Place.reads_within_iff.mp hplace).opening hroom span), List.append_assoc _ _ _⟩
  | item rules frame outer hitem =>
    cases hplace with
    | inside hopened =>
      exact ⟨groups, _, hgroups, hrules, .inside (hopened.addWritten hitem),
        List.append_assoc _ _ _⟩
  | closing rules frame outer span =>
    cases hplace with
    | inside hopened =>
      exact ⟨groups, _, hgroups, hrules, .closed span hopened, List.append_assoc _ _ _⟩
  | @operator rules frame outer closing span op inner harrange =>
    cases hplace with
    | @closed _ _ kinds _ hopened =>
      obtain ⟨before, alternatives, houter, hkinds, hinner, hadmitted⟩ := hopened.close harrange
      have hlexemes : Clause.lexemesOfAll groups ++ (kinds ++ [.closing]) ++ [.operator op] =
          Clause.lexemesOfAll groups ++ (before ++ (Clause.group op alternatives).lexemes) := by
        rw [← hkinds]
        simp
      rw [hlexemes]
      cases outer with
      | nil =>
        cases houter
        refine ⟨groups ++ [.group op alternatives], [], ?_, ?_, .outside, ?_⟩
        · rw [List.forall_mem_append, List.forall_mem_singleton]
          exact ⟨hgroups, rfl, hadmitted⟩
        · rw [← List.append_assoc]
          exact unplacedAll_grouped hrules hinner _
        · rw [Clause.lexemesOfAll_append, Clause.lexemesOfAll_singleton, List.append_nil,
            List.nil_append]
      | cons parent outer =>
        have hadd := houter.add (.group op (frame.opened.join span) hinner) hadmitted
        exact ⟨groups, _, hgroups, hrules, .inside hadd, rfl⟩

/-- The progress says what has been read. -/
theorem Progress.Reads.run (h : progress.Reads limit front kinds)
    (hrun : Reaches limit progress lexemes progress') :
    progress'.Reads limit front (kinds ++ lexemes.map Lexeme.kind) := by
  induction lexemes generalizing progress kinds with
  | nil =>
    cases hrun
    rwa [List.map_nil, List.append_nil]
  | cons lexeme lexemes ih =>
    rw [Reaches, List.foldlM_cons] at hrun
    obtain ⟨next, hstep, hrun⟩ := bind_eq_ok_iff.mp hrun
    rw [List.map_cons, List.append_cons]
    exact ih (h.step hstep) hrun

end Grammar

end CommandShell
