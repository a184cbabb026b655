import CommandShell.Proofs.Grammar.Brackets

/-!
# The limit on nesting

A grammar that is parsed under some limit on the nesting of its brackets is parsed in the same way
under every wider limit. The limit is checked where a bracket opens, and nowhere else. So a run
under a limit goes as a run without one does, up to the first bracket that is opened too deep.

## Main definitions

* `Grammar.Widens` — one limit admits all the brackets that another does
* `Grammar.Place.depth` — how many brackets are open where the parser stands

## Main results

* `Grammar.parse_of_widens` — a wider limit changes nothing about a grammar that is parsed
* `Grammar.depth_of_run` — the brackets that are open are those that were opened and not closed
* `Grammar.foldlM_step_cases` — a run under a limit against a run without one
-/

namespace CommandShell.Grammar

variable {limit wider stop : Nat}
  {progress next : Progress} {lexeme : Lexeme} {lexemes : List Lexeme} {source : String}
  {grammar : Grammar}

/-- Brackets may nest as deep under the limit `wider` as they may under `limit`; a limit of 0 is
none. -/
def Widens (wider limit : Nat) : Prop := wider = 0 ∨ limit ≠ 0 ∧ limit ≤ wider

/-- Every limit admits one bracket. -/
theorem widens_one (limit : Nat) : Widens limit 1 := by
  unfold Widens
  omega

/-- The limit matters only where a bracket opens. -/
theorem step_eq_of_ne_opening (hkind : lexeme.kind ≠ .opening) (limit wider : Nat)
    (progress : Progress) : step limit progress lexeme = step wider progress lexeme := by
  obtain ⟨rules, place⟩ := progress
  obtain ⟨kind, span⟩ := lexeme
  cases place with
  | closed frame outer closing => rfl
  | _ =>
    -- Inside and outside of brackets, only `openBracket` is given the limit.
    cases kind with
    | opening => exact absurd rfl hkind
    | _ => rfl

theorem step_of_widens (hw : Widens wider limit) (h : step limit progress lexeme = .ok next) :
    step wider progress lexeme = .ok next := by
  by_cases hkind : lexeme.kind = .opening
  · obtain ⟨frames, hplace, hroom, hnext⟩ := (step_opening_iff hkind).mp h
    refine (step_opening_iff hkind).mpr ⟨frames, hplace, ?_, hnext⟩
    rcases hw with hw | ⟨hlimit, hle⟩
    · exact .inl hw
    · exact .inr (Nat.le_trans (hroom.resolve_left hlimit) hle)
  · rw [step_eq_of_ne_opening hkind wider limit, h]

theorem foldlM_step_of_widens (hw : Widens wider limit)
    (h : lexemes.foldlM (step limit) progress = .ok next) :
    lexemes.foldlM (step wider) progress = .ok next := by
  induction lexemes generalizing progress with
  | nil => exact h
  | cons lexeme lexemes ih =>
    rw [List.foldlM_cons] at h ⊢
    obtain ⟨mid, hstep, hrest⟩ := bind_eq_ok_iff.mp h
    exact bind_eq_ok_iff.mpr ⟨mid, step_of_widens hw hstep, ih hrest⟩

theorem rulesOf_of_widens {rules : List Rule} (hw : Widens wider limit)
    (h : rulesOf limit stop lexemes = .ok rules) : rulesOf wider stop lexemes = .ok rules := by
  obtain ⟨progress, hfold, hfinish⟩ := bind_eq_ok_iff'.mp h
  exact bind_eq_ok_iff'.mpr ⟨progress, foldlM_step_of_widens hw hfold, hfinish⟩

/-- A grammar that is parsed under a limit is parsed in the same way under a wider one. -/
theorem parse_of_widens (hw : Widens wider limit) (h : parse source limit = .ok grammar) :
    parse source wider = .ok grammar := by
  obtain ⟨lexemes, hread, hparse⟩ := bind_eq_ok_iff'.mp h
  obtain ⟨⟨command, rules⟩, hlexemes, rfl⟩ := map_eq_ok_iff.mp hparse
  refine bind_eq_ok_iff'.mpr ⟨lexemes, hread, map_eq_ok_iff.mpr ⟨(command, rules), ?_, rfl⟩⟩
  cases lexemes with
  | nil => cases hlexemes
  | cons lexeme lexemes =>
    obtain ⟨kind, span⟩ := lexeme
    cases kind with
    | word name =>
      obtain ⟨rules, hrules, heq⟩ := map_eq_ok_iff.mp hlexemes
      exact map_eq_ok_iff.mpr ⟨rules, rulesOf_of_widens hw hrules, heq⟩
    | _ => cases hlexemes

/-! ### How deep the parser stands -/

/-- How many brackets are open where the parser stands. -/
def Place.depth : Place → Nat
  | .outside => 0
  | .inside _ outer => outer.length + 1
  | .closed _ outer _ => outer.length

theorem Place.depth_within (frames : List Frame) : (within frames).depth = frames.length := by
  cases frames <;> rfl

/-- Only a bracket that opens or closes changes how many are open. -/
theorem depth_of_step (h : step limit progress lexeme = .ok next) :
    next.place.depth + [lexeme.kind].count .closing =
      progress.place.depth + [lexeme.kind].count .opening := by
  cases step_eq_ok_iff.mp h with
  | opening rules span hroom =>
    rw [Place.depth_within]
    rfl
  | item rules frame outer hitem => cases hitem <;> rfl
  | closing rules frame outer span => rfl
  | operator rules frame outer closing span harrange => cases outer <;> rfl

/-- The brackets that are open are those that were opened and not closed. -/
theorem depth_of_run (h : lexemes.foldlM (step limit) progress = .ok next) :
    next.place.depth + (lexemes.map Lexeme.kind).count .closing =
      progress.place.depth + (lexemes.map Lexeme.kind).count .opening := by
  induction lexemes generalizing progress with
  | nil =>
    cases h
    rfl
  | cons lexeme lexemes ih =>
    rw [List.foldlM_cons] at h
    obtain ⟨mid, hstep, hrest⟩ := bind_eq_ok_iff.mp h
    have hfirst := depth_of_step hstep
    have hothers := ih hrest
    rw [List.map_cons, ← List.singleton_append, List.count_append, List.count_append]
    omega

/-! ### A run under a limit -/

/-- Under a limit, the parser never stands deeper than that. -/
theorem depth_le_of_step (hlimit : limit ≠ 0) (hdepth : progress.place.depth ≤ limit)
    (h : step limit progress lexeme = .ok next) : next.place.depth ≤ limit := by
  by_cases hkind : lexeme.kind = .opening
  · obtain ⟨frames, -, hroom, rfl⟩ := (step_opening_iff hkind).mp h
    exact hroom.resolve_left hlimit
  · have hcount := depth_of_step h
    have hnone : [lexeme.kind].count .opening = 0 :=
      List.count_eq_zero.mpr (by simpa using Ne.symm hkind)
    omega

theorem depth_le_of_run (hlimit : limit ≠ 0) (hdepth : progress.place.depth ≤ limit)
    (h : lexemes.foldlM (step limit) progress = .ok next) : next.place.depth ≤ limit := by
  induction lexemes generalizing progress with
  | nil =>
    cases h
    exact hdepth
  | cons lexeme lexemes ih =>
    rw [List.foldlM_cons] at h
    obtain ⟨mid, hstep, hrest⟩ := bind_eq_ok_iff.mp h
    exact ih (depth_le_of_step hlimit hdepth hstep) hrest

/-- A bracket opens under a limit as it does without one, unless as many are open as may be. -/
theorem openBracket_cases (hlimit : limit ≠ 0) (outer : List Frame) (span : Span)
    (hdepth : outer.length ≤ limit) :
    openBracket limit outer span = openBracket 0 outer span ∨
      outer.length = limit ∧
        openBracket limit outer span = .error (.nestingTooDeep limit span) := by
  unfold openBracket
  by_cases hfull : outer.length = limit
  · exact .inr ⟨hfull, if_pos (by omega)⟩
  · rw [if_neg (by omega), if_neg (by omega)]
    exact .inl rfl

/-- A lexeme is read under a limit as it is without one, unless it opens a bracket where as many are
open as may be. -/
theorem step_cases (hlimit : limit ≠ 0) (hdepth : progress.place.depth ≤ limit) (lexeme : Lexeme) :
    step limit progress lexeme = step 0 progress lexeme ∨
      lexeme.kind = .opening ∧ progress.place.depth = limit ∧
        (∃ next, step 0 progress lexeme = .ok next) ∧
        step limit progress lexeme = .error (.nestingTooDeep limit lexeme.span) := by
  by_cases hkind : lexeme.kind = .opening
  · obtain ⟨rules, place⟩ := progress
    rcases place.within_or_closed with ⟨frames, rfl⟩ | ⟨frame, outer, closing, rfl⟩
    · rw [Place.depth_within] at hdepth ⊢
      simp only [step_within hkind]
      rcases openBracket_cases hlimit frames lexeme.span hdepth with h | ⟨hfull, h⟩
      · exact .inl (by rw [h])
      · exact .inr ⟨hkind, hfull, ⟨_, rfl⟩, by rw [h]; rfl⟩
    · exact .inl rfl
  · exact .inl (step_eq_of_ne_opening hkind limit 0 progress)

/-- A run under a limit goes as it does without one, as far as that gets; or it stops at a bracket
that opens where as many are open as may be. -/
theorem foldlM_step_cases (hlimit : limit ≠ 0) (hdepth : progress.place.depth ≤ limit)
    (lexemes : List Lexeme) :
    (lexemes.foldlM (step limit) progress = lexemes.foldlM (step 0) progress ∧
        ∀ front back reached, lexemes = front ++ back →
          front.foldlM (step 0) progress = .ok reached →
            front.foldlM (step limit) progress = .ok reached) ∨
      ∃ front lexeme back mid, lexemes = front ++ lexeme :: back ∧ lexeme.kind = .opening ∧
        front.foldlM (step limit) progress = .ok mid ∧ mid.place.depth = limit ∧
        (∃ next, step 0 mid lexeme = .ok next) ∧
        lexemes.foldlM (step limit) progress = .error (.nestingTooDeep limit lexeme.span) := by
  induction lexemes generalizing progress with
  | nil =>
    refine .inl ⟨rfl, fun front back reached hnil hrun => ?_⟩
    obtain ⟨rfl, -⟩ := List.append_eq_nil_iff.mp hnil.symm
    exact hrun
  | cons lexeme lexemes ih =>
    simp only [List.foldlM_cons]
    rcases step_cases hlimit hdepth lexeme with hsame | ⟨hkind, hfull, hnext, herror⟩
    · cases hstep : step 0 progress lexeme with
      | error e =>
        rw [hsame, hstep]
        refine .inl ⟨rfl, fun front back reached hsplit hrun => ?_⟩
        cases front with
        | nil => exact hrun
        | cons first front =>
          obtain ⟨rfl, -⟩ := List.cons.inj hsplit
          rw [List.foldlM_cons, hstep] at hrun
          cases hrun
      | ok next =>
        -- Both runs take this step, and part later if they do.
        rw [hstep] at hsame
        rw [hsame]
        rcases ih (depth_le_of_step hlimit hdepth hsame) with
          ⟨hrest, hfronts⟩ | ⟨front, deep, back, mid, rfl, hkind, hfront, hfull, hnext, herror⟩
        · refine .inl ⟨hrest, fun front back reached hsplit hrun => ?_⟩
          cases front with
          | nil => exact hrun
          | cons first front =>
            obtain ⟨rfl, hlexemes⟩ : lexeme = first ∧ lexemes = front ++ back :=
              List.cons.inj hsplit
            rw [List.foldlM_cons, hstep] at hrun
            rw [List.foldlM_cons, hsame]
            exact hfronts front back reached hlexemes hrun
        · refine .inr ⟨lexeme :: front, deep, back, mid, rfl, hkind, ?_, hfull, hnext, herror⟩
          rw [List.foldlM_cons, hsame]
          exact hfront
    · refine .inr ⟨[], lexeme, lexemes, progress, rfl, hkind, rfl, hfull, hnext, ?_⟩
      rw [herror]
      rfl

end CommandShell.Grammar
