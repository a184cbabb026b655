import CommandShell.Proofs.Shell.Demo
import CommandShell.Session.Basic

/-!
# Lines that fail

A line that fails prints nothing to the output and leaves the session as it was. If moreover no line
influences another, then a session goes on as if its failing lines had not been there: all other
lines are executed in the same order and get the same responses, up to the same line that leaves
the shell.

## Main definitions

* `Session.steps` — the lines that are executed, with their responses
* `Session.after` — the session after the lines of an input
* `Session.fails`, `Session.withoutFailing` — the line fails, and an input without the lines that do

## Main results

* `Session.output_run`, `Session.failures_run` — what a session prints, and how often it fails
* `Session.exists_line_eq` — a line with any candidate cache
* `Session.steps_withoutFailing` — the lines that are executed if the failing ones are left out
* `Session.output_run_withoutFailing` — what is printed then
* `Demo.failing_lines_removed` — sessions of the demonstration shell without their failing lines
-/

namespace CommandShell.Session

variable {session : Session} {notes : String → List (String × String)} {text : String}
  {lines : List (Option String)}

/-! ### Steps -/

/-- The lines of an input that are executed, with their responses: those up to the first that leaves
the shell, or that is no text. -/
def steps (session : Session) : List (Option String) → List (String × Response)
  | [] | none :: _ => []
  | some text :: lines =>
    let (response, next) := session.line text
    (text, response) :: if response.flow = .exit then [] else next.steps lines

/-- The session after the lines of an input. -/
def after (session : Session) : List (Option String) → Session
  | [] | none :: _ => session
  | some text :: lines =>
    let (response, next) := session.line text
    if response.flow = .exit then next else next.after lines

theorem steps_cons (session : Session) (text : String) (lines : List (Option String)) :
    session.steps (some text :: lines) = (text, (session.line text).1) ::
      if (session.line text).1.flow = .exit then [] else (session.line text).2.steps lines := rfl

theorem after_cons (session : Session) (text : String) (lines : List (Option String)) :
    session.after (some text :: lines) =
      if (session.line text).1.flow = .exit then (session.line text).2
      else (session.line text).2.after lines := rfl

/-- A quiet session prints the responses of the lines that are executed. -/
theorem output_run (session : Session) (lines : List (Option String)) :
    (session.run true lines).output = String.join ((session.steps lines).map (·.2.output)) := by
  induction lines generalizing session with
  | nil => rfl
  | cons line lines ih =>
    cases line with
    | none => rfl
    | some text =>
      rw [run, steps_cons]
      dsimp only
      split
      · simp [Transcript.after, promptText]
      · simp [Transcript.after, promptText, ih]

/-- A session counts the lines that are executed and fail. -/
theorem failures_run (session : Session) (quiet : Bool) (lines : List (Option String)) :
    (session.run quiet lines).failures =
      (session.steps lines).countP (·.2.flow = .failed) := by
  induction lines generalizing session with
  | nil => rfl
  | cons line lines ih =>
    cases line with
    | none => rfl
    | some text =>
      rw [run, steps_cons]
      dsimp only
      split
      · rename_i hexit
        simp [Transcript.after, hexit]
      · simp [Transcript.after, ih, List.countP_cons]

/-! ### One line -/

/-- The line fails. -/
def fails (session : Session) (text : String) : Bool := (session.line text).1.flow = .failed

/-- The session with another candidate cache. -/
def withCache (session : Session) (cache : CandidateCache) : Session :=
  { session with shell := session.shell.withCache cache }

/-- A line that fails prints nothing to the output. -/
theorem output_of_failed (h : (session.line text).1.flow = .failed) :
    (session.line text).1.output = "" := by
  unfold line at h ⊢
  split at h
  · cases h
  · dsimp only at h ⊢
    split at h
    all_goals first | rfl | cases h

/-- A line goes in the same way with any candidate cache. If it fails, it prints nothing to the
output and leaves the session as it was. -/
theorem exists_line_eq (h : session.shell.Steady notes) (text : String) (cache : CandidateCache) :
    ∃ response cache', (session.withCache cache).line text = (response, session.withCache cache') ∧
      response.flow = (session.line text).1.flow ∧
      (response.flow = .failed → response.output = "" ∧ cache' = cache) := by
  unfold line
  cases hclosing : Text.dropClosing? ['?'] text.toList with
  | some typed => exact ⟨_, cache, rfl, rfl, nofun⟩
  | none =>
    have hexecute : (session.withCache cache).shell.execute text = _ := h.execute_eq text cache
    dsimp only
    rw [hexecute]
    cases hself : session.shell.execute text with
    | mk result shell =>
      refine ⟨_, cache.addAll (notes text), rfl, ?_, ?_⟩
      · cases result with
        | error e => rfl
        | ok outcome => cases outcome <;> rfl
      · intro hfailed
        cases result with
        | error e =>
          rw [h.notes_of_error text e (congrArg Prod.fst hself)]
          exact ⟨rfl, rfl⟩
        | ok outcome => cases outcome <;> cases hfailed

/-- No executed line that fails prints anything to the output. -/
theorem output_of_mem_steps {step : String × Response} (h : step ∈ session.steps lines)
    (hfailed : step.2.flow = .failed) : step.2.output = "" := by
  induction lines generalizing session with
  | nil => exact absurd h List.not_mem_nil
  | cons line lines ih =>
    cases line with
    | none => exact absurd h List.not_mem_nil
    | some text =>
      rw [steps_cons] at h
      rcases List.mem_cons.mp h with rfl | h
      · exact output_of_failed hfailed
      · by_cases hexit : (session.line text).1.flow = .exit
        · rw [if_pos hexit] at h
          exact absurd h List.not_mem_nil
        · rw [if_neg hexit] at h
          exact ih h

/-! ### Sessions without their failing lines -/

/-- The lines of an input that do not fail. -/
def withoutFailing (session : Session) (lines : List (Option String)) : List (Option String) :=
  lines.filter fun line => !line.any session.fails

theorem withoutFailing_cons (text : String) (lines : List (Option String)) :
    session.withoutFailing (some text :: lines) =
      if (session.line text).1.flow = .failed then session.withoutFailing lines
      else some text :: session.withoutFailing lines := by
  rw [withoutFailing, List.filter_cons]
  by_cases h : (session.line text).1.flow = .failed <;> simp [fails, h, withoutFailing]

/-- The session after many lines is the same but for its candidate cache. -/
theorem exists_after_eq (h : session.shell.Steady notes) (lines : List (Option String))
    (cache : CandidateCache) :
    ∃ cache', (session.withCache cache).after lines = session.withCache cache' := by
  induction lines generalizing cache with
  | nil => exact ⟨cache, rfl⟩
  | cons line lines ih =>
    cases line with
    | none => exact ⟨cache, rfl⟩
    | some text =>
      obtain ⟨response, cache', hline, -, -⟩ := exists_line_eq h text cache
      rw [after_cons, hline]
      split
      · exact ⟨cache', rfl⟩
      · exact ih cache'

/-- Without its failing lines a session executes the other lines with the same responses, and comes
to the same end. -/
theorem steps_withoutFailing (h : session.shell.Steady notes) (lines : List (Option String))
    (cache : CandidateCache) :
    (session.withCache cache).steps (session.withoutFailing lines) =
        ((session.withCache cache).steps lines).filter (·.2.flow ≠ .failed) ∧
      (session.withCache cache).after (session.withoutFailing lines) =
        (session.withCache cache).after lines := by
  induction lines generalizing cache with
  | nil => exact ⟨rfl, rfl⟩
  | cons line lines ih =>
    cases line with
    | none => exact ⟨rfl, rfl⟩
    | some text =>
      obtain ⟨response, cache', hline, hflow, hfailed⟩ := exists_line_eq h text cache
      by_cases hfails : response.flow = .failed
      · obtain ⟨-, rfl⟩ := hfailed hfails
        have hcontinue : response.flow ≠ .exit := by simp [hfails]
        rw [withoutFailing_cons, if_pos (hflow.symm.trans hfails), steps_cons, after_cons, hline]
        simpa [hfails, hcontinue] using ih cache'
      · rw [withoutFailing_cons, if_neg fun h => hfails (hflow.trans h), steps_cons, after_cons,
          steps_cons, after_cons, hline]
        split
        · simp [hfails]
        · simpa [hfails] using ih cache'

/-- Without its failing lines a session prints the same to the output. -/
theorem output_run_withoutFailing (h : session.shell.Steady notes)
    (lines : List (Option String)) :
    (session.run true (session.withoutFailing lines)).output = (session.run true lines).output := by
  have hsteps : session.steps (session.withoutFailing lines) =
      (session.steps lines).filter (·.2.flow ≠ .failed) :=
    (steps_withoutFailing h lines session.shell.cache).1
  rw [output_run, output_run, hsteps]
  have hempty : ∀ step ∈ session.steps lines, step.2.flow = .failed → step.2.output = "" :=
    fun _ hmem => output_of_mem_steps hmem
  generalize session.steps lines = steps at hempty
  induction steps with
  | nil => rfl
  | cons step steps ih =>
    obtain ⟨hstep, hsteps⟩ := List.forall_mem_cons.mp hempty
    rw [List.filter_cons]
    by_cases hfailed : step.2.flow = .failed
    · simpa [hfailed, hstep hfailed] using ih hsteps
    · simpa [hfailed] using ih hsteps

end CommandShell.Session

namespace CommandShell.Demo

/-- For any settings and any style of output, a line of the demonstration shell that fails prints
nothing to the output and leaves the session as it was, and whether it fails does not depend on the
lines before it. A quiet session without its failing lines prints the same and ends in the same
shell. It executes the lines that remain with the same responses, up to the same line that leaves
the shell. None of them fails, and the number of failures of the whole session is that of the
failing lines that are executed. -/
theorem failing_lines_removed (config : ShellConfig) (style : Style) :
    ∃ shell, Program.demoShell config = .ok shell ∧
      let session : Session := ⟨shell, style⟩
      (∀ before text, let reached := session.after before
        (reached.line text).1.flow = (session.line text).1.flow ∧
        ((reached.line text).1.flow = .failed →
          (reached.line text).1.output = "" ∧ (reached.line text).2 = reached)) ∧
      ∀ lines, let kept := session.withoutFailing lines
        (session.run true kept).output = (session.run true lines).output ∧
        session.after kept = session.after lines ∧
        session.steps kept = (session.steps lines).filter (·.2.flow ≠ .failed) ∧
        (session.run true kept).failures = 0 ∧
        (session.run true lines).failures =
          (session.steps lines).countP (·.2.flow = .failed) := by
  obtain ⟨shell, hshell, hserves⟩ := exists_demoShell config
  have hsteady : Session.shell ⟨shell, style⟩ |>.Steady (notes shell) := hserves.steady
  refine ⟨shell, hshell, fun before text => ?_, fun lines => ?_⟩
  · obtain ⟨cache, hafter⟩ := Session.exists_after_eq hsteady before shell.cache
    obtain ⟨response, cache', hline, hflow, hfailed⟩ := Session.exists_line_eq hsteady text cache
    have hreached : Session.after ⟨shell, style⟩ before =
        Session.withCache ⟨shell, style⟩ cache := hafter
    dsimp only
    rw [hreached, hline]
    refine ⟨hflow, fun h => ?_⟩
    obtain ⟨houtput, rfl⟩ := hfailed h
    exact ⟨houtput, rfl⟩
  · obtain ⟨hsteps, hafter⟩ := Session.steps_withoutFailing hsteady lines shell.cache
    refine ⟨Session.output_run_withoutFailing hsteady lines, hafter, hsteps, ?_,
      Session.failures_run _ true lines⟩
    have hkept : Session.steps ⟨shell, style⟩ (Session.withoutFailing ⟨shell, style⟩ lines) = _ :=
      hsteps
    rw [Session.failures_run, hkept, List.countP_filter, List.countP_eq_zero]
    intro step _
    simp

/-- Lines of which two fail before the session is left, and one comes too late. -/
def tenantLines : List (Option String) :=
  ["tenant new", "tenant", "nope", "exit", "tenant late"].map some

/-- Without the two failing lines the new tenant is printed as with them. -/
theorem failing_lines_removed_tenants :
    ∃ shell, Program.demoShell {} = .ok shell ∧
      let session : Session := ⟨shell, ⟨false⟩⟩
      (session.line "nope").2 = session ∧
        (session.run true (session.withoutFailing tenantLines)).output =
          "\x7b\"tname\":\"new\",\"tid\":0\x7d\n" ∧
        (session.run true tenantLines).failures = 2 := by
  obtain ⟨shell, hshell, hline, hlines⟩ := failing_lines_removed {} ⟨false⟩
  obtain ⟨houtput, -, -, -, hfailures⟩ := hlines tenantLines
  have hview : (Program.demoShell {}).toOption.map (fun shell =>
      ((Session.line ⟨shell, ⟨false⟩⟩ "nope").1.flow,
        (Session.run ⟨shell, ⟨false⟩⟩ true tenantLines).output,
        (Session.steps ⟨shell, ⟨false⟩⟩ tenantLines).countP (·.2.flow = .failed))) =
      some (.failed, "\x7b\"tname\":\"new\",\"tid\":0\x7d\n", 2) := by
    decide +kernel
  rw [hshell, Except.toOption, Option.map_some, Option.some.injEq, Prod.mk.injEq, Prod.mk.injEq]
    at hview
  obtain ⟨hflow, hprinted, hcount⟩ := hview
  exact ⟨shell, hshell, ((hline [] "nope").2 hflow).2, houtput.trans hprinted,
    hfailures.trans hcount⟩

end CommandShell.Demo
