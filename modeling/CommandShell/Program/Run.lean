import CommandShell.Demo
import CommandShell.Program.Options
import CommandShell.Session.Basic

/-!
# Running the program

The program opens a session with the demonstration commands, as its options, the variables of its
environment and its settings file say, and runs one line or all lines of its input.

## Main definitions

* `Program.Environment`, `Program.Report` — what the program is given, and what it leaves behind
* `Program.FileFault`, `Program.Fault` — why a file cannot be read, and why the program gives up
* `Program.configPath?`, `Program.session` — the settings file, and the session it opens
* `Program.Stage`, `Program.Turn` — where a run stands, and what a step prints and leads to
* `Program.start`, `Program.proceed` — the steps of a run: up to its first line, and one line
* `Program.run` — the program from its arguments and its input to its output and exit code

## Main results

* `Program.Stage.report_reading` — the steps of a run, line by line, are those of its session
-/

namespace CommandShell.Program

/-- The version that the program reports. -/
def versionText : String := "jc 0.1.0\n"

/-- The short help that the program prints. -/
def helpText : String :=
  "Grammar-driven interactive command shell\n\n" ++
    "Usage: jc [OPTIONS]\n\n" ++
    "Options:\n" ++
    "      --config <PATH>   Shell config file (TOML). Defaults to $JC_CONFIG\n" ++
    "      --prompt <TEXT>   Prompt text. Overrides the config file and $JC_PROMPT\n" ++
    "  -c, --command <LINE>  Run one line and exit\n" ++
    "  -q, --quiet           Do not print the prompt\n" ++
    "  -h, --help            Print help\n" ++
    "  -V, --version         Print version\n\n" ++
    "End a line with '?' to list what can come next instead of running it.\n"

/-- The variables of the environment, by name. -/
abbrev Environment := String → Option String

/-- The output, the error output and the exit code of a run. -/
structure Report where
  code : Nat
  output : String
  errors : String
  deriving DecidableEq, Repr

/-- Why a file cannot be read. -/
inductive FileFault
  /-- It does not exist. -/
  | missing
  /-- It belongs to a device that is not there. -/
  | noDevice
  /-- Reading it is not allowed. -/
  | denied
  /-- A name on the way to it is not that of a directory. -/
  | notDirectory
  /-- It is a directory itself. -/
  | directory
  /-- Its path, or a name in its path, is too long. -/
  | nameTooLong
  /-- The links on the way to it go in circles. -/
  | linkLoop
  /-- Its bytes are no text. -/
  | notText
  /-- Something else, in the words of the system. -/
  | other (text : String)
  deriving DecidableEq, Repr

namespace FileFault

/-- The number of the fault, for those that the system numbers. -/
def code? : FileFault → Option Nat
  | missing => some 2
  | noDevice => some 6
  | denied => some 13
  | notDirectory => some 20
  | directory => some 21
  | nameTooLong => some 36
  | linkLoop => some 40
  | notText | other _ => none

/-- The fault with a number. -/
def ofCode? (code : Nat) : Option FileFault :=
  [missing, noDevice, denied, notDirectory, directory, nameTooLong, linkLoop].find?
    (·.code? == some code)

/-- What the fault is called. -/
def describe : FileFault → String
  | missing => "No such file or directory"
  | noDevice => "No such device or address"
  | denied => "Permission denied"
  | notDirectory => "Not a directory"
  | directory => "Is a directory"
  | nameTooLong => "File name too long"
  | linkLoop => "Too many levels of symbolic links"
  | notText => "stream did not contain valid UTF-8"
  | other text => text

def message (fault : FileFault) : String :=
  match fault.code? with
  | some code => fault.describe ++ " (os error " ++ toString code ++ ")"
  | none => fault.describe

theorem ofCode?_eq_some_iff {code : Nat} {fault : FileFault} :
    ofCode? code = some fault ↔ fault.code? = some code := by
  constructor
  · intro h
    simpa using List.find?_some h
  · cases fault <;> simp only [code?, Option.some.injEq, reduceCtorEq, false_implies] <;>
      rintro rfl <;> rfl

end FileFault

/-- Why the program gives up. -/
inductive Fault
  /-- The settings file cannot be read. -/
  | unreadableConfig (path : String) (reason : FileFault)
  /-- The settings file is no valid TOML document, or one with settings that do not exist. -/
  | invalidConfig
  /-- The shell cannot be set up. -/
  | setup (inner : ShellError)
  /-- A line of the input is no text. -/
  | unreadableInput

namespace Fault

def message : Fault → String
  | unreadableConfig path reason => "failed to read config " ++ path ++ ": " ++ reason.message
  | invalidConfig => "invalid config: not a TOML document with shell settings"
  | setup inner => inner.message
  | unreadableInput => FileFault.notText.message

/-- What the program prints about the fault. -/
def text (fault : Fault) : String := "Error: " ++ fault.message ++ "\n"

end Fault

/-- What the program leaves behind if it stops at its options. -/
def stopReport : Options.Stop → Report
  | .usage => ⟨2, "", "error: invalid arguments\n\nUsage: jc [OPTIONS]\n"⟩
  | .version => ⟨0, versionText, ""⟩
  | .help => ⟨0, helpText, ""⟩

/-- Output is painted if `COLOR` asks for it and `NO_COLOR` does not refuse it; each counts if it
is `1`. `terminal` says whether output is painted if neither counts. -/
def styleOf (env : Environment) (terminal : Bool) : Style :=
  ⟨env "NO_COLOR" ≠ some "1" && (env "COLOR" = some "1" || terminal)⟩

/-- The settings file that the options name, or else the environment. -/
def configPath? (options : Options) (env : Environment) : Option String :=
  options.config.or ((env "JC_CONFIG").filter (!·.isEmpty))

/-- The settings in the text of the settings file, if there is one. The prompt can come from the
options or from the environment instead. -/
def settings (options : Options) (env : Environment) (document : Option String) :
    Except Fault ShellConfig :=
  let config : Except Fault ShellConfig :=
    match document with
    | none => .ok {}
    | some text =>
      match ShellConfig.ofToml? text with
      | some config => .ok config
      | none => .error .invalidConfig
  config.map fun config =>
    match options.prompt.or (env "JC_PROMPT") with
    | some prompt => { config with prompt }
    | none => config

/-- The shell with the demonstration commands that settings describe. -/
def demoShell (config : ShellConfig) : Except ShellError Shell :=
  (Shell.ofConfig config).bind fun shell =>
    match Demo.register shell with
    | (shell, none) => .ok shell
    | (_, some e) => .error e

/-- The session that the options, the environment and the settings file describe; `document` is
the text of that file, or the reason why it cannot be read. -/
def session (options : Options) (env : Environment) (terminal : Bool)
    (document : Option (Except Fault String)) : Except Fault Session := do
  let document ←
    match document with
    | none => .ok none
    | some result => result.map some
  let config ← settings options env document
  let shell ← (demoShell config).mapError .setup
  return ⟨shell, styleOf env terminal⟩

/-- What a session leaves behind after one line. -/
def lineReport (session : Session) (line : String) : Report :=
  let response := (session.line line).1
  ⟨if response.flow = .failed then 1 else 0, response.output, response.errors⟩

/-- What a session leaves behind after all lines of an input. Failing lines do not change the exit
code, but input that is no text does. -/
def inputReport (session : Session) (quiet : Bool) (lines : List (Option String)) : Report :=
  let transcript := session.run quiet lines
  if transcript.unreadable then
    ⟨1, transcript.output, transcript.errors ++ Fault.unreadableInput.text⟩
  else ⟨0, transcript.output, transcript.errors⟩

/-! ### Steps of a run -/

/-- Where a run of the program stands. -/
inductive Stage
  /-- A session reads its next line. -/
  | reading (session : Session) (quiet : Bool)
  /-- The program has ended with an exit code. -/
  | ended (code : Nat)

/-- What a step of a run prints, and where the run stands then. -/
structure Turn where
  output : String
  errors : String
  stage : Stage

/-- The step with which the program ends. -/
def Turn.last (report : Report) : Turn := ⟨report.output, report.errors, .ended report.code⟩

/-- The settings file that the program reads with these arguments. -/
def settingsPath? (args : List String) (env : Environment) : Option String :=
  (Options.parse args).toOption.bind (configPath? · env)

/-- The run up to its first line; `document` is what the settings file holds. -/
def start (args : List String) (env : Environment) (terminal : Bool)
    (document : Option (Except Fault String)) : Turn :=
  match Options.parse args with
  | .error stop => .last (stopReport stop)
  | .ok options =>
    match session options env terminal document with
    | .error fault => .last ⟨1, "", fault.text⟩
    | .ok session =>
      match options.command with
      | some line => .last (lineReport session line)
      | none => ⟨"", "", .reading session options.quiet⟩

/-- What a session does with a line of the input, which may be no text. -/
def proceed (session : Session) (quiet : Bool) : Option String → Turn
  | none => .last ⟨1, "", Fault.unreadableInput.text⟩
  | some line =>
    let (response, next) := session.line line
    ⟨response.output, response.errors,
      if response.flow = .exit then .ended 0 else .reading next quiet⟩

namespace Stage

/-- What is printed before the next line is read. -/
def prompt : Stage → String
  | reading session quiet => session.promptText quiet
  | ended _ => ""

/-- The exit code if no line follows. -/
def code : Stage → Nat
  | reading .. => 0
  | ended code => code

/-- What a run leaves behind that reads these lines. -/
def report (stage : Stage) (lines : List (Option String)) : Report :=
  match stage, lines with
  | ended _, _ | reading .., [] => ⟨stage.code, stage.prompt, ""⟩
  | reading session quiet, line :: lines =>
    let turn := proceed session quiet line
    let rest := turn.stage.report lines
    ⟨rest.code, stage.prompt ++ turn.output ++ rest.output, turn.errors ++ rest.errors⟩

/-- A run that reads lines one by one leaves behind what its session does with all of them. -/
theorem report_reading (session : Session) (quiet : Bool) (lines : List (Option String)) :
    (reading session quiet).report lines = inputReport session quiet lines := by
  induction lines generalizing session with
  | nil => rfl
  | cons line lines ih =>
    cases line with
    | none => simp [report, proceed, Turn.last, prompt, code, inputReport, Session.run]
    | some text =>
      rw [report, proceed, inputReport, Session.run]
      dsimp only
      split
      · simp [report, prompt, code, Session.Transcript.after]
      · rw [ih, inputReport, Session.Transcript.after]
        split <;> simp [*, prompt, String.append_assoc]

end Stage

/-- The run of the program with these arguments. Files are read by `readFile`, which gives the text
of a file or the reason why it cannot be read, and the input comes as lines. -/
def run (args : List String) (env : Environment) (terminal : Bool)
    (readFile : String → Except FileFault String) (lines : List (Option String)) : Report :=
  let document := (settingsPath? args env).map fun path =>
    (readFile path).mapError (.unreadableConfig path)
  let turn := start args env terminal document
  let rest := turn.stage.report lines
  ⟨rest.code, turn.output ++ rest.output, turn.errors ++ rest.errors⟩

end CommandShell.Program
