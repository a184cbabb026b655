import CommandShell.Session.Style
import CommandShell.Shell.Basic

/-!
# Sessions

A session reads lines, executes them in a shell, and prints what they answer. A line that ends in
`?` is completed instead. Failing lines are reported and the session goes on; it stops at a line
that leaves the shell, or at the end of its input.

## Main definitions

* `Session` — a shell with the style of its output
* `Flow`, `Response` — how a line went, and what it printed
* `Session.line` — one line
* `Session.run` — the lines of an input, with a prompt before each
* `inputLines` — the lines of an input of bytes
-/

namespace CommandShell

/-- How a line went. -/
inductive Flow
  | continue
  | failed
  | exit
  deriving DecidableEq, Repr

/-- How a line went, and what it printed to the output and to the error output. -/
structure Response where
  flow : Flow
  output : String
  errors : String
  deriving DecidableEq, Repr

/-- A shell with the style of what is printed. -/
structure Session where
  shell : Shell
  style : Style

namespace Session

/-- What is printed for a line still being typed: a line of help and a line of candidates, each
only if there are any. -/
def completionText (session : Session) (typed : String) : String :=
  let completion := session.shell.complete typed
  let help :=
    if completion.toolbar.isEmpty then ""
    else session.style.paint .context completion.toolbar ++ "\n"
  let candidates :=
    if completion.candidates.isEmpty then ""
    else "  ".intercalate (completion.candidates.map (session.style.paint .literal)) ++ "\n"
  help ++ candidates

/-- What is printed for a line that failed: the fault shown in the line, or the bare message. -/
def report (session : Session) (line : String) (e : ShellError) : String :=
  session.style.diagnostic ((e.diagnostic? line).getD ("error: " ++ e.message)) ++ "\n"

/-- Executes or completes one line. -/
def line (session : Session) (line : String) : Response × Session :=
  match Text.dropClosing? ['?'] line.toList with
  | some typed => (⟨.continue, session.completionText (.ofList typed), ""⟩, session)
  | none =>
    let (result, shell) := session.shell.execute line
    let response : Response :=
      match result with
      | .ok (.output text) => ⟨.continue, text ++ "\n", ""⟩
      | .ok .silent => ⟨.continue, "", ""⟩
      | .ok .exit => ⟨.exit, "", ""⟩
      | .error e => ⟨.failed, "", session.report line e⟩
    (response, { session with shell })

/-- What a session printed, and how many of its lines failed. -/
structure Transcript where
  output : String
  errors : String
  failures : Nat
  /-- The input held a line that is no text, at which the session stopped. -/
  unreadable : Bool
  deriving DecidableEq, Repr

/-- A transcript with a prompt and a response in front. -/
def Transcript.after (prompt : String) (response : Response) (rest : Transcript) : Transcript where
  output := prompt ++ response.output ++ rest.output
  errors := response.errors ++ rest.errors
  failures := rest.failures + (if response.flow = .failed then 1 else 0)
  unreadable := rest.unreadable

/-- What is printed before a line is read. -/
def promptText (session : Session) (quiet : Bool) : String :=
  if quiet then "" else session.shell.config.prompt

/-- Runs the lines of an input, some of which may be no text. A quiet session prints no prompt. -/
def run (session : Session) (quiet : Bool) : List (Option String) → Transcript
  | [] => ⟨session.promptText quiet, "", 0, false⟩
  | none :: _ => ⟨session.promptText quiet, "", 0, true⟩
  | some text :: lines =>
    let (response, next) := session.line text
    -- Once a line leaves the shell, not even a prompt is printed.
    let rest := if response.flow = .exit then ⟨"", "", 0, false⟩ else next.run quiet lines
    rest.after (session.promptText quiet) response

end Session

/-! ### Input -/

/-- The text of a line of bytes, if it is one. -/
def textOfBytes? (bytes : List UInt8) : Option String := String.fromUTF8? ⟨bytes.toArray⟩

/-- The text of a line of bytes given last first, with its line feed, if it is a text. The line
break is not part of it. -/
def closeInputLine (bytes : List UInt8) : Option String :=
  match bytes with
  | 10 :: 13 :: bytes => textOfBytes? bytes.reverse
  | 10 :: bytes => textOfBytes? bytes.reverse
  | bytes => textOfBytes? bytes.reverse

/-- The lines of an input whose open line has the bytes `line` so far, last first. -/
def inputLinesFrom (line : List UInt8) : List UInt8 → List (Option String)
  | [] => if line.isEmpty then [] else [closeInputLine line]
  | byte :: bytes =>
    if byte = 10 then closeInputLine (byte :: line) :: inputLinesFrom [] bytes
    else inputLinesFrom (byte :: line) bytes

/-- The lines of an input of bytes, without their line breaks; a line that is no UTF-8 text is
`none`. -/
def inputLines (bytes : List UInt8) : List (Option String) := inputLinesFrom [] bytes

end CommandShell
