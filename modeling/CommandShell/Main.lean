import CommandShell.Program.Run

/-!
# The program

Reads the command line, the environment, the settings file and the lines of the input, and prints
what the session answers, line by line.
-/

namespace CommandShell.Main

/-- The variables of the environment that the program reads. -/
def readEnvironment : IO Program.Environment := do
  let names := ["JC_CONFIG", "JC_PROMPT", "NO_COLOR", "COLOR"]
  let values ← names.mapM fun name => return (name, ← IO.getEnv name)
  return fun name => (values.lookup name).bind id

/-- The number of an error. Opening a file gives it with a minus sign, in 32 bits. -/
def codeOf : IO.Error → Nat
  | .noFileOrDirectory _ code _ | .noSuchThing _ code _ | .permissionDenied _ code _
  | .inappropriateType _ code _ | .invalidArgument _ code _ => code.toInt32.toInt.natAbs
  | _ => 0

/-- The reason why a file cannot be read. -/
def reasonOf (e : IO.Error) : Program.FileFault :=
  (Program.FileFault.ofCode? (codeOf e)).getD (.other (toString e))

/-- The text of the settings file, or why it cannot be read. -/
def readConfig (path : String) : IO (Except Program.Fault String) := do
  let fault := Program.Fault.unreadableConfig path
  try
    match String.fromUTF8? (← IO.FS.readBinFile path) with
    | some text => return .ok text
    | none => return .error (fault .notText)
  catch e => return .error (fault (reasonOf e))

/-- The bytes of the next line of the input, last first and after those in `line`; none at the end
of the input. -/
partial def readLine (input : IO.FS.Stream) (line : List UInt8) : IO (List UInt8) := do
  match (← input.read 1).toList with
  | byte :: _ => if byte = 10 then return byte :: line else readLine input (byte :: line)
  | [] => return line

/-- Prints what is written to the two outputs. -/
def print (output errors : String) : IO Unit := do
  let stdout ← IO.getStdout
  stdout.putStr output
  stdout.flush
  IO.eprint errors

/-- Reads a line of the input, which may be no text; none at its end. -/
def nextLine : IO (Option (Option String)) := do
  let bytes ← readLine (← IO.getStdin) []
  return if bytes.isEmpty then none else some (closeInputLine bytes)

/-- Goes on with a run until it ends, or its input does. -/
partial def serve (stage : Program.Stage) : IO UInt32 := do
  match stage with
  | .ended code => return code.toUInt32
  | .reading session quiet =>
    print stage.prompt ""
    match ← nextLine with
    | none => return stage.code.toUInt32
    | some line =>
      let turn := Program.proceed session quiet line
      print turn.output turn.errors
      serve turn.stage

end CommandShell.Main

open CommandShell

def main (args : List String) : IO UInt32 := do
  let env ← Main.readEnvironment
  let document ← (Program.settingsPath? args env).mapM Main.readConfig
  let terminal ← (← IO.getStdout).isTty
  let turn := Program.start args env terminal document
  Main.print turn.output turn.errors
  Main.serve turn.stage
