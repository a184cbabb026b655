/-!
# Command line options

The options of the program. An option with a value takes it from the same argument, behind `=` or,
for a single letter, right behind the letter, or from the next argument if that does not look like
an option. No option may be given twice, and there are no other arguments.

## Main definitions

* `Options` — what the command line says
* `Options.Stop` — why the program does not go on to its work
* `Options.parse` — the options of a list of arguments
-/

namespace CommandShell

/-- What the command line says. -/
structure Options where
  /-- The file with the settings. -/
  config : Option String := none
  /-- The prompt. -/
  prompt : Option String := none
  /-- The only line to run. -/
  command : Option String := none
  /-- No prompt is printed. -/
  quiet : Bool := false
  deriving DecidableEq, Repr

namespace Options

/-- The options that take a value. -/
inductive Setting
  | config
  | prompt
  | command
  deriving DecidableEq, Repr

/-- Why the program does not go on to its work. -/
inductive Stop
  /-- The arguments make no sense. -/
  | usage
  /-- The version was asked for. -/
  | version
  /-- Help was asked for. -/
  | help
  deriving DecidableEq, Repr

/-- What the next argument is expected to be. -/
inductive Expecting
  /-- An option. -/
  | option
  /-- The value of an option. -/
  | value (setting : Setting)
  /-- Nothing, after `--`. -/
  | nothing
  deriving DecidableEq, Repr

/-- The options read so far, and what comes next. -/
structure Progress where
  options : Options
  expecting : Expecting
  deriving DecidableEq, Repr

/-- The options with the value of one more. The name of a file is not empty. -/
def set (options : Options) (setting : Setting) (value : String) : Except Stop Progress :=
  match setting, options with
  | .config, { config := none, .. } =>
    if value.isEmpty then .error .usage else .ok ⟨{ options with config := value }, .option⟩
  | .prompt, { prompt := none, .. } => .ok ⟨{ options with prompt := value }, .option⟩
  | .command, { command := none, .. } => .ok ⟨{ options with command := value }, .option⟩
  | _, _ => .error .usage

/-- The options with the prompt turned off. -/
def setQuiet (options : Options) : Except Stop Options :=
  if options.quiet then .error .usage else .ok { options with quiet := true }

/-- Reads the letters of an argument that begins with one dash. -/
def readLetters (options : Options) : List Char → Except Stop Progress
  | [] => .ok ⟨options, .option⟩
  | 'q' :: letters => options.setQuiet.bind (readLetters · letters)
  -- The value of `-c` is the rest of its argument, or else the next argument.
  | ['c'] => .ok ⟨options, .value .command⟩
  | 'c' :: '=' :: value => options.set .command (.ofList value)
  | 'c' :: value => options.set .command (.ofList value)
  | 'V' :: _ => .error .version
  | 'h' :: _ => .error .help
  | _ => .error .usage

/-- Reads a long option without a value behind it. -/
def readName (options : Options) : String → Except Stop Progress
  | "config" => .ok ⟨options, .value .config⟩
  | "prompt" => .ok ⟨options, .value .prompt⟩
  | "command" => .ok ⟨options, .value .command⟩
  | "quiet" => options.setQuiet.map (⟨·, .option⟩)
  | "version" => .error .version
  | "help" => .error .help
  | _ => .error .usage

/-- Reads a long option with a value behind it. -/
def readAssignment (options : Options) (name value : String) : Except Stop Progress :=
  match name with
  | "config" => options.set .config value
  | "prompt" => options.set .prompt value
  | "command" => options.set .command value
  | _ => .error .usage

/-- Reads an option. -/
def readOption (options : Options) (arg : String) : Except Stop Progress :=
  match arg.toList with
  | ['-', '-'] => .ok ⟨options, .nothing⟩
  | '-' :: '-' :: cs =>
    match cs.dropWhile (· ≠ '=') with
    | '=' :: value => options.readAssignment (.ofList (cs.takeWhile (· ≠ '='))) (.ofList value)
    | _ => options.readName (.ofList cs)
  | '-' :: c :: cs => options.readLetters (c :: cs)
  | _ => .error .usage

/-- The argument looks like an option, and is no value that stands by itself. -/
def looksLikeOption (arg : String) : Bool :=
  match arg.toList with
  | '-' :: _ :: _ => true
  | _ => false

/-- Reads one argument. -/
def step (progress : Progress) (arg : String) : Except Stop Progress :=
  match progress.expecting with
  | .option => progress.options.readOption arg
  | .value setting =>
    if looksLikeOption arg then .error .usage else progress.options.set setting arg
  | .nothing => .error .usage

/-- The options of a list of arguments. -/
def parse (args : List String) : Except Stop Options :=
  (args.foldlM step ⟨{}, .option⟩).bind fun progress =>
    match progress.expecting with
    | .value _ => .error .usage
    | .option | .nothing => .ok progress.options

end Options

end CommandShell
