import Pagewright.CommandLine.Basic

/-!
# Reading a command line

A command line is read word by word (`CommandLine.scan`). Options may be written with their value
attached or as two words, and short flags may be joined. A value is checked only once the next
option or argument begins, so of two mistakes it can be the second that is reported.
-/

namespace Pagewright

namespace CommandLine

/-- What can be given on a command line besides the command. -/
inductive Name where
  | root
  | source
  | output
  | config
  | clean
  | unsafeOutput
  | verbose
  | path
  | file
  | help
  | version
  deriving Repr, DecidableEq

/-- How an option is written. -/
structure OptionForm where
  name : Name
  long : Text
  short : Option Char := none
  takesValue : Bool := false

/-- What a command understands. -/
structure Grammar where
  options : List OptionForm
  /-- The argument without a name, if there is one. -/
  argument : Option Name := none
  subcommands : List Text := []

/-- The option that shows help. -/
def helpForm : OptionForm := { name := .help, long := "help", short := 'h' }

/-- The program itself. -/
def topGrammar : Grammar where
  options :=
    [{ name := .root, long := "root", short := 'r', takesValue := true },
      { name := .source, long := "source", short := 's', takesValue := true },
      { name := .output, long := "output", short := 'o', takesValue := true },
      { name := .config, long := "config", short := 'C', takesValue := true },
      helpForm,
      { name := .version, long := "version", short := 'V' }]
  subcommands := ["build", "watch", "compile", "help"]

/-- The commands that build the site. -/
def buildGrammar : Grammar where
  options :=
    [{ name := .clean, long := "clean" },
      { name := .unsafeOutput, long := "unsafe-output" },
      { name := .verbose, long := "verbose", short := 'v' },
      helpForm]

/-- The command that compiles a template. -/
def compileGrammar : Grammar where
  options :=
    [{ name := .path, long := "path", takesValue := true },
      { name := .unsafeOutput, long := "unsafe-output" },
      helpForm]
  argument := some .file

/-- How far a command line has been read. -/
structure State where
  /-- What has been given and checked, with its value. -/
  given : List (Name × Text) := []
  /-- What is given last, and its value once it is there. -/
  pending : Option (Name × Option Text) := none
  /-- Whether `--` has been passed. -/
  trailing : Bool := false
  /-- Whether the argument without a name has been given. -/
  argumentGiven : Bool := false

namespace State

/-- Whether an option waits for its value. -/
def awaiting (s : State) : Bool :=
  match s.pending with
  | some (_, none) => true
  | _ => false

/-- Accept what is given, once. -/
def accept (s : State) (name : Name) (value : Text) : Except UsageError State :=
  if s.given.any fun (other, _) => other = name then .error .argumentConflict
  else .ok { s with given := s.given ++ [(name, value)] }

/-- Check what was given last. -/
def settle (s : State) : Except UsageError State :=
  match s.pending with
  | none => .ok s
  | some (_, none) => .error .invalidValue
  | some (name, some value) => do
    let s ← { s with pending := none }.accept name value
    if value = [] then throw .invalidValue
    return s

/-- A flag. -/
def flag (s : State) (name : Name) : Except UsageError State := do
  let s ← s.settle
  match name with
  | .help => throw .help
  | .version => throw .version
  | _ => s.accept name []

/-- An option with its value attached, or one that waits for it. -/
def option (s : State) (name : Name) (attached : Option Text) : Except UsageError State := do
  let s := { ← s.settle with pending := some (name, attached) }
  if attached.isSome then s.settle else return s

end State

/-- The word behind two dashes, up to an equals sign, and the value behind that. -/
def longOption? (arg : Text) : Option (Text × Option Text) :=
  (arg.after? "--").map fun rest =>
    match rest.cut? ['='] with
    | some (name, value) => (name, some value)
    | none => (rest, none)

/-- An option of several letters. -/
def readLong (grammar : Grammar) (s : State) (name : Text) (value : Option Text) :
    Except UsageError State :=
  match grammar.options.find? fun form => form.long = name with
  | none => .error .unknownArgument
  | some form =>
    if form.takesValue then s.option form.name value
    else if value.isSome then .error .tooManyValues
    else s.flag form.name

/-- Options of one letter, written together. The rest behind one that takes a value is its value. -/
def readShort (grammar : Grammar) : Text → State → Except UsageError State
  | [], s => .ok s
  | c :: rest, s =>
    match grammar.options.find? fun form => form.short = some c with
    | none => .error .unknownArgument
    | some form =>
      if form.takesValue then
        if rest = [] then s.option form.name none
        else s.option form.name (some ((Text.after? rest ['=']).getD rest))
      else (s.flag form.name).bind (readShort grammar rest)

/-- A word that is neither an option nor a value of one. -/
def readArgument (grammar : Grammar) (s : State) (arg : Text) : Except UsageError State :=
  match grammar.argument, s.argumentGiven with
  | some name, false => do
    return { ← s.settle with pending := some (name, some arg), argumentGiven := true }
  | _, _ =>
    if grammar.subcommands = [] || (s.trailing && arg ∈ grammar.subcommands) then
      .error .unknownArgument
    else .error .invalidSubcommand

/-- Read words up to a command; the answer has the command and the words behind it. -/
def scan (grammar : Grammar) :
    List Text → State → Except UsageError (State × Option (Text × List Text))
  | [], s => .ok (s, none)
  | arg :: rest, s =>
    if s.trailing then do scan grammar rest (← readArgument grammar s arg)
    else if !s.awaiting && arg ∈ grammar.subcommands then .ok (s, some (arg, rest))
    else if arg = ['-', '-'] then scan grammar rest { s with trailing := true }
    else
      match longOption? arg with
      | some (name, value) => do scan grammar rest (← readLong grammar s name value)
      | none =>
        match arg with
        | '-' :: c :: letters => do scan grammar rest (← readShort grammar (c :: letters) s)
        | _ =>
          match s.pending with
          | some (name, none) => scan grammar rest { s with pending := some (name, some arg) }
          | _ => do scan grammar rest (← readArgument grammar s arg)

/-- Read all words of a command that has no commands of its own. -/
def scanAll (grammar : Grammar) (args : List Text) : Except UsageError State := do
  (← scan grammar args {}).1.settle

/-- Whether something was given. -/
def State.has (s : State) (name : Name) : Bool :=
  s.given.any fun (other, _) => other = name

/-- The path given under a name. -/
def State.path? (s : State) (name : Name) : Option Path :=
  (s.given.lookup name).map (⟨·⟩)

/-- The flags of a command that builds the site. -/
def readFlags (args : List Text) : Except UsageError BuildFlags := do
  let s ← scanAll buildGrammar args
  return { clean := s.has .clean, unsafeOutput := s.has .unsafeOutput, verbose := s.has .verbose }

/-- The command that compiles a template. -/
def readCompile (args : List Text) : Except UsageError Command := do
  let s ← scanAll compileGrammar args
  match s.path? .file with
  | some file => return .compile file (s.path? .path) (s.has .unsafeOutput)
  | none => throw .missingRequiredArgument

/-- Help for a command, which has to be one that there is. -/
def readHelp : List Text → UsageError
  | [] => .help
  | [name] => if name ∈ topGrammar.subcommands then .help else .invalidSubcommand
  | _ => .invalidSubcommand

/-- A command by its name. -/
def readCommand (name : Text) (args : List Text) : Except UsageError Command :=
  if name = "build" then (readFlags args).map .build
  else if name = "watch" then (readFlags args).map .watch
  else if name = "compile" then readCompile args
  else .error (readHelp args)

/-- A whole command line, less the name of the program. -/
def read (args : List Text) : Except UsageError Invocation := do
  let (s, found) ← scan topGrammar args {}
  let command ← found.mapM fun (name, rest) => readCommand name rest
  let s ← s.settle
  match command with
  | some command =>
    let invocation : Invocation :=
      { root := s.path? .root, source := s.path? .source, output := s.path? .output, command }
    match s.path? .config with
    | some config => return { invocation with config }
    | none => return invocation
  | none => throw (if s.given = [] then .helpForNothing else .missingSubcommand)

end CommandLine

end Pagewright
