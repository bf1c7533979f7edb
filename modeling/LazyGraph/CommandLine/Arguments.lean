import LazyGraph.CommandLine.Level

/-!
Reading the arguments of the command line.

Arguments are read from left to right. A word that names a command leads one level down; global
options may stand at every level, and those of the lowest level count. An option may be given
once at a level, unless it may be repeated.
-/
namespace LazyGraph.CommandLine

inductive UsageFault
  | unknownOption (argument : String)
  | unknownCommand (argument : String)
  | unexpectedArgument (argument : String)
  | repeated (option : String)
  | unexpectedValue (option : String)
  | badValue (option value : String)
  | missingValue (option : String)
  | missingOption (option : String)
  | missingCommand
  | missingFile
  deriving DecidableEq, Repr

def UsageFault.message : UsageFault → String
  | .unknownOption argument | .unexpectedArgument argument =>
    s!"unexpected argument '{argument}' found"
  | .unknownCommand argument => s!"unrecognized subcommand '{argument}'"
  | .repeated option => s!"the argument '--{option}' cannot be used multiple times"
  | .unexpectedValue option => s!"unexpected value for '--{option}' found; no more were expected"
  | .badValue option value => s!"invalid value '{value}' for '--{option}'"
  | .missingValue option => s!"a value is required for '--{option}' but none was supplied"
  | .missingOption option => s!"the required argument '--{option}' was not provided"
  | .missingCommand => "a subcommand is required but one was not provided"
  | .missingFile => "the required argument '<FILE>' was not provided"

/-- Why no command is run. -/
inductive Stop
  | help (level : Level)
  | version (level : Level)
  | usage (level : Level) (fault : UsageFault)
  deriving DecidableEq, Repr

/-- An option that was given. -/
structure Given where
  level : Level
  name : String
  value : String
  deriving DecidableEq, Repr

/-- What was read so far. -/
structure Scan where
  level : Level := .program
  /-- The options, the latest first. -/
  given : List Given := []
  file : Option String := none
  /-- An option that still needs its value. -/
  pending : Option OptionForm := none
  /-- Whether options and commands have ended. -/
  onlyFiles : Bool := false
  /-- Whether the rest names the command that help is asked for. -/
  helping : Bool := false
  deriving Inhabited

namespace Scan

def fail {α : Type} (s : Scan) (fault : UsageFault) : Except Stop α := .error (.usage s.level fault)

/-- Whether an option was given at the present level. -/
def hasGiven (s : Scan) (name : String) : Bool :=
  s.given.any fun g => g.level = s.level && g.name = name

/-- Takes up an option with its value. -/
def give (s : Scan) (f : OptionForm) (value : String) : Except Stop Scan :=
  if !f.repeats && s.hasGiven f.name then s.fail (.repeated f.name)
  else if !f.shape.accepts value then s.fail (.badValue f.name value)
  else .ok { s with
    given := { level := s.level, name := f.name, value } :: s.given
    pending := none }

/-- Takes up an option that is given by its name. -/
def readLong (s : Scan) (name : String) (value : Option String) : Except Stop Scan :=
  if name = "help" ∧ value = none then .error (.help s.level)
  else if name = "version" ∧ value = none then .error (.version s.level)
  else match s.level.formNamed? name with
    | none => s.fail (.unknownOption s!"--{name}")
    | some f => match f.shape, value with
      | .flag, none => s.give f ""
      | .flag, some _ => s.fail (.unexpectedValue name)
      | _, some v => s.give f v
      | _, none => .ok { s with pending := some f }

/-- Takes up options that are given by their letters. What follows the letter of an option that
takes a value is the value. -/
def readShort (s : Scan) : List Char → Except Stop Scan
  | [] => .ok s
  | 'h' :: _ => .error (.help s.level)
  | 'V' :: _ => .error (.version s.level)
  | letter :: rest =>
    match s.level.formLettered? letter with
    | none => s.fail (.unknownOption s!"-{letter}")
    | some f => match f.shape, rest with
      | .flag, rest => do readShort (← s.give f "") rest
      | _, [] => .ok { s with pending := some f }
      | _, '=' :: value => s.give f (String.ofList value)
      | _, value => s.give f (String.ofList value)

/-- Takes up a word that is no option. -/
def readWord (s : Scan) (word : String) : Except Stop Scan :=
  match if s.onlyFiles then none else s.level.below.lookup word with
  | some level => .ok { s with level }
  | none =>
    if word = "help" ∧ !s.level.below.isEmpty ∧ !s.onlyFiles then .ok { s with helping := true }
    else if s.level.takesFile ∧ s.file = none then
      if word = "" then s.fail (.badValue "file" word) else .ok { s with file := some word }
    else if s.level.below.isEmpty then s.fail (.unexpectedArgument word)
    else s.fail (.unknownCommand word)

/-- Follows a word to the command that help is asked for. -/
def readHelpWord (s : Scan) (word : String) : Except Stop Scan :=
  match s.level.below.lookup word with
  | some level => .ok { s with level }
  | none => if word = "help" then .ok s else s.fail (.unknownCommand word)

/-- An argument that is an option, with the characters that follow its dash; a dash alone is
none. -/
def dashed? (argument : String) : Option (List Char) :=
  match argument.toList with
  | '-' :: c :: rest => some (c :: rest)
  | _ => none

/-- Takes up an option, a cluster of options, or the end of options. -/
def readDashed (s : Scan) : List Char → Except Stop Scan
  | ['-'] => .ok { s with onlyFiles := true }
  | '-' :: rest =>
    match rest.dropWhile (· ≠ '=') with
    | [] => s.readLong (String.ofList rest) none
    | _ :: value =>
      s.readLong (String.ofList (rest.takeWhile (· ≠ '='))) (some (String.ofList value))
  | letters => s.readShort letters

/-- Takes up the next argument. -/
def step (s : Scan) (argument : String) : Except Stop Scan :=
  if s.helping then s.readHelpWord argument
  else if s.onlyFiles then s.readWord argument
  else match s.pending, dashed? argument with
    | some f, some _ => s.fail (.missingValue f.name)
    | some f, none => s.give f argument
    | none, some cs => s.readDashed cs
    | none, none => s.readWord argument

/-- The value of an option, from the lowest level that gives it. -/
def value? (s : Scan) (name : String) : Option String :=
  (s.given.find? (·.name = name)).map (·.value)

/-- The value of a repeated option, in the order given. -/
def values (s : Scan) (name : String) : List String :=
  ((s.given.filter (·.name = name)).map (·.value)).reverse

def isOn (s : Scan) (name : String) : Bool := s.given.any (·.name = name)

/-- What is selected. One path is needed at least. -/
def selects (s : Scan) : Except Stop Selects :=
  match s.values "select" with
  | [] => s.fail (.missingOption "select")
  | paths => .ok {
      paths
      operation := ((s.value? "operation").bind Operation.ofText?).getD .query
      operationName := s.value? "operation-name"
      schema := s.value? "schema" }

/-- The command that was read. -/
def command (s : Scan) : Except Stop Command :=
  match s.level with
  | .program | .snapshot | .config => s.fail .missingCommand
  | .compile => return .compile (← s.selects)
  | .fetch => return .fetch (← s.selects) (s.value? "restore") (s.value? "snapshot")
  | .inspect => match s.file with
    | some file => .ok (.inspect file)
    | none => s.fail .missingFile
  | .initConfig => .ok .initSettings
  | .showConfig => .ok .showSettings

/-- Gives an option the value of the variable that stands for it, unless it is given or the
variable has none. -/
def fillFrom (valueOf? : String → Option String) (s : Scan) (f : OptionForm) : Except Stop Scan :=
  match f.standIn.bind valueOf? with
  | some value => if s.isOn f.name then .ok s else s.give f value
  | none => .ok s

def globalOptions (s : Scan) : GlobalOptions where
  settingsFile := s.value? "config"
  endpoint := s.value? "endpoint"
  window := (s.value? "window-ms").bind Text.index?
  noNormalization := s.isOn "no-normalization"
  verbose := s.isOn "verbose"
  quiet := s.isOn "quiet"

/-- Ends the reading. -/
def finish (valueOf? : String → Option String) (s : Scan) :
    Except Stop (GlobalOptions × Command) := do
  if s.helping then throw (.help s.level)
  match s.pending with
  | some f => s.fail (.missingValue f.name)
  | none =>
    let s ← s.level.forms.foldlM (fillFrom valueOf?) s
    pure (s.globalOptions, ← s.command)

end Scan

/-- Reads arguments, in surroundings where variables have values. -/
def parse (args : List String) (valueOf? : String → Option String) :
    Except Stop (GlobalOptions × Command) := do
  (← args.foldlM Scan.step {}).finish valueOf?

end LazyGraph.CommandLine
