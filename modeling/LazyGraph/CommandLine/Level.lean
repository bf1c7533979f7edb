import LazyGraph.CommandLine
import LazyGraph.Text

/-!
Levels of the command line: the program, its commands and theirs, each with the options and the
commands that may stand there.
-/
namespace LazyGraph.CommandLine

inductive Level
  | program
  | compile
  | fetch
  | snapshot
  | inspect
  | config
  | initConfig
  | showConfig
  deriving DecidableEq, Repr, Inhabited

/-- What an option takes. -/
inductive Shape
  | flag
  | text
  /-- The path of a file, which is not empty. -/
  | path
  /-- A natural number of 64 bits. -/
  | word
  | operation
  deriving DecidableEq, Repr

structure OptionForm where
  name : String
  letter : Option Char := none
  shape : Shape
  repeats : Bool := false
  /-- Whether a command is nothing without it. -/
  needed : Bool := false
  summary : String
  /-- The variable whose value stands for the option where it is not given. -/
  standIn : Option String := none
  /-- What the option is where neither gives it. -/
  unset : Option String := none
  deriving DecidableEq, Repr

/-- Whether a value has a shape. -/
def Shape.accepts (value : String) : Shape → Bool
  | .flag | .text => true
  | .path => value ≠ ""
  | .word => (Text.index? value).isSome
  | .operation => (Operation.ofText? value).isSome

namespace Level

def settingsFileForm : OptionForm where
  name := "config"
  letter := some 'c'
  shape := .path
  summary := "Path to configuration file (skips global and local lookup)"
  standIn := some "GQLAZY_CONFIG"

def endpointForm : OptionForm where
  name := "endpoint"
  letter := some 'e'
  shape := .text
  summary := "GraphQL endpoint"
  standIn := some "GQLAZY_ENDPOINT"

/-- The global options that no variable stands for. -/
def switchForms : List OptionForm := [
  { name := "window-ms", shape := .word, summary := "Scheduler window in milliseconds" },
  { name := "no-normalization", shape := .flag, summary := "Disable cache normalization" },
  { name := "verbose", letter := some 'v', shape := .flag, summary := "Enable verbose output" },
  { name := "quiet", letter := some 'q', shape := .flag,
    summary := "Suppress non-essential output" }]

def selectForms : List OptionForm := [
  { name := "select", letter := some 's', shape := .text, repeats := true, needed := true,
    summary := "Field path to select, e.g. `user(id:1).friends[0].name` (repeatable)" },
  { name := "operation", letter := some 'o', shape := .operation, unset := some "query",
    summary := "Operation the paths start from" },
  { name := "operation-name", shape := .text,
    summary := "Operation name for the compiled documents" },
  { name := "schema", shape := .path,
    summary := "JSON schema file used to validate paths and type arguments" }]

def restoreForm : OptionForm where
  name := "restore"
  shape := .path
  summary := "Snapshot to restore before fetching"

def snapshotForm : OptionForm where
  name := "snapshot"
  shape := .path
  summary := "Write the snapshot to this file instead of stdout"

/-- The options of a level, in the order of its help. -/
def forms : Level → List OptionForm
  | .compile => selectForms ++ [settingsFileForm, endpointForm] ++ switchForms
  | .fetch =>
    selectForms ++ [settingsFileForm, restoreForm, endpointForm, snapshotForm] ++ switchForms
  | _ => [settingsFileForm, endpointForm] ++ switchForms

/-- The levels below a level, by their names. -/
def below : Level → List (String × Level)
  | .program =>
    [("compile", .compile), ("fetch", .fetch), ("snapshot", .snapshot), ("config", .config)]
  | .snapshot => [("inspect", .inspect)]
  | .config => [("init", .initConfig), ("show", .showConfig)]
  | _ => []

/-- The words that lead to a level. -/
def words : Level → List String
  | .program => [programName]
  | .compile => [programName, "compile"]
  | .fetch => [programName, "fetch"]
  | .snapshot => [programName, "snapshot"]
  | .inspect => [programName, "snapshot", "inspect"]
  | .config => [programName, "config"]
  | .initConfig => [programName, "config", "init"]
  | .showConfig => [programName, "config", "show"]

/-- Whether a file is named at a level. -/
def takesFile (l : Level) : Bool := l = .inspect

def formNamed? (l : Level) (name : String) : Option OptionForm := l.forms.find? (·.name = name)

def formLettered? (l : Level) (letter : Char) : Option OptionForm :=
  l.forms.find? (·.letter = some letter)

def summary : Level → String
  | .program => "HTTP transport and command-line interface for the gqlazy client"
  | .compile => "Print the documents compiled from selection paths"
  | .fetch => "Fetch selection paths and print the cache snapshot"
  | .snapshot => "Cache snapshot tools"
  | .inspect => "Validate a snapshot by restoring it and print a summary"
  | .config => "Configuration files"
  | .initConfig => "Create `.gqlazy/config.toml` in the current directory"
  | .showConfig => "Print the merged configuration as TOML"

end Level
end LazyGraph.CommandLine
