import LazyGraph.Client.Exchange
import LazyGraph.CommandLine.Arguments
import LazyGraph.CommandLine.Help
import LazyGraph.Http
import LazyGraph.SelectionPath
import LazyGraph.Settings.File

/-!
Running commands. A command that fails prints nothing on its output and ends with the exit code
one; arguments that make no command end with two.
-/
namespace LazyGraph.CommandLine

/-- What a command needs from the machine that it runs on. -/
structure Host (m : Type → Type) where
  workFolder : m String
  homeFolder : m (Option String)
  valueOf? : String → m (Option String)
  /-- Whether there is a file or folder at a path. -/
  present : String → m Bool
  /-- The text of a file that can be read. -/
  readFile : String → m (Option String)
  /-- Puts a text in place of what a file holds, and tells whether that succeeded. -/
  writeFile : String → String → m Bool
  /-- Makes a folder, and tells whether it is there then. -/
  makeFolder : String → m Bool
  print : String → m Unit
  /-- Tells the user of a failure. -/
  complain : String → m Unit
  /-- The time, in milliseconds. -/
  now : m Nat
  link : Http.Link m

/-- Why a command fails. -/
inductive Failure
  | settings (cause : SettingsError)
  | logFile (path : String)
  | unreadable (path : String)
  | notJson (path : String)
  | invalid (cause : ValidationError)
  | selection (fault : SelectionPath.Fault)
  | transport (cause : TransportError)
  | notASnapshot (path : String) (cause : ValidationError)
  | unwritable (path : String)

def Failure.message : Failure → String
  | .settings cause => cause.message
  | .logFile path => s!"cannot open log file {path}"
  | .unreadable path => s!"cannot read {path}"
  | .notJson path => s!"{path} is not valid JSON"
  | .invalid cause => cause.message
  | .selection fault => fault.messageWith "not JSON"
  | .transport cause => cause.message
  | .notASnapshot path cause => s!"{path} is not a valid snapshot: {cause.message}"
  | .unwritable path => s!"cannot write snapshot {path}"

/-- A command on its way. -/
abbrev Running (m : Type → Type) (α : Type) := ExceptT Failure m α

variable {m : Type → Type} [Monad m] (host : Host m)

namespace Running

/-- The value of a step, or the failure that its error amounts to. -/
def ofExcept {ε α : Type} (failure : ε → Failure) : Except ε α → Running m α
  | .ok a => pure a
  | .error e => throw (failure e)

end Running

open Running (ofExcept)

def readFile (path : String) : Running m String := do
  match ← host.readFile path with
  | some text => pure text
  | none => throw (.unreadable path)

def readJson (path : String) : Running m Json := do
  match Json.parse? (← readFile host path) with
  | some v => pure v
  | none => throw (.notJson path)

/-! Settings. -/

/-- The text of a layer that may be absent. -/
def layerText (folder : Option String) : Running m (Option String) := do
  match folder with
  | none => pure none
  | some folder =>
    let path := Settings.pathBelow folder
    if ← host.present path then
      match ← host.readFile path with
      | some text => pure (some text)
      | none => throw (.settings .unreadable)
    else pure none

/-- The settings of a file that stands for all layers. -/
def settingsOf (path : String) (overrides : SettingsOverrides) : Running m Settings := do
  match ← host.readFile path with
  | none => throw (.settings .unreadable)
  | some text =>
    let s := (← ofExcept .settings (Settings.ofFile text)).override overrides
    ofExcept .settings s.validate
    pure s

/-- The settings that a command works with. -/
def settingsFor (options : GlobalOptions) : Running m Settings := do
  match options.settingsFile with
  | some path => settingsOf host path options.overrides
  | none =>
    let home ← layerText host (← host.homeFolder)
    let project ← layerText host (some (← host.workFolder))
    ofExcept .settings (Settings.load home project options.overrides)

/-- Empties the log file, if there is one. -/
def openLog (s : Settings) : Running m Unit := do
  match s.logging.file with
  | none => pure ()
  | some path => if !(← host.writeFile path "") then throw (.logFile path)

/-! Selections. -/

def schemaFor (selects : Selects) : Running m (Option Schema) := do
  match selects.schema with
  | none => pure none
  | some path => some <$> ofExcept .invalid (Schema.ofText (← readFile host path))

/-- Why a path selects nothing. -/
def Failure.ofSelectFault : SelectionPath.SelectFault → Failure
  | .invalid cause => .invalid cause
  | .path fault => .selection fault

/-- The selection at the end of a path below a root. -/
def selectPath (schema : Option Schema) (operation : Operation) (root : Selection)
    (f : Selection.Forest) (path : String) : Except Failure (Selection × Selection.Forest) := do
  let segments ← (SelectionPath.parse path).mapError .selection
  let (result, f) := SelectionPath.select schema operation.text f root segments
  pure (← result.mapError .ofSelectFault, f)

/-- The selections at the ends of paths. -/
def selectPaths (schema : Option Schema) (operation : Operation) (root : Selection) :
    Selection.Forest → List String → Except Failure (List Selection × Selection.Forest)
  | f, [] => .ok ([], f)
  | f, path :: rest => do
    let (s, f) ← selectPath schema operation root f path
    let (ss, f) ← selectPaths schema operation root f rest
    pure (s :: ss, f)

/-! Commands. -/

def documentJson (d : Document) : Json :=
  .record [
    ("query", .string d.query),
    ("variables", .optional .object d.variableValues),
    ("operationName", .optional .string d.operationName),
    ("hash", .string d.hash)]

def printJson (v : Json) : Running m Unit := host.print (v.indented ++ "\n")

def compile (s : Settings) (selects : Selects) : Running m Unit := do
  let schema ← schemaFor host selects
  let (root, forest) :=
    ({} : Selection.Forest).newRoot selects.operation.text s.selection.aliasLength
  let (selections, _) ←
    ofExcept id (selectPaths schema selects.operation root forest selects.paths)
  let documents ← ofExcept .invalid (Document.compile selections selects.operationName)
  documents.forM fun d => printJson host (documentJson d)

/-- What a client needs to fetch over a link. -/
def outside (fetcher : Http.Fetcher) : Client.Outside m where
  now := host.now
  wait ms := host.link.wait (.ofMillis (.ofNat ms))
  fetch := fetcher.fetch host.link

/-- A cache with the data of a snapshot in it. -/
def restored (cache : Cache) (now : Nat) (snapshot : Json) : Except ValidationError Cache := do
  pure (← cache.restore now (← Snapshot.ofJson snapshot)).1

/-- The token that requests carry, if its variable has a value. -/
def token (s : TransportSettings) : m (Option String) :=
  match s.authTokenVariable with
  | none => pure none
  | some name => host.valueOf? name

def fetch (s : Settings) (selects : Selects) (restore snapshot : Option String) :
    Running m Unit := do
  let schema ← schemaFor host selects
  let token ← (token host s.transport : m (Option String))
  let fetcher ← ofExcept .transport (Http.Fetcher.ofSettings s.transport token)
  let c := Client.new (schema.getD {}) false s.clientOptions
  let c ← match restore with
    | none => pure c
    | some path => do
      let v ← readJson host path
      pure { c with cache := ← ofExcept .invalid (restored c.cache (← host.now) v) }
  let (selections, forest) ← ofExcept id
    (selectPaths schema selects.operation (c.root selects.operation) c.forest selects.paths)
  let key : BatchKey := { operationName := selects.operationName }
  let (result, c) ←
    (Client.exchange (outside host fetcher) { c with forest } selections key : m _)
  ofExcept .transport result
  let text := (c.cache.snapshot (← host.now)).toJson.indented
  match snapshot with
  | none => host.print (text ++ "\n")
  | some path => if !(← host.writeFile path text) then throw (.unwritable path)

def inspect (s : Settings) (path : String) : Running m Unit := do
  let v ← readJson host path
  let cache ← ofExcept (.notASnapshot path)
    (restored (.new s.clientOptions.cache) (← host.now) v)
  printJson host (.record [
    ("version", (v.member? "version").getD .null),
    ("containers", .nat cache.size),
    ("normalized", .nat cache.objectCount)])

/-- Writes a settings file for the project, unless there is one. -/
def initSettings : Running m Unit := do
  let folder ← host.workFolder
  let path := Settings.pathBelow folder
  if ← host.present path then host.print s!"{path} already exists\n"
  else
    if !(← host.makeFolder s!"{folder}/{Settings.folderName}") then throw (.settings .unwritable)
    let text ← ofExcept .settings ({} : Settings).fileText
    if !(← host.writeFile path text) then throw (.settings .unwritable)

def runCommand (s : Settings) : Command → Running m Unit
  | .compile selects => compile host s selects
  | .fetch selects restore snapshot => fetch host s selects restore snapshot
  | .inspect path => inspect host s path
  | .initSettings => initSettings host
  | .showSettings => do host.print (← ofExcept .settings s.fileText)

/-- Runs a command with its options. -/
def runWith (options : GlobalOptions) (command : Command) : Running m Unit := do
  let s ← settingsFor host options
  openLog host s
  runCommand host s command

/-- Answers arguments that make no command, in surroundings where variables have values. -/
def answerStop (valueOf? : String → Option String) : Stop → m Nat
  | .help level => do
    host.print (level.help valueOf?)
    pure 0
  | .version level => do
    host.print level.versionText
    pure 0
  | .usage level fault => do
    host.complain
      s!"error: {fault.message}\n\n{level.usage}\n\nFor more information, try '--help'.\n"
    pure 2

/-- The values of the variables that stand for options. -/
def standInValues : m (List (String × String)) := do
  let values ← (Level.program.forms.filterMap (·.standIn)).mapM fun name => do
    pure ((← host.valueOf? name).map (name, ·))
  pure (values.filterMap id)

/-- Runs the program and gives its exit code. -/
def run (args : List String) : m Nat := do
  let values ← standInValues host
  let valueOf? := fun name => List.lookup name values
  match parse args valueOf? with
  | .error stop => answerStop host valueOf? stop
  | .ok (options, command) =>
    match ← (runWith host options command).run with
    | .ok () => pure 0
    | .error failure => do
      host.complain s!"Error: {failure.message}\n"
      pure 1

end LazyGraph.CommandLine
