import LazyGraph.Settings.Reader
import LazyGraph.Toml.Reader

/-!
Settings files: reading them, writing them, and the layers of the home and project folders.
-/
namespace LazyGraph.Settings

/-- Reads the text of a settings file. -/
def ofFile (text : String) : Except SettingsError Settings :=
  match (Toml.parse? text).bind (ofTree? .file) with
  | some s => .ok s
  | none => .error .malformed

/-! Writing. -/

/-- A number of a settings file is below two to the sixty-third. -/
def numberText (n : Nat) : Except SettingsError String :=
  if n < Nat.pow 2 63 then .ok (toString n) else .error .unencodable

def flagText (b : Bool) : String := if b then "true" else "false"

/-- An array, with a line for each item if there are several. -/
def arrayText (items : List String) : String :=
  match items with
  | [] => "[]"
  | [item] => s!"[{item}]"
  | items => "[\n" ++ String.join (items.map fun item => s!"    {item},\n") ++ "]"

/-- The line of a setting. -/
def entryText (name value : String) : String := s!"{name} = {value}\n"

/-- The line of an optional setting, if it is there. -/
def optionText (name : String) (value : Option String) : String :=
  match value with
  | some v => entryText name (Toml.writtenText v)
  | none => ""

def cacheText (s : CacheSettings) : Except SettingsError String := do
  pure (String.join [
    "[cache]\n",
    entryText "max_age_ms" (← numberText s.maxAge),
    entryText "immutable" (flagText s.immutable),
    entryText "stale_while_revalidate_ms" (← numberText s.staleWindow),
    entryText "max_entries" (← numberText s.maxEntries),
    entryText "normalization" (flagText s.normalization),
    entryText "identity_fields" (arrayText (s.identityFields.map Toml.writtenText)),
    entryText "array_merge" (Toml.writtenText s.arrayMerge.text)])

def scheduleText (s : ScheduleSettings) : Except SettingsError String := do
  pure ("[scheduler]\n" ++ entryText "window_ms" (← numberText s.window))

def selectionText (s : SelectionSettings) : Except SettingsError String := do
  pure (String.join [
    "[selection]\n",
    entryText "alias_length" (← numberText s.aliasLength),
    entryText "document_cache_size" (← numberText s.documentCapacity)])

/-- The headers have a section of their own, also when there are none. -/
def transportText (s : TransportSettings) : Except SettingsError String := do
  pure (String.join ([
    "[transport]\n",
    entryText "endpoint" (Toml.writtenText s.endpoint),
    optionText "auth_token_env" s.authTokenVariable,
    entryText "timeout_secs" (← numberText s.timeout),
    entryText "max_retries" (← numberText s.maxRetries),
    "\n[transport.headers]\n"] ++
    s.headers.map fun (name, value) => entryText (Toml.writtenKey name) (Toml.writtenText value)))

def loggingText (s : LoggingSettings) : String :=
  String.join [
    "[logging]\n",
    entryText "level" (Toml.writtenText s.level),
    entryText "format" (Toml.writtenText s.format.name),
    optionText "file" s.file]

/-- Writes all settings, section by section, with a blank line between sections. -/
def fileText (s : Settings) : Except SettingsError String := do
  pure ("\n".intercalate [
    ← cacheText s.cache, ← scheduleText s.schedule, ← selectionText s.selection,
    ← transportText s.transport, loggingText s.logging])

/-! Layers. -/

/-- The folder of settings in the home folder and in a project. -/
def folderName : String := ".gqlazy"

def fileName : String := "config.toml"

/-- The settings file below a home or project folder. -/
def pathBelow (folder : String) : String := s!"{folder}/{folderName}/{fileName}"

/-- Reads a file that may be absent. -/
def ofFile? : Option String → Except SettingsError (Option Settings)
  | none => .ok none
  | some text => (ofFile text).map some

/-- The home layer is read once: a layer that was found stays. -/
structure HomeLayer where
  found : Option Settings := none

/-- The home layer, read from the text of its file unless it was found before. -/
def HomeLayer.read (h : HomeLayer) (text : Option String) :
    Except SettingsError (Option Settings) × HomeLayer :=
  match h.found with
  | some s => (.ok (some s), h)
  | none =>
    match ofFile? text with
    | .ok found => (.ok found, { found })
    | .error e => (.error e, h)

/-- The settings that hold in a project: those of the home folder, then those of the project, then
those of the command line. -/
def load (home project : Option String) (overrides : SettingsOverrides) :
    Except SettingsError Settings := do
  let home ← ofFile? home
  let project ← ofFile? project
  ofLayers (home.toList ++ project.toList) overrides

end LazyGraph.Settings
