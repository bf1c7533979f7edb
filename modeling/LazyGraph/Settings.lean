import LazyGraph.Client

/-!
Settings of a client and of the command line, in layers.

A later layer is put over an earlier one. A setting that the later layer leaves at its default
keeps the earlier value, so the default settings change nothing, and how layers are grouped does
not matter.
-/
namespace LazyGraph

structure CacheSettings where
  /-- How long query data is fresh, in milliseconds; zero is for ever. -/
  maxAge : Nat := 0
  /-- Keeps data for ever, whatever its age. -/
  immutable : Bool := false
  staleWindow : Nat := 300000
  maxEntries : Nat := 4096
  normalization : Bool := true
  identityFields : List String := ["id", "_id"]
  arrayMerge : ArrayMerge := .keepEqualLength
  deriving DecidableEq, Repr, Inhabited

structure ScheduleSettings where
  /-- How long a window collects selections, in milliseconds. -/
  window : Nat := 0
  deriving DecidableEq, Repr, Inhabited

structure SelectionSettings where
  aliasLength : Nat := 6
  documentCapacity : Nat := 256
  deriving DecidableEq, Repr, Inhabited

structure TransportSettings where
  endpoint : String := "http://localhost:4000/graphql"
  headers : Fields String := []
  /-- The environment variable that holds a bearer token. -/
  authTokenVariable : Option String := none
  /-- In seconds. -/
  timeout : Nat := 30
  maxRetries : Nat := 3
  deriving DecidableEq, Repr, Inhabited

inductive LogFormat
  | text
  | json
  deriving DecidableEq, Repr, Inhabited

structure LoggingSettings where
  level : String := "info"
  format : LogFormat := .text
  file : Option String := none
  deriving DecidableEq, Repr, Inhabited

structure Settings where
  cache : CacheSettings := {}
  schedule : ScheduleSettings := {}
  selection : SelectionSettings := {}
  transport : TransportSettings := {}
  logging : LoggingSettings := {}
  deriving DecidableEq, Repr, Inhabited

/-- Settings given on the command line. -/
structure SettingsOverrides where
  endpoint : Option String := none
  maxAge : Option Nat := none
  window : Option Nat := none
  normalization : Option Bool := none
  logLevel : Option String := none
  deriving DecidableEq, Repr, Inhabited

inductive SettingsError
  /-- A file cannot be read. -/
  | unreadable
  /-- A file is no settings file. -/
  | malformed
  /-- A file cannot be written. -/
  | unwritable
  /-- A number does not fit the file format. -/
  | unencodable
  | noEntries
  | noIdentityFields
  | aliasLengthRange (length : Nat)
  | noEndpoint
  | notAnUrl (endpoint : String)
  | unknownArrayMerge (text : String)
  deriving DecidableEq, Repr

namespace Settings

/-- The shortest aliases that keep collisions unlikely. -/
def minAliasLength : Nat := 4

/-- The length of a whole digest. -/
def maxAliasLength : Nat := 64

end Settings

namespace SettingsError

/-- Whether several settings are at fault together, or none in particular. -/
def isGeneral : SettingsError → Bool
  | .noIdentityFields | .noEndpoint | .unknownArrayMerge _ => true
  | _ => false

/-- What is wrong, without the settings that it is said of. -/
def complaint : SettingsError → String
  | .unreadable => "cannot be read"
  | .malformed => "is not a settings file"
  | .unwritable => "cannot be written"
  | .unencodable => "a number does not fit the settings file"
  | .noEntries => "cache.max_entries: must be greater than zero"
  | .noIdentityFields => "cache.normalization is enabled but cache.identity_fields is empty"
  | .aliasLengthRange length =>
    s!"selection.alias_length: must be between {Settings.minAliasLength} and "
      ++ s!"{Settings.maxAliasLength}, got {length}"
  | .noEndpoint => "transport.endpoint is required"
  | .notAnUrl endpoint => s!"transport.endpoint: '{endpoint}' is not an http(s) URL"
  | .unknownArrayMerge text =>
    s!"Unknown array merge mode: '{text}'. Valid values: keep-equal-length, replace"

def message (e : SettingsError) : String :=
  if e.isGeneral then "invalid configuration: " ++ e.complaint else e.complaint

end SettingsError

/-- Reads an array merge mode. -/
def ArrayMerge.ofText (s : String) : Except SettingsError ArrayMerge :=
  match ArrayMerge.ofText? s with
  | some mode => .ok mode
  | none => .error (.unknownArrayMerge s)

def LogFormat.name : LogFormat → String
  | .text => "text"
  | .json => "json"

def CacheSettings.validate (s : CacheSettings) : Except SettingsError Unit :=
  if s.maxEntries = 0 then .error .noEntries
  else if s.normalization && s.identityFields.isEmpty then .error .noIdentityFields
  else .ok ()

def SelectionSettings.validate (s : SelectionSettings) : Except SettingsError Unit :=
  if s.aliasLength < Settings.minAliasLength ∨ Settings.maxAliasLength < s.aliasLength then
    .error (.aliasLengthRange s.aliasLength)
  else .ok ()

/-- Whether a text begins like the address of a web server; capitals are not taken for small
letters. -/
def isWebAddress (s : String) : Bool :=
  "http://".toList.isPrefixOf s.toList || "https://".toList.isPrefixOf s.toList

def TransportSettings.validate (s : TransportSettings) : Except SettingsError Unit :=
  if s.endpoint = "" then .error .noEndpoint
  else if isWebAddress s.endpoint then .ok ()
  else .error (.notAnUrl s.endpoint)

namespace Settings

/-- The later value, unless it is the default. -/
def pick {α : Type} [DecidableEq α] (unset : α) (earlier later : α) : α :=
  if later = unset then earlier else later

def mergeCache (a b : CacheSettings) : CacheSettings :=
  let d : CacheSettings := {}
  { maxAge := pick d.maxAge a.maxAge b.maxAge
    immutable := a.immutable || b.immutable
    staleWindow := pick d.staleWindow a.staleWindow b.staleWindow
    maxEntries := pick d.maxEntries a.maxEntries b.maxEntries
    normalization := a.normalization && b.normalization
    identityFields := pick d.identityFields a.identityFields b.identityFields
    arrayMerge := pick d.arrayMerge a.arrayMerge b.arrayMerge }

def mergeSelection (a b : SelectionSettings) : SelectionSettings :=
  let d : SelectionSettings := {}
  { aliasLength := pick d.aliasLength a.aliasLength b.aliasLength
    documentCapacity := pick d.documentCapacity a.documentCapacity b.documentCapacity }

def mergeTransport (a b : TransportSettings) : TransportSettings :=
  let d : TransportSettings := {}
  { endpoint := pick d.endpoint a.endpoint b.endpoint
    headers := Fields.overlay a.headers b.headers
    authTokenVariable := b.authTokenVariable.or a.authTokenVariable
    timeout := pick d.timeout a.timeout b.timeout
    maxRetries := pick d.maxRetries a.maxRetries b.maxRetries }

def mergeLogging (a b : LoggingSettings) : LoggingSettings :=
  let d : LoggingSettings := {}
  { level := pick d.level a.level b.level
    format := pick d.format a.format b.format
    file := b.file.or a.file }

/-- Puts a later layer over an earlier one. -/
def merge (a b : Settings) : Settings where
  cache := mergeCache a.cache b.cache
  schedule := { window := pick 0 a.schedule.window b.schedule.window }
  selection := mergeSelection a.selection b.selection
  transport := mergeTransport a.transport b.transport
  logging := mergeLogging a.logging b.logging

def override (s : Settings) (o : SettingsOverrides) : Settings :=
  { s with
    cache := { s.cache with
      maxAge := o.maxAge.getD s.cache.maxAge
      normalization := o.normalization.getD s.cache.normalization }
    schedule := { window := o.window.getD s.schedule.window }
    transport := { s.transport with endpoint := o.endpoint.getD s.transport.endpoint }
    logging := { s.logging with level := o.logLevel.getD s.logging.level } }

/-- Checks the sections in their order; the first fault counts. -/
def validate (s : Settings) : Except SettingsError Unit := do
  s.cache.validate
  s.selection.validate
  s.transport.validate

/-- Merges layers, the earliest first, and checks the result. -/
def ofLayers (layers : List Settings) (overrides : SettingsOverrides) :
    Except SettingsError Settings := do
  let s := (layers.foldl merge {}).override overrides
  s.validate
  pure s

/-- How a cache is made to these settings. -/
def cacheOptions (s : CacheSettings) : Cache.Options where
  maxAge := if s.immutable || s.maxAge == 0 then none else some s.maxAge
  staleWindow := s.staleWindow
  maxEntries := max s.maxEntries 1
  normalizer :=
    if s.normalization then some (.withIdentityFields s.identityFields s.arrayMerge) else none

/-- How a client is made to these settings. -/
def clientOptions (s : Settings) : Client.Options where
  cache := cacheOptions s.cache
  window := s.schedule.window
  aliasLength := s.selection.aliasLength
  documentCapacity := s.selection.documentCapacity
  identityFields := s.cache.identityFields

def toJson (s : Settings) : Json :=
  .record [
    ("cache", .record [
      ("max_age_ms", .nat s.cache.maxAge),
      ("immutable", .bool s.cache.immutable),
      ("stale_while_revalidate_ms", .nat s.cache.staleWindow),
      ("max_entries", .nat s.cache.maxEntries),
      ("normalization", .bool s.cache.normalization),
      ("identity_fields", .array (s.cache.identityFields.map .string)),
      ("array_merge", .string s.cache.arrayMerge.text)]),
    ("scheduler", .record [("window_ms", .nat s.schedule.window)]),
    ("selection", .record [
      ("alias_length", .nat s.selection.aliasLength),
      ("document_cache_size", .nat s.selection.documentCapacity)]),
    ("transport", .record [
      ("endpoint", .string s.transport.endpoint),
      ("headers", .object (Fields.mapValues .string s.transport.headers)),
      ("auth_token_env", .optional .string s.transport.authTokenVariable),
      ("timeout_secs", .nat s.transport.timeout),
      ("max_retries", .nat s.transport.maxRetries)]),
    ("logging", .record [
      ("level", .string s.logging.level),
      ("format", .string s.logging.format.name),
      ("file", .optional .string s.logging.file)])]

end Settings
end LazyGraph
