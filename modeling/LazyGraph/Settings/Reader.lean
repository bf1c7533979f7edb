import LazyGraph.Json.Record
import LazyGraph.Settings

/-!
Settings read from a tree of values.

A section or setting that is absent has its default, and one that is unknown is passed over. The
tree is that of a JSON text or that of a settings file, which differ in two rules.
-/
namespace LazyGraph.Settings

/-- Where a tree of values comes from. -/
inductive Origin
  | json
  | file
  deriving DecidableEq, Repr

/-- The members of a section under their names. A list gives them in their order; in a JSON text
it may not be longer than the names. -/
def sectionMembers? (origin : Origin) (names : List String) : Json → Option (Fields Json)
  | .object fs => some fs
  | .array items =>
    match origin with
    | .json => Json.recordMembers? names (.array items)
    | .file => some (Fields.ofList (names.zip items))
  | _ => none

/-- A setting that is absent has its default. -/
def setting? {α : Type} (read? : Json → Option α) (fs : Fields Json) (name : String) (unset : α) :
    Option α :=
  match Fields.get? fs name with
  | none => some unset
  | some v => read? v

def bool? : Json → Option Bool
  | .bool b => some b
  | _ => none

/-- What may stand beside the name of a choice that is written as a member. -/
def isBlankChoice (origin : Origin) (v : Json) : Bool :=
  match origin, v with
  | .json, .null => true
  | .file, .array [] => true
  | .file, .object [] => true
  | _, _ => false

/-- A choice by its exact name, as a text or as the one member of an object. -/
def choice? {α : Type} (origin : Origin) (choices : List (String × α)) : Json → Option α
  | .string s => choices.lookup s
  | .object [(name, v)] => if isBlankChoice origin v then choices.lookup name else none
  | _ => none

/-- Natural numbers of 64 bits. -/
def word? : Json → Option Nat := Json.natBelow? (Nat.pow 2 64)

def texts? : Json → Option (List String) := Json.arrayOf? Json.asString?

/-- A table of texts. -/
def textTable? (v : Json) : Option (Fields String) :=
  v.asObject?.bind fun fs => fs.mapM fun (k, v) => v.asString?.map (k, ·)

def arrayMerges : List (String × ArrayMerge) :=
  [(ArrayMerge.keepEqualLength.text, .keepEqualLength), (ArrayMerge.replace.text, .replace)]

def logFormats : List (String × LogFormat) :=
  [(LogFormat.text.name, .text), (LogFormat.json.name, .json)]

def cacheOfTree? (origin : Origin) (v : Json) : Option CacheSettings := do
  let d : CacheSettings := {}
  let fs ← sectionMembers? origin ["max_age_ms", "immutable", "stale_while_revalidate_ms",
    "max_entries", "normalization", "identity_fields", "array_merge"] v
  some {
    maxAge := ← setting? word? fs "max_age_ms" d.maxAge
    immutable := ← setting? bool? fs "immutable" d.immutable
    staleWindow := ← setting? word? fs "stale_while_revalidate_ms" d.staleWindow
    maxEntries := ← setting? word? fs "max_entries" d.maxEntries
    normalization := ← setting? bool? fs "normalization" d.normalization
    identityFields := ← setting? texts? fs "identity_fields" d.identityFields
    arrayMerge := ← setting? (choice? origin arrayMerges) fs "array_merge" d.arrayMerge }

def scheduleOfTree? (origin : Origin) (v : Json) : Option ScheduleSettings := do
  let fs ← sectionMembers? origin ["window_ms"] v
  some { window := ← setting? word? fs "window_ms" 0 }

def selectionOfTree? (origin : Origin) (v : Json) : Option SelectionSettings := do
  let d : SelectionSettings := {}
  let fs ← sectionMembers? origin ["alias_length", "document_cache_size"] v
  some {
    aliasLength := ← setting? word? fs "alias_length" d.aliasLength
    documentCapacity := ← setting? word? fs "document_cache_size" d.documentCapacity }

def transportOfTree? (origin : Origin) (v : Json) : Option TransportSettings := do
  let d : TransportSettings := {}
  let fs ← sectionMembers? origin
    ["endpoint", "headers", "auth_token_env", "timeout_secs", "max_retries"] v
  some {
    endpoint := ← setting? Json.asString? fs "endpoint" d.endpoint
    headers := ← setting? textTable? fs "headers" d.headers
    authTokenVariable := ← Json.optionalMember? Json.asString? fs "auth_token_env"
    timeout := ← setting? word? fs "timeout_secs" d.timeout
    maxRetries := ← setting? (Json.natBelow? (Nat.pow 2 32)) fs "max_retries" d.maxRetries }

def loggingOfTree? (origin : Origin) (v : Json) : Option LoggingSettings := do
  let d : LoggingSettings := {}
  let fs ← sectionMembers? origin ["level", "format", "file"] v
  some {
    level := ← setting? Json.asString? fs "level" d.level
    format := ← setting? (choice? origin logFormats) fs "format" d.format
    file := ← Json.optionalMember? Json.asString? fs "file" }

/-- Reads settings from a tree of values. -/
def ofTree? (origin : Origin) (v : Json) : Option Settings := do
  let fs ← sectionMembers? origin ["cache", "scheduler", "selection", "transport", "logging"] v
  some {
    cache := ← setting? (cacheOfTree? origin) fs "cache" {}
    schedule := ← setting? (scheduleOfTree? origin) fs "scheduler" {}
    selection := ← setting? (selectionOfTree? origin) fs "selection" {}
    transport := ← setting? (transportOfTree? origin) fs "transport" {}
    logging := ← setting? (loggingOfTree? origin) fs "logging" {} }

end LazyGraph.Settings
