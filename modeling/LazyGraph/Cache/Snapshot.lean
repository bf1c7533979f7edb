import LazyGraph.Cache.Reference
import LazyGraph.Error
import LazyGraph.Json.Record
import LazyGraph.Operation

/-!
Snapshots: the data of a cache as one JSON value, with the root fields of each operation and the
objects that references lead to.
-/
namespace LazyGraph

structure Snapshot where
  query : Option (Fields Json) := none
  mutation : Option (Fields Json) := none
  subscription : Option (Fields Json) := none
  objects : Option ObjectTable := none
  version : Option String := none
  deriving Inhabited

namespace Snapshot

def currentVersion : String := "1"

def root (s : Snapshot) : Operation → Option (Fields Json)
  | .query => s.query
  | .mutation => s.mutation
  | .subscription => s.subscription

def ofJson (v : Json) : Except ValidationError Snapshot :=
  let read? : Option Snapshot := do
    let fs ← Json.recordMembers?
      ["query", "mutation", "subscription", "normalized", "version"] v
    some {
      query := ← Json.optionalMember? Json.asObject? fs "query"
      mutation := ← Json.optionalMember? Json.asObject? fs "mutation"
      subscription := ← Json.optionalMember? Json.asObject? fs "subscription"
      objects := ← Json.optionalMember? Json.asObject? fs "normalized"
      version := ← Json.optionalMember? Json.asString? fs "version" }
  match read? with
  | some s => .ok s
  | none => .error (.invalidSnapshot .shape)

/-- Absent parts are left out. -/
def toJson (s : Snapshot) : Json :=
  let part (name : String) (fs : Option (Fields Json)) : List (String × Json) :=
    (fs.map fun fs => (name, Json.object fs)).toList
  .record (part "query" s.query ++ part "mutation" s.mutation
    ++ part "subscription" s.subscription ++ part "normalized" s.objects
    ++ (s.version.map fun v => ("version", Json.string v)).toList)

/-- The values of all root fields, then those of all objects. -/
def contents (s : Snapshot) : List Json :=
  (Operation.all.flatMap fun op => Fields.values ((s.root op).getD []))
    ++ Fields.values (s.objects.getD [])

/-- A snapshot has a root, and every reference in it leads to an object of it. -/
def validate (s : Snapshot) : Except ValidationError Unit :=
  if Operation.all.all fun op => (s.root op).isNone then .error (.invalidSnapshot .noRoot)
  else
    let missing := (s.contents.flatMap Json.references).find?
      fun id => !Fields.contains (s.objects.getD []) id
    match missing with
    | some id => .error (.unresolvedReference id)
    | none => .ok ()

end Snapshot
end LazyGraph
