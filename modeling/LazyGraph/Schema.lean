import LazyGraph.Error
import LazyGraph.Json.Reader
import LazyGraph.Json.Record
import LazyGraph.Schema.TypeRef

/-!
Schemas: the types with their fields, and the possible types of unions and interfaces.

The JSON form maps type names to fields, and a field to its type text and the type texts of its
arguments. The member `$on` of a type lists its possible types, as an array of names or as the
keys of an object.
-/
namespace LazyGraph

/-- The name that marks possible types in a schema and union branches in a selection. -/
def unionMarker : String := "$on"

/-- A field with its type and the types of its arguments. -/
structure FieldDef where
  type : String
  arguments : Fields String := []
  deriving Repr, Inhabited

def FieldDef.typeRef (d : FieldDef) : TypeRef := .parse d.type

/-- What the accessors make of a named type. -/
inductive TypeKind
  | scalar
  | object
  | abstract
  deriving DecidableEq, Repr

structure Schema where
  types : Fields (Fields FieldDef) := []
  possibleTypes : Fields (List String) := []
  deriving Inhabited

namespace Schema

def builtinScalars : List String := ["String", "Int", "Float", "Boolean", "ID"]

def field? (s : Schema) (type field : String) : Option FieldDef :=
  (Fields.get? s.types type).bind (Fields.get? · field)

/-- Every type has the field `__typename`, declared or not. -/
def typenameField : FieldDef := { type := "String!" }

def requireField (s : Schema) (type field : String) : Except ValidationError FieldDef :=
  if field = "__typename" then .ok typenameField
  else match s.field? type field with
    | some d => .ok d
    | none => .error (.unknownField type field)

def hasType (s : Schema) (name : String) : Bool :=
  Fields.contains s.types name || Fields.contains s.possibleTypes name

/-- A type with possible types is abstract, another declared type is an object unless it has the
name of a built-in scalar, and all else is a scalar. -/
def kind (s : Schema) (name : String) : TypeKind :=
  if Fields.contains s.possibleTypes name then .abstract
  else if Fields.contains s.types name && !builtinScalars.contains name then .object
  else .scalar

def possibleTypesOf (s : Schema) (name : String) : List String :=
  (Fields.get? s.possibleTypes name).getD []

/-- The candidates that the type declares. -/
def identityFields (s : Schema) (type : String) (candidates : List String) : List String :=
  candidates.filter fun f => (s.field? type f).isSome

/-- Adds an object type, or puts new fields in place of its old ones. -/
def withType (s : Schema) (name : String) (fields : Fields FieldDef) : Schema :=
  { s with types := Fields.insert s.types name fields }

/-- Declares the possible types of a union or interface. -/
def withPossibleTypes (s : Schema) (name : String) (members : List String) : Schema :=
  { s with possibleTypes := Fields.insert s.possibleTypes name members }

def memberNames? : Json → Option (List String)
  | .array items => items.mapM Json.asString?
  | .object fs => some (Fields.keys fs)
  | _ => none

def fieldDef? (v : Json) : Option FieldDef := do
  let fs ← Json.recordMembers? ["__type", "__args"] v
  let type ← Json.requiredMember? Json.asString? fs "__type"
  let arguments ← match Fields.get? fs "__args" with
    | none => some []
    | some v => do
      let args ← v.asObject?
      args.mapM fun (name, t) => t.asString?.map (name, ·)
  some { type, arguments }

/-- Adds the type that one member of the JSON form declares. -/
def addEntry (s : Schema) (name : String) (entry : Json) : Except ValidationError Schema := do
  let .object fields := entry | throw (.invalidSchema (.typeNotAnObject name))
  let s ← match Fields.get? fields unionMarker with
    | none => pure s
    | some members => match memberNames? members with
      | some names => pure (s.withPossibleTypes name names)
      | none => throw (.invalidSchema (.members name))
  match (Fields.erase fields unionMarker).mapM fun (f, d) => (fieldDef? d).map (f, ·) with
  | some defs => pure (s.withType name defs)
  | none => throw (.invalidSchema (.fields name))

/-- Types are read in the order of their names, and the first fault counts. -/
def ofJson (v : Json) : Except ValidationError Schema :=
  match v with
  | .object entries => entries.foldlM (fun s p => addEntry s p.1 p.2) {}
  | _ => .error (.invalidSchema .notAnObject)

def ofText (text : String) : Except ValidationError Schema :=
  match Json.parse? text with
  | some v => ofJson v
  | none => .error (.invalidSchema .text)

end Schema
end LazyGraph
