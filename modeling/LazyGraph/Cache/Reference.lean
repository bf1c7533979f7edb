import LazyGraph.Json

/-!
References: an identified object is stored once, in a table under its identity, and stands
everywhere else as an object with the one member `__ref`.

`expand` puts objects in the place of references, and `reach` collects the identities that
references lead to. Both end on cyclic tables, since they follow no identity twice: `expand` on
one way down, `reach` at all.
-/
namespace LazyGraph

/-- The key of reference objects. -/
def referenceKey : String := "__ref"

/-- Identified objects under their identities. -/
abbrev ObjectTable := Fields Json

namespace Json

def reference (id : String) : Json := .object [(referenceKey, .string id)]

/-- The identity in the members of a reference object, which has no other member. -/
def referenceIn? : List (String × Json) → Option String
  | [(key, .string id)] => if key = referenceKey then some id else none
  | _ => none

def referenceId? : Json → Option String
  | .object fs => referenceIn? fs
  | _ => none

mutual
/-- Puts `f id` in the place of every reference for which it gives a value. -/
def replaceReferences (f : String → Option Json) : Json → Json
  | .object fs =>
    match referenceIn? fs with
    | some id => (f id).getD (.object fs)
    | none => .object (replaceInFields f fs)
  | .array items => .array (replaceInItems f items)
  | v => v

def replaceInItems (f : String → Option Json) : List Json → List Json
  | [] => []
  | v :: rest => replaceReferences f v :: replaceInItems f rest

def replaceInFields (f : String → Option Json) : List (String × Json) → List (String × Json)
  | [] => []
  | (k, v) :: rest => (k, replaceReferences f v) :: replaceInFields f rest
end

mutual
/-- The identities of the references in a value, in their order, none of them followed. -/
def references : Json → List String
  | .object fs =>
    match referenceIn? fs with
    | some id => [id]
    | none => referencesInFields fs
  | .array items => referencesInItems items
  | _ => []

def referencesInItems : List Json → List String
  | [] => []
  | v :: rest => references v ++ referencesInItems rest

def referencesInFields : List (String × Json) → List String
  | [] => []
  | (_, v) :: rest => references v ++ referencesInFields rest
end

/-- Expands references below those in `opened`, which enclose the value and stay as they are. -/
def expandWithin (table : ObjectTable) : Nat → List String → Json → Json
  | 0, _, v => v
  | fuel + 1, opened, v =>
    v.replaceReferences fun id =>
      if opened.contains id then none
      else (Fields.get? table id).map (expandWithin table fuel (id :: opened))

/-- The value with objects in the place of references, save those that lead out of the table and
those that lead back to an enclosing object. No way down opens an identity of the table twice, so
the size of the table bounds the depth. -/
def expand (table : ObjectTable) (v : Json) : Json :=
  expandWithin table (table.length + 1) [] v

/-- The value that a reference stands for; any other value stands for itself. -/
def resolve? (table : ObjectTable) (v : Json) : Option Json :=
  match v.referenceId? with
  | some id => Fields.get? table id
  | none => some v

/-- Adds to `seen` the identities that the values lead to, round by round. Identities in `seen`
are not followed. -/
def reachWithin (table : ObjectTable) : Nat → List String → List Json → List String
  | 0, seen, _ => seen
  | fuel + 1, seen, values =>
    match ((values.flatMap references).filter fun id => !seen.contains id).eraseDups with
    | [] => seen
    | id :: ids =>
      reachWithin table fuel (seen ++ id :: ids) ((id :: ids).filterMap (Fields.get? table ·))

/-- All identities that the values lead to, with those of `seen`. Each round but the last finds an
identity of the table, so the size of the table bounds the rounds. -/
def reach (table : ObjectTable) (seen : List String) (values : List Json) : List String :=
  reachWithin table (table.length + 1) seen values

end Json
end LazyGraph
