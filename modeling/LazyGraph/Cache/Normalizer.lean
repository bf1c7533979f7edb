import LazyGraph.Cache.Reference
import LazyGraph.Json.Printer

/-!
Normalization: identified objects of a value go into the table, and references to them stay.

An object that is there already is merged with the arriving one. What was written to the table is
recorded, so that subscribers and placeholders of other paths learn of it.
-/
namespace LazyGraph

/-- What becomes of a list field that is stored and arrives again. -/
inductive ArrayMerge
  /-- Lists of one length keep the stored list; a list of another length replaces it. -/
  | keepEqualLength
  /-- The arriving list always replaces the stored one. -/
  | replace
  deriving DecidableEq, Repr, Inhabited

namespace ArrayMerge

def text : ArrayMerge → String
  | .keepEqualLength => "keep-equal-length"
  | .replace => "replace"

/-- The lower case of a character as far as it is an ASCII letter: the capitals, and the Kelvin
sign, whose lower case is the letter k. No other character has an ASCII letter for lower case. -/
def lowerLetter (c : Char) : Char :=
  if c = '\u212a' then 'k' else c.toLower

/-- Reads a mode in any case, with hyphens or underscores. -/
def ofText? (s : String) : Option ArrayMerge :=
  let lower := String.ofList (s.toList.map lowerLetter)
  if lower = "keep-equal-length" ∨ lower = "keep_equal_length" then some .keepEqualLength
  else if lower = "replace" then some .replace
  else none

end ArrayMerge

/-- Makes one object of the stored and the arriving one with an identity. -/
abbrev MergeResolver := String → Fields Json → Fields Json → Fields Json

structure Normalizer where
  /-- The identity of an object, if it has one. -/
  identity : Fields Json → Option String
  arrayMerge : ArrayMerge := .keepEqualLength
  /-- Takes the place of the merge member by member. -/
  resolver : Option MergeResolver := none

/-- The identities that an operation wrote, with the keys written to each. -/
abbrev Touched := Fields (List String)

namespace Touched

/-- Adds keys to those written to an identity. -/
def add (t : Touched) (id : String) (keys : List String) : Touched :=
  let before := (Fields.get? t id).getD []
  Fields.insert t id (before ++ keys.filter fun k => !before.contains k)

/-- Whether a key was written to an identity. -/
def has (t : Touched) (id key : String) : Bool :=
  ((Fields.get? t id).getD []).contains key

def ids (t : Touched) : List String := Fields.keys t

end Touched

namespace Normalizer

/-- How deep a value is normalized; what lies deeper is stored as it is. -/
def maxDepth : Nat := 15

/-- The text of a value that identifies: a string, or a number. -/
def identityText? : Json → Option String
  | .string s => some s
  | .number n => some (Json.numberText n)
  | _ => none

/-- The type name and the first of the fields that holds a string or a number. -/
def identityByFields (fields : List String) (object : Fields Json) : Option String := do
  let typename ← (Fields.get? object "__typename").bind Json.asString?
  let id ← fields.findSome? fun f => (Fields.get? object f).bind identityText?
  some s!"{typename}:{id}"

/-- The fields that identify objects, unless others are given. -/
def defaultIdentityFields : List String := ["id", "_id"]

def withIdentityFields (fields : List String) (arrayMerge : ArrayMerge := .keepEqualLength) :
    Normalizer :=
  { identity := identityByFields fields, arrayMerge }

instance : Inhabited Normalizer := ⟨withIdentityFields defaultIdentityFields⟩

/-- Whether a stored list stays in place of an arriving one. -/
def keepsStored (n : Normalizer) (stored : Option Json) (arriving : Json) : Bool :=
  match n.arrayMerge, stored, arriving with
  | .keepEqualLength, some (.array old), .array new => old.length == new.length
  | _, _, _ => false

/-- The stored members with the arriving ones put over them, save the lists that stay. -/
def mergeMembers (n : Normalizer) (stored arriving : Fields Json) : Fields Json :=
  arriving.foldl
    (fun merged p =>
      if n.keepsStored (Fields.get? merged p.1) p.2 then merged
      else Fields.insert merged p.1 p.2)
    stored

def merge (n : Normalizer) (id : String) (stored arriving : Fields Json) : Fields Json :=
  match n.resolver with
  | some resolve => resolve id stored arriving
  | none => n.mergeMembers stored arriving

/-- The table that a value is normalized into, and what was written to it. -/
structure Progress where
  table : ObjectTable
  touched : Touched := []

/-- Stores an identified object, merged with one that is there. -/
def store (n : Normalizer) (id : String) (object : Fields Json) (p : Progress) : Progress :=
  let merged := match Fields.get? p.table id with
    | some (.object stored) => n.merge id stored object
    | _ => object
  { table := Fields.insert p.table id (.object merged)
    touched := p.touched.add id (Fields.keys object) }

/-- Stores the object if it has an identity; what stays in its place. -/
def settle (n : Normalizer) (object : Fields Json) (p : Progress) : Json × Progress :=
  match n.identity object with
  | none => (.object object, p)
  | some id => (.reference id, n.store id object p)

mutual
/-- Normalizes a value to a number of levels. Parts come before the whole, items and members in
their order. References and scalars stay. -/
def normalizeWithin (n : Normalizer) (levels : Nat) (p : Progress) : Json → Json × Progress
  | .array items =>
    match levels with
    | 0 => (.array items, p)
    | levels + 1 =>
      let (items, p) := normalizeItems n levels p items
      (.array items, p)
  | .object fs =>
    match levels with
    | 0 => (.object fs, p)
    | levels + 1 =>
      match Json.referenceIn? fs with
      | some _ => (.object fs, p)
      | none =>
        let (fs, p) := normalizeFields n levels p fs
        n.settle fs p
  | v => (v, p)

def normalizeItems (n : Normalizer) (levels : Nat) (p : Progress) :
    List Json → List Json × Progress
  | [] => ([], p)
  | v :: rest =>
    let (v, p) := normalizeWithin n levels p v
    let (rest, p) := normalizeItems n levels p rest
    (v :: rest, p)

def normalizeFields (n : Normalizer) (levels : Nat) (p : Progress) :
    List (String × Json) → List (String × Json) × Progress
  | [] => ([], p)
  | (k, v) :: rest =>
    let (v, p) := normalizeWithin n levels p v
    let (rest, p) := normalizeFields n levels p rest
    ((k, v) :: rest, p)
end

/-- Normalizes a value into a table. -/
def normalize (n : Normalizer) (table : ObjectTable) (v : Json) : Json × Progress :=
  normalizeWithin n (maxDepth + 1) { table } v

end Normalizer
end LazyGraph
