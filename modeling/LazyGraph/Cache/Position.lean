import LazyGraph.Cache.Path

/-!
Changes at a position of a value: putting a value there, and taking it away.

Taking an item from an array leaves null in its place, so that the other items keep theirs.
-/
namespace LazyGraph.Json

/-- Changes the value one segment down. -/
def alter? (v : Json) (segment : String) (f : Json → Option Json) : Option Json :=
  match v with
  | .object fs => do
    let u ← Fields.get? fs segment
    let u ← f u
    some (.object (Fields.insert fs segment u))
  | .array items => do
    let i ← Text.index? segment
    let u ← items[i]?
    let u ← f u
    some (.array (items.set i u))
  | _ => none

/-- Puts a value one segment down. An object takes any key; an array takes the positions that it
has and the next one. -/
def put? (v : Json) (segment : String) (value : Json) : Option Json :=
  match v with
  | .object fs => some (.object (Fields.insert fs segment value))
  | .array items =>
    match Text.index? segment with
    | some i =>
      if i < items.length then some (.array (items.set i value))
      else if i = items.length then some (.array (items ++ [value]))
      else none
    | none => none
  | _ => none

/-- Takes away the value one segment down. -/
def drop? (v : Json) (segment : String) : Option Json :=
  match v with
  | .object fs =>
    if Fields.contains fs segment then some (.object (Fields.erase fs segment)) else none
  | .array items =>
    match Text.index? segment with
    | some i => if i < items.length then some (.array (items.set i .null)) else none
    | none => none
  | _ => none

/-- Puts a value at the end of a way down, whose segments but the last must be there. -/
def writeAt? (v value : Json) : List String → Option Json
  | [] => some value
  | [last] => v.put? last value
  | segment :: rest => v.alter? segment fun u => writeAt? u value rest

/-- Takes away the value at the end of a way down. The whole value cannot be taken away. -/
def removeAt? (v : Json) : List String → Option Json
  | [] => none
  | [last] => v.drop? last
  | segment :: rest => v.alter? segment fun u => removeAt? u rest

/-- Takes away the value at the end of a way down, if there is one. -/
def removeAt (v : Json) (path : List String) : Json := (v.removeAt? path).getD v

end LazyGraph.Json
