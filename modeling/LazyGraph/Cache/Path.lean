import LazyGraph.Error
import LazyGraph.Json
import LazyGraph.Operation
import LazyGraph.Text

/-!
Cache paths: an operation, one of its root fields, and the way down from there.

A segment below the field is a key where the value is an object and a position where it is an
array.
-/
namespace LazyGraph

structure CachePath where
  root : Operation
  field : String
  rest : List String := []
  deriving DecidableEq, Repr, Inhabited

namespace CachePath

/-- All segments below the root. -/
def segments (p : CachePath) : List String := p.field :: p.rest

def text (p : CachePath) : String := Text.dotted (p.root.text :: p.segments)

/-- Reads an operation and at least one segment, none of them empty. -/
def parse (text : String) : Except ValidationError CachePath :=
  let fail (fault : PathFault) : Except ValidationError CachePath :=
    .error (.malformedPath text fault)
  match Text.segments text with
  | [] => fail .empty
  | root :: below =>
    if root = "" then fail .empty
    else match Operation.ofText? root with
      | none => fail (.unknownOperation root)
      | some root => match below with
        | [] => fail .noField
        | field :: rest =>
          if (field :: rest).any (· == "") then fail .emptySegment
          else .ok { root, field, rest }

/-- The path of selection keys, an operation first. -/
def ofKeys (keys : List String) : Except ValidationError CachePath :=
  parse (Text.dotted keys)

/-- The path one segment further down. -/
def child (p : CachePath) (segment : String) : CachePath :=
  { p with rest := p.rest ++ [segment] }

/-- Whether `p` is `q` or lies above it. -/
def isPrefixOf (p q : CachePath) : Bool :=
  p.root == q.root && p.field == q.field && p.rest.isPrefixOf q.rest

end CachePath

namespace Json

/-- The value one segment down: a member of an object or an item of an array. -/
def step? (v : Json) (segment : String) : Option Json :=
  match v with
  | .object fs => Fields.get? fs segment
  | .array items => (Text.index? segment).bind (items[·]?)
  | _ => none

/-- The value at the end of a way down. -/
def walk? (v : Json) : List String → Option Json
  | [] => some v
  | segment :: rest => (v.step? segment).bind (walk? · rest)

end Json
end LazyGraph
