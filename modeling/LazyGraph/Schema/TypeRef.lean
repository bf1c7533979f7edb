import LazyGraph.Text

/-!
Type references such as `[User!]!`: a named type in wrappers of lists and non-null marks.
-/
namespace LazyGraph

structure TypeRef where
  /-- The named type inside all wrappers. -/
  name : String
  /-- The number of list wrappers. -/
  listDepth : Nat
  /-- Whether the outermost wrapper allows null. -/
  nullable : Bool
  deriving DecidableEq, Repr, Inhabited

namespace TypeRef

/-- The characters that wrappers are written with. -/
def isWrapper (c : Char) : Bool := c == '[' || c == ']' || c == '!'

/-- Reads a reference off its ends: leading brackets count the lists, a final mark forbids null,
and the name is what remains between the wrappers. -/
def parse (raw : String) : TypeRef :=
  let cs := Text.stripBoth Text.isBlank raw.toList
  { name := String.ofList (Text.stripBoth isWrapper cs)
    listDepth := (cs.takeWhile (· == '[')).length
    nullable := cs.getLast? != some '!' }

/-- The type of an element, which may always be null. -/
def item (t : TypeRef) : TypeRef :=
  { t with listDepth := t.listDepth - 1, nullable := true }

def isList (t : TypeRef) : Bool := 0 < t.listDepth

end TypeRef
end LazyGraph
