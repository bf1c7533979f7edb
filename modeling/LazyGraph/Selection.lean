import LazyGraph.Digest
import LazyGraph.Json.Printer
import LazyGraph.Operation
import LazyGraph.Schema
import LazyGraph.Text

/-!
Selections: nodes of a tree of fields with typed arguments, each known with its ancestors.

A forest remembers the children of its nodes under their labels, so that one request for a child
always yields one node.
-/
namespace LazyGraph

namespace Selection

/-- What a node selects of its parent: a field, or a position of a list. -/
inductive Key
  | field (name : String)
  | index (position : Nat)
  deriving DecidableEq, Repr, Inhabited

namespace Key

def text : Key → String
  | .field name => name
  | .index position => toString position

def isIndex : Key → Bool
  | .field _ => false
  | .index _ => true

end Key

/-- An argument value with its type. -/
structure Argument where
  type : String
  value : Json
  deriving Inhabited

structure Node where
  id : Nat
  key : Key
  aliasName : Option String := none
  arguments : Fields Argument := []
  /-- Whether the node is a type branch below the `$on` node. -/
  isBranch : Bool := false
  deriving Inhabited

namespace Node

/-- The alias, or the key of a node without one. -/
def label (n : Node) : String := n.aliasName.getD n.key.text

/-- Whether the node is the `$on` node, which stands above the branches of a union. -/
def isMarker (n : Node) : Bool := n.key = .field unionMarker

/-- Whether the node names a place of the cache; positions and branches do not. -/
def isPlace (n : Node) : Bool := !n.key.isIndex && !n.isMarker && !n.isBranch

end Node
end Selection

/-- A node with its ancestors, the nearest first. -/
structure Selection where
  node : Selection.Node
  above : List Selection.Node := []
  /-- The number of digest digits in the aliases of the nodes below. -/
  aliasLength : Nat := 6
  deriving Inhabited

namespace Selection

/-- The length of the digest in generated aliases, unless another is given. -/
def defaultAliasLength : Nat := 6

def id (s : Selection) : Nat := s.node.id

/-- The nodes from the root down to this one. -/
def ancestry (s : Selection) : List Node := (s.node :: s.above).reverse

def rootNode (s : Selection) : Node := s.above.getLastD s.node

def parent? (s : Selection) : Option Selection :=
  match s.above with
  | [] => none
  | node :: above => some { s with node, above }

/-- The operation that the root is named after. -/
def operation? (s : Selection) : Option Operation := Operation.ofText? s.rootNode.key.text

/-- The labels from the root down, with dots between them. -/
def signature (s : Selection) : String := Text.dotted (s.ancestry.map (·.label))

/-- The labels of the places from the root down: the keys of a cache path. -/
def cacheKeys (s : Selection) : List String := (s.ancestry.filter (·.isPlace)).map (·.label)

/-- The alias of a field with arguments: the key and a digest of the key and the values. -/
def generatedAlias (key : Key) (arguments : Fields Argument) (length : Nat) : String :=
  let values := Json.object (Fields.mapValues (·.value) arguments)
  s!"{key.text}_{Digest.short [key.text, values.canonical] length}"

/-- The alias that a child gets: the given one, or one generated from its arguments. -/
def childAlias (key : Key) (aliasName : Option String) (arguments : Fields Argument)
    (length : Nat) : Option String :=
  match aliasName, arguments with
  | some aliasName, _ => some aliasName
  | none, [] => none
  | none, arguments => some (generatedAlias key arguments length)

/-- An entry of the memory of a forest: a node under its parent. -/
structure Growth where
  parent : Nat
  child : Selection
  deriving Inhabited

/-- The nodes that were handed out. Children are listed in the order of their creation, each
after its parent. -/
structure Forest where
  nextId : Nat := 1
  growth : List Growth := []
  deriving Inhabited

namespace Forest

/-- A new tree. Only trees of operations can be compiled. -/
def newRoot (f : Forest) (key : String) (aliasLength : Nat) : Selection × Forest :=
  ({ node := { id := f.nextId, key := .field key }, aliasLength },
   { f with nextId := f.nextId + 1 })

def child? (f : Forest) (parent : Nat) (label : String) : Option Selection :=
  (f.growth.find? fun g => g.parent == parent && g.child.node.label == label).map (·.child)

/-- The child of `parent` under the label of the request, remembered or new. -/
def child (f : Forest) (parent : Selection) (key : Key) (aliasName : Option String)
    (arguments : Fields Argument) (isBranch : Bool) : Selection × Forest :=
  let aliasName := childAlias key aliasName arguments parent.aliasLength
  match f.child? parent.id (aliasName.getD key.text) with
  | some s => (s, f)
  | none =>
    let s : Selection := {
      node := { id := f.nextId, key, aliasName, arguments, isBranch }
      above := parent.node :: parent.above
      aliasLength := parent.aliasLength }
    (s, { nextId := f.nextId + 1, growth := f.growth ++ [{ parent := parent.id, child := s }] })

/-- The child that a plain field name selects. -/
def fieldChild (f : Forest) (parent : Selection) (name : String) : Selection × Forest :=
  f.child parent (.field name) none [] false

/-- The node at the end of a way down of plain field names. -/
def descend (f : Forest) (s : Selection) : List String → Selection × Forest
  | [] => (s, f)
  | name :: rest =>
    let (child, f) := f.fieldChild s name
    f.descend child rest

def childCount (f : Forest) (parent : Nat) : Nat := f.growth.countP (·.parent == parent)

/-- Drops the entries below the nodes `cut`: a parent stands before its children. -/
def dropBelow (cut : List Nat) : List Growth → List Growth
  | [] => []
  | g :: rest =>
    if cut.contains g.parent then dropBelow (g.child.id :: cut) rest
    else g :: dropBelow cut rest

/-- Forgets every remembered node below this one. -/
def prune (f : Forest) (id : Nat) : Forest := { f with growth := dropBelow [id] f.growth }

end Forest
end Selection
end LazyGraph
