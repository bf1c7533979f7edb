/-!
Wrong uses of the cache, the accessors and the compiler: their causes and their wording.
-/
namespace LazyGraph

/-- What is wrong with a cache path, or with a payload that names paths. -/
inductive PathFault
  | empty
  | unknownOperation (root : String)
  | noField
  | emptySegment
  | notAnObject
  | unknownRoot
  | rootNotAnObject
  | noParent
  deriving DecidableEq, Repr

/-- What is wrong with a schema. -/
inductive SchemaFault
  | text
  | notAnObject
  | typeNotAnObject (type : String)
  | members (type : String)
  | fields (type : String)
  deriving DecidableEq, Repr

/-- What is wrong with a snapshot. -/
inductive SnapshotFault
  | shape
  | noRoot
  deriving DecidableEq, Repr

inductive ValidationError
  | malformedPath (path : String) (fault : PathFault)
  | unknownType (type : String)
  | unknownField (type field : String)
  | unknownArgument (field argument : String)
  | invalidArrayAssignment (index length : Nat)
  | inconsistentRoot (root : String)
  | invalidSnapshot (fault : SnapshotFault)
  | unresolvedReference (id : String)
  | invalidSchema (fault : SchemaFault)
  deriving DecidableEq, Repr

def PathFault.message : PathFault → String
  | .empty => "empty path"
  | .unknownOperation root => s!"'{root}' is not one of query, mutation, subscription"
  | .noField => "missing field after root"
  | .emptySegment => "empty segment"
  | .notAnObject => "payload must be an object keyed by operation type"
  | .unknownRoot => "unknown root"
  | .rootNotAnObject => "root value must be an object"
  | .noParent => "parent object is not in the cache"

/-- `complaint` words what a reader says of a text or value that does not have the form asked. -/
def SchemaFault.messageWith (complaint : String) : SchemaFault → String
  | .text => complaint
  | .notAnObject => "expected an object of types"
  | .typeNotAnObject type => s!"type '{type}' is not an object"
  | .members type => s!"'$on' of '{type}' must list type names"
  | .fields type => s!"type '{type}': {complaint}"

def SnapshotFault.messageWith (complaint : String) : SnapshotFault → String
  | .shape => complaint
  | .noRoot => "none of query, mutation, subscription present"

def ValidationError.messageWith (complaint : String) : ValidationError → String
  | .malformedPath path fault => s!"malformed cache path '{path}': {fault.message}"
  | .unknownType type => s!"unknown type '{type}'"
  | .unknownField type field => s!"unknown field '{field}' on type '{type}'"
  | .unknownArgument field argument => s!"unknown argument '{argument}' on field '{field}'"
  | .invalidArrayAssignment index length =>
    s!"invalid array assignment at index {index} (length {length})"
  | .inconsistentRoot root => s!"selection root '{root}' is not an operation type"
  | .invalidSnapshot fault => s!"invalid snapshot: {fault.messageWith complaint}"
  | .unresolvedReference id => s!"unresolved reference '{id}' in snapshot"
  | .invalidSchema fault => s!"invalid schema: {fault.messageWith complaint}"

def ValidationError.message : ValidationError → String :=
  ValidationError.messageWith "the form is not the one expected"

end LazyGraph
