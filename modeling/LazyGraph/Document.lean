import LazyGraph.Document.FieldTree
import LazyGraph.Document.Variables

/-!
Documents: the operations that ask for a set of selections.

All queries make one document, all mutations make one, and each root field of a subscription
makes one. A selection adds the labels below its root to the tree of its document; positions and
the `$on` node add nothing.
-/
namespace LazyGraph

/-- One compiled operation. -/
structure Document where
  operation : Operation
  operationName : Option String
  fields : Document.FieldTree
  declared : Document.Variables

namespace Document

/-- The list of variables with their types, in parentheses. -/
def header (vs : Variables) : String :=
  match vs with
  | [] => ""
  | vs => "(" ++ ",".intercalate (vs.map fun v => s!"${v.1}:{v.2.type}") ++ ")"

def query (d : Document) : String :=
  let name := match d.operationName with
    | some n => " " ++ n
    | none => ""
  d.operation.text ++ name ++ header d.declared ++ d.fields.text

/-- The values of the variables; a document without variables has none. -/
def variableValues (d : Document) : Option (Fields Json) :=
  match d.declared with
  | [] => none
  | vs => some (Fields.mapValues (·.value) vs)

/-- A digest of the text and the values. -/
def hash (d : Document) : String :=
  Digest.full [d.query, match d.variableValues with
    | some vs => Json.canonical (.object vs)
    | none => ""]

/-- The heads of a way down, with the variables that their arguments take. -/
def heads (vs : Variables) : List Selection.Node → List Head × Variables
  | [] => ([], vs)
  | n :: rest =>
    match n.key with
    | .index _ => heads vs rest
    | .field name =>
      if n.isMarker then heads vs rest
      else if n.isBranch then
        let (below, vs) := heads vs rest
        (.branch name :: below, vs)
      else
        let (uses, vs) := vs.declareAll n.label n.arguments
        let (below, vs) := heads vs rest
        (.field n.aliasName name uses :: below, vs)

/-- The tree and the variables of ways down, taken in order. -/
def grow (ways : List (List Selection.Node)) : FieldTree × Variables :=
  ways.foldl (fun (t, vs) way =>
    let (hs, vs) := heads vs way
    (t.insert hs, vs)) (.empty, [])

/-- A way down from an operation's root, one node long at least. -/
structure Route where
  operation : Operation
  first : Selection.Node
  rest : List Selection.Node

/-- What decides which routes of an operation share a document. -/
def Route.group (r : Route) : String :=
  match r.operation with
  | .subscription => r.first.label
  | _ => ""

/-- The route of a selection; a root has none. -/
def route? (s : Selection) : Except ValidationError (Option Route) :=
  match s.operation? with
  | none => .error (.inconsistentRoot s.rootNode.key.text)
  | some operation => match s.ancestry with
    | _ :: first :: rest => .ok (some { operation, first, rest })
    | _ => .ok none

/-- Selections in the order of their signatures, one for each signature. -/
def arrange (ss : List Selection) : List Selection :=
  (ss.mergeSort fun s t => decide (s.signature ≤ t.signature)).eraseRepsBy
    fun s t => s.signature == t.signature

/-- The groups of an operation's routes in the order of their texts. -/
def groups (operation : Operation) (routes : List Route) : List (List Route) :=
  let ours := routes.filter (·.operation == operation)
  let names := Fields.keys (Fields.ofList (ours.map fun r => (r.group, ())))
  names.map fun n => ours.filter (·.group == n)

/-- The document of a group, unless its routes select nothing. -/
def ofGroup? (operation : Operation) (operationName : Option String) (group : List Route) :
    Option Document :=
  let (fields, declared) := grow (group.map fun r => r.first :: r.rest)
  if fields.isEmpty then none else some { operation, operationName, fields, declared }

/-- The documents of arranged selections. -/
def ofArranged (ss : List Selection) (operationName : Option String) :
    Except ValidationError (List Document) := do
  let routes ← ss.mapM route?
  let routes := routes.filterMap fun r => r
  pure (Operation.all.flatMap fun operation =>
    (groups operation routes).filterMap (ofGroup? operation operationName))

/-- The documents of selections in any order. -/
def compile (ss : List Selection) (operationName : Option String) :
    Except ValidationError (List Document) :=
  ofArranged (arrange ss) operationName

def payload (d : Document) (extensions : Option (Fields Json)) : Payload where
  query := d.query
  variableValues := d.variableValues
  operationName := d.operationName
  extensions := extensions

end Document
end LazyGraph
