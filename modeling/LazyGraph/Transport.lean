import LazyGraph.Error
import LazyGraph.Json.Printer
import LazyGraph.Operation

/-!
What travels between client and server: requests, execution results, and the failures of both.
-/
namespace LazyGraph

/-- The body of a request. -/
structure Payload where
  query : String
  variableValues : Option (Fields Json) := none
  operationName : Option String := none
  extensions : Option (Fields Json) := none

/-- Where in the query text an error lies. -/
structure ErrorLocation where
  line : Nat
  column : Nat
  deriving DecidableEq, Repr

/-- One entry of the `errors` of a response. -/
structure GraphError where
  message : String
  locations : Option (List ErrorLocation) := none
  path : Option (List Json) := none
  extensions : Option (Fields Json) := none

/-- The body of a response. -/
structure ExecutionResult where
  data : Option Json := none
  errors : Option (List GraphError) := none
  extensions : Option (Fields Json) := none

/-- Why a response is no result. -/
inductive ResponseFault
  | noData
  | dataNotAnObject (data : Json)
  | streamEnded
  /-- The body is no execution result. -/
  | unreadable
  | rejected (cause : ValidationError)
  | reported (text : String)

/-- Why a request cannot be made. -/
inductive RequestFault
  | uncompilable (cause : ValidationError)
  /-- The name or the value of a header cannot be sent. -/
  | header (name : String)
  | authToken
  | reported (text : String)

/-- Failures of a fetch or subscription. One failure is seen by every caller of its group. -/
inductive TransportError
  | graphql (errors : List GraphError)
  | network (reason : String)
  | status (code : Nat) (body : String)
  | invalidResponse (fault : ResponseFault)
  | invalidRequest (fault : RequestFault)
  | subscriberMissing
  | cancelled

def ResponseFault.message : ResponseFault → String
  | .noData => "response has no data"
  | .dataNotAnObject data => "data must be an object, got " ++ data.canonical
  | .streamEnded => "subscription ended before its first result"
  | .unreadable => "the body is not an execution result"
  | .rejected cause => cause.message
  | .reported text => text

def RequestFault.message : RequestFault → String
  | .uncompilable cause => cause.message
  | .header name => s!"header '{name}': cannot be sent"
  | .authToken => "auth token: cannot be sent"
  | .reported text => text

namespace TransportError

def message : TransportError → String
  | .graphql errors => "GraphQL errors: " ++ "; ".intercalate (errors.map (·.message))
  | .network reason => s!"network error: {reason}"
  | .status code body => s!"HTTP {code}: {body}"
  | .invalidResponse fault => s!"invalid response: {fault.message}"
  | .invalidRequest fault => s!"invalid request: {fault.message}"
  | .subscriberMissing => "no subscriber configured for subscription operations"
  | .cancelled => "fetch cancelled before completion"

/-- Whether another attempt could succeed: after network failures, after too many requests, and
after failures of the server. -/
def isTransient : TransportError → Bool
  | .network _ => true
  | .status code _ => code == 429 || 500 ≤ code
  | _ => false

end TransportError

namespace Payload

/-- The members of the body in the order in which they are written; absent ones are left out. -/
def members (p : Payload) : List (String × Json) :=
  [("query", .string p.query)]
    ++ (p.variableValues.map fun v => ("variables", Json.object v)).toList
    ++ (p.operationName.map fun n => ("operationName", Json.string n)).toList
    ++ (p.extensions.map fun e => ("extensions", Json.object e)).toList

def toJson (p : Payload) : Json := .record p.members

/-- The body as it is sent. -/
def text (p : Payload) : String := Json.canonical (.object p.members)

end Payload

def ErrorLocation.toJson (l : ErrorLocation) : Json :=
  .record [("line", .nat l.line), ("column", .nat l.column)]

def GraphError.toJson (e : GraphError) : Json :=
  .record ([("message", .string e.message)]
    ++ (e.locations.map fun ls => ("locations", Json.array (ls.map (·.toJson)))).toList
    ++ (e.path.map fun p => ("path", Json.array p)).toList
    ++ (e.extensions.map fun x => ("extensions", Json.object x)).toList)

namespace ExecutionResult

def toJson (r : ExecutionResult) : Json :=
  .record ((r.data.map fun d => ("data", d)).toList
    ++ (r.errors.map fun es => ("errors", Json.array (es.map (·.toJson)))).toList
    ++ (r.extensions.map fun x => ("extensions", Json.object x)).toList)

/-- A response fails by a nonempty list of errors, whatever else it holds. -/
def hasErrors (r : ExecutionResult) : Bool :=
  match r.errors with
  | some (_ :: _) => true
  | _ => false

/-- The data of a response without errors. -/
def result (r : ExecutionResult) : Except TransportError Json :=
  match r.errors with
  | some (e :: es) => .error (.graphql (e :: es))
  | _ => match r.data with
    | some data => .ok data
    | none => .error (.invalidResponse .noData)

end ExecutionResult
end LazyGraph
