import LazyGraph.Http.Retry
import LazyGraph.Json.Reader
import LazyGraph.Json.Record
import LazyGraph.Settings
import LazyGraph.Text

/-!
Requests over HTTP: a payload is posted as JSON to one endpoint, with headers that are fixed when
the fetcher is made.
-/
namespace LazyGraph.Http

structure Request where
  endpoint : String
  headers : Fields String
  body : String
  deriving DecidableEq, Repr

structure Response where
  status : Nat
  body : String
  deriving DecidableEq, Repr

/-- How requests travel. -/
structure Link (m : Type → Type) where
  /-- Posts a request. What no response comes to fails with a reason. -/
  post : Request → m (Except String Response)
  wait : Duration → m Unit

/-- What a response says. Its body is looked at only if its status is that of success. -/
def Response.outcome (r : Response) : Except TransportError ExecutionResult :=
  if r.status = 200 then
    match (Json.parse? r.body).bind Json.executionResult? with
    | some result => .ok result
    | none => .error (.invalidResponse .unreadable)
  else .error (.status r.status r.body)

/-! Headers. -/

/-- The marks that names of headers may hold beside letters and digits. -/
def nameMarks : List Char := "!#$%&'*+-.^_`|~".toList

def isNameChar (c : Char) : Bool := c.isAlpha || Text.isDigit c || nameMarks.contains c

/-- A name of a header, in small letters; names that differ in capitals only are one. -/
def headerName? (s : String) : Option String :=
  if s.isEmpty || !s.toList.all isNameChar then none else some s.toLower

/-- The value of a header holds no control character but tabs. -/
def isValueChar (c : Char) : Bool := c = '\t' || (' ' ≤ c && c ≠ '\x7f')

def headerValue? (s : String) : Option String := if s.toList.all isValueChar then some s else none

/-- Adds a header; one of the same name is replaced. -/
def addHeader (headers : Fields String) (header : String × String) :
    Except TransportError (Fields String) :=
  match headerName? header.1, headerValue? header.2 with
  | some name, some value => .ok (Fields.insert headers name value)
  | _, _ => .error (.invalidRequest (.header header.1))

/-- Adds a bearer token, if there is one. -/
def addToken (headers : Fields String) : Option String → Except TransportError (Fields String)
  | none => .ok headers
  | some token =>
    match headerValue? s!"Bearer {token}" with
    | some value => .ok (Fields.insert headers "authorization" value)
    | none => .error (.invalidRequest .authToken)

/-! Fetchers. -/

structure Fetcher where
  endpoint : String
  headers : Fields String
  retry : Retry
  deriving DecidableEq, Repr

namespace Fetcher

/-- The wait before the first retry. -/
def firstDelay : Duration := .ofMillis 500

/-- A fetcher to settings, with the value of their token variable if it has one. The content is
JSON whatever the settings say. -/
def ofSettings (s : TransportSettings) (token : Option String) :
    Except TransportError Fetcher := do
  let headers ← s.headers.foldlM addHeader []
  let headers ← addToken headers token
  pure {
    endpoint := s.endpoint
    headers := Fields.insert headers "content-type" "application/json"
    retry := { limit := s.maxRetries, delay := firstDelay } }

def withDelay (f : Fetcher) (delay : Duration) : Fetcher := { f with retry := { f.retry with delay } }

def request (f : Fetcher) (p : Payload) : Request where
  endpoint := f.endpoint
  headers := f.headers
  body := p.text

variable {m : Type → Type} [Monad m]

/-- Sends a payload once. -/
def sendOnce (f : Fetcher) (link : Link m) (p : Payload) :
    m (Except TransportError ExecutionResult) := do
  match ← link.post (f.request p) with
  | .ok response => pure response.outcome
  | .error reason => pure (.error (.network reason))

/-- Sends a payload, with retries. There is no outcome where that panics. -/
def fetch (f : Fetcher) (link : Link m) (p : Payload) :
    m (Option (Except TransportError ExecutionResult)) :=
  f.retry.run (f.sendOnce link p) link.wait

end Fetcher
end LazyGraph.Http
