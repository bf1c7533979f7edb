import LazyGraph.Accessor
import LazyGraph.Document.Builder
import LazyGraph.Schedule

/-!
The client: closures over the cache, the fetches that they make needful, and what becomes of the
answers.

A call runs its closure, waits for the fetch of what the closure touched if data is missing or
old, and runs it again. The transitions below are atomic; whoever drives the client may put the
transitions of different calls and fetches in any order.
-/
namespace LazyGraph

/-- A read of the cache that a call evaluates. -/
abbrev Closure := Attempt Json

/-- How a call uses the cache. -/
inductive FetchPolicy
  /-- Fetches what is missing or past its stale window, and refreshes stale data without
  waiting. -/
  | standard
  /-- Fetches only what is missing. -/
  | forceCache
  /-- Always fetches. -/
  | noCache
  /-- Always fetches, into a cache of its own. -/
  | noStore
  /-- Never fetches. -/
  | onlyIfCached
  deriving DecidableEq, Repr, Inhabited

inductive ClientError
  | invalid (cause : ValidationError)
  | transport (cause : TransportError)

namespace Client

structure Options where
  cache : Cache.Options := {}
  /-- How long a window collects selections, in milliseconds. -/
  window : Nat := 0
  aliasLength : Nat := Selection.defaultAliasLength
  documentCapacity : Nat := Document.Builder.defaultCapacity
  identityFields : List String := Normalizer.defaultIdentityFields
  deriving Inhabited

/-- Who fetches: a group of the schedule, or a call on its own. -/
inductive FetchId
  | group (number : Nat)
  | call (number : Nat)
  deriving DecidableEq, Repr

/-- What is known of a request. -/
inductive Phase
  | unsent
  | sent
  | answered (answer : Except TransportError ExecutionResult)
  | finished (result : FetchResult)
  deriving Inhabited

/-- A document that is asked for. -/
structure Request where
  id : Nat
  document : Document
  extensions : Option (Fields Json)
  /-- Who asked first, and whose cache takes the answer. -/
  origin : FetchId
  phase : Phase := .unsent

namespace Request

def operation (r : Request) : Operation := r.document.operation

def hash (r : Request) : String := r.document.hash

def payload (r : Request) : Payload := r.document.payload r.extensions

end Request

/-- What makes two requests the same: the hash of the document, and the text of the extensions. -/
abbrev ContentKey := String × Option String

/-- A running fetch with the requests that it still waits for, in the order of the documents. -/
structure Fetch where
  id : FetchId
  jobs : List Nat

end Client

structure Client where
  options : Client.Options
  schema : Schema
  hasSubscriber : Bool
  roots : Roots
  forest : Selection.Forest
  cache : Cache
  builder : Document.Builder
  schedule : Schedule := {}
  requests : List Client.Request := []
  /-- The requests that others may join. -/
  inFlight : List (Client.ContentKey × Nat) := []
  fetches : List Client.Fetch := []
  /-- The caches of calls that keep their data to themselves. -/
  scratch : List (Nat × Cache) := []
  /-- The notices that were not passed on yet, oldest first. -/
  notices : List Cache.Notice := []

namespace Client

def new (schema : Schema) (hasSubscriber : Bool) (options : Options) : Client :=
  let (roots, forest) := Roots.plant {} options.aliasLength
  { options, schema, hasSubscriber, roots, forest
    cache := .new options.cache
    builder := .new options.documentCapacity }

/-- A context over the roots of the client. -/
def context (c : Client) : Context := { roots := c.roots }

def inFlightCount (c : Client) : Nat := c.inFlight.length

/-! Closures. -/

/-- What a closure works on. -/
def scene (c : Client) (now : Nat) (cache : Cache) (context : Context) : Scene where
  schema := c.schema
  identityFields := c.options.identityFields
  now := now
  forest := c.forest
  cache := cache
  context := context

/-- Runs an action over the shared cache. -/
def perform {α : Type} (c : Client) (now : Nat) (context : Context) (action : Attempt α) :
    Except ValidationError α × Context × Client :=
  let (result, s) := action.run (c.scene now c.cache context)
  (result, s.context,
   { c with forest := s.forest, cache := s.cache, notices := c.notices ++ s.notices })

/-- Runs an action over the cache of a call. No one is told of what it writes. -/
def performAlone {α : Type} (c : Client) (now call : Nat) (context : Context)
    (action : Attempt α) : Except ValidationError α × Context × Client :=
  let cache := (c.scratch.lookup call).getD (.new c.options.cache)
  let (result, s) := action.run (c.scene now cache context)
  (result, s.context,
   { c with forest := s.forest, scratch := (call, s.cache) :: c.scratch.filter (·.1 ≠ call) })

/-! Fetches. -/

def fetch? (c : Client) (id : FetchId) : Option Fetch := c.fetches.find? (·.id = id)

def request? (c : Client) (id : Nat) : Option Request := c.requests.find? (·.id == id)

def setPhase (c : Client) (id : Nat) (phase : Phase) : Client :=
  { c with requests := c.requests.map fun r => if r.id == id then { r with phase } else r }

def setJobs (c : Client) (id : FetchId) (jobs : List Nat) : Client :=
  { c with fetches := c.fetches.map fun f => if f.id = id then { f with jobs } else f }

/-- Nobody may join the request any more. -/
def release (c : Client) (id : Nat) : Client :=
  { c with inFlight := c.inFlight.filter (·.2 ≠ id) }

/-- A new request. -/
def newRequest (c : Client) (origin : FetchId) (d : Document) (extensions : Option (Fields Json)) :
    Nat × Client :=
  let id := c.requests.length + 1
  (id, { c with requests := c.requests ++ [({ id, document := d, extensions, origin } : Request)] })

/-- The request for a document. A group joins the same request in flight, if there is one. -/
def requestFor (c : Client) (origin : FetchId) (d : Document)
    (extensions : Option (Fields Json)) : Nat × Client :=
  match origin with
  | .call _ => c.newRequest origin d extensions
  | .group _ =>
    let key : ContentKey := (d.hash, extensions.map fun e => Json.canonical (.object e))
    match c.inFlight.lookup key with
    | some id => (id, c)
    | none =>
      let (id, c) := c.newRequest origin d extensions
      (id, { c with inFlight := c.inFlight ++ [(key, id)] })

/-- The requests for documents, in their order. -/
def requestAll (c : Client) (origin : FetchId) (extensions : Option (Fields Json)) :
    List Document → List Nat × Client
  | [] => ([], c)
  | d :: rest =>
    let (id, c) := c.requestFor origin d extensions
    let (ids, c) := c.requestAll origin extensions rest
    (id :: ids, c)

/-- Starts a fetch of selections, unless they cannot be compiled. -/
def startFetch (c : Client) (id : FetchId) (selections : List Selection) (key : BatchKey) :
    FetchResult × Client :=
  match c.builder.build selections key.operationName with
  | (.error e, builder) => (.error (.invalidRequest (.uncompilable e)), { c with builder })
  | (.ok documents, builder) =>
    let (jobs, c) := { c with builder }.requestAll id key.extensions documents
    (.ok (), { c with fetches := c.fetches ++ [({ id, jobs } : Fetch)] })

/-- Ends a fetch. Requests that it still waits for are given up by it. -/
def endFetch (c : Client) (id : FetchId) (result : FetchResult) : Client :=
  let jobs := match c.fetch? id with
    | some f => f.jobs
    | none => []
  let c := { jobs.foldl release c with fetches := c.fetches.filter (·.id ≠ id) }
  match id with
  | .group n => { c with schedule := c.schedule.settle n result }
  | .call _ => c

/-- Closes the window of a group and starts its fetch. -/
def dispatch (c : Client) (group : Nat) : Client :=
  let (window, schedule) := c.schedule.close group
  let (selections, key) := match window with
    | some w => (w.selections, w.key)
    | none => ([], {})
  match { c with schedule }.startFetch (.group group) selections key with
  | (.ok (), c) => c
  | (.error e, c) => c.endFetch (.group group) (.error e)

/-- The payload that stores an answer, which has to be an object. -/
def answerPayload (operation : Operation) (answer : Except TransportError ExecutionResult) :
    Except TransportError Json := do
  match (← (← answer).result) with
  | .object fs => pure (.object [(operation.text, .object fs)])
  | data => throw (.invalidResponse (.dataNotAnObject data))

/-- Stores an answer in a cache. A failed answer leaves it alone. -/
def storeAnswer (cache : Cache) (now : Nat) (operation : Operation)
    (answer : Except TransportError ExecutionResult) :
    Except TransportError (Cache × Cache.Notice) :=
  match answerPayload operation answer with
  | .error e => .error e
  | .ok payload => match cache.set now payload false with
    | .ok stored => .ok stored
    | .error e => .error (.invalidResponse (.rejected e))

/-- Stores an answer in the shared cache. -/
def storeShared (c : Client) (now : Nat) (operation : Operation)
    (answer : Except TransportError ExecutionResult) : FetchResult × Client :=
  match storeAnswer c.cache now operation answer with
  | .ok (cache, notice) => (.ok (), { c with cache, notices := c.notices ++ [notice] })
  | .error e => (.error e, c)

/-- Stores an answer in the cache of a call. -/
def storeAlone (c : Client) (now call : Nat) (operation : Operation)
    (answer : Except TransportError ExecutionResult) : FetchResult × Client :=
  let cache := (c.scratch.lookup call).getD (.new c.options.cache)
  match storeAnswer cache now operation answer with
  | .ok (cache, _) =>
    (.ok (), { c with scratch := (call, cache) :: c.scratch.filter (·.1 ≠ call) })
  | .error e => (.error e, c)

/-- Takes up the answer to a request, in the cache of who asked first. -/
def deliver (c : Client) (now : Nat) (r : Request)
    (answer : Except TransportError ExecutionResult) : Client :=
  let (result, c) := match r.origin with
    | .group _ => c.storeShared now r.operation answer
    | .call n => c.storeAlone now n r.operation answer
  c.setPhase r.id (.finished result)

/-- What a fetch is about to do. -/
inductive Progress
  /-- A request has to be sent. -/
  | send (request : Request)
  /-- An answer was taken up, and there may be more to do. -/
  | delivered
  /-- All that is left is to wait for answers. -/
  | waiting
  | ended (result : FetchResult)

/-- Looks at the requests of a fetch in their order, up to the first one that lets something
happen. The first failure ends the fetch, whatever the requests behind it do. -/
def pollJobs (c : Client) (now : Nat) (id : FetchId) (waiting : List Nat) :
    List Nat → Progress × Client
  | [] =>
    if waiting.isEmpty then (.ended (.ok ()), c.endFetch id (.ok ()))
    else (.waiting, c)
  | job :: rest =>
    match c.request? job with
    | none => pollJobs c now id waiting rest
    | some r => match r.phase with
      | .unsent => (.send r, c.setPhase r.id .sent)
      | .sent => pollJobs c now id (waiting ++ [job]) rest
      | .answered answer => (.delivered, c.deliver now r answer)
      | .finished (.ok ()) =>
        pollJobs ((c.release job).setJobs id (waiting ++ rest)) now id waiting rest
      | .finished (.error e) => (.ended (.error e), c.endFetch id (.error e))

/-- Moves a fetch on. -/
def pollFetch (c : Client) (now : Nat) (id : FetchId) : Progress × Client :=
  match c.fetch? id with
  | some f => c.pollJobs now id [] f.jobs
  | none => (.waiting, c)

/-- An answer has come. It is taken up when a fetch that waits for it is next moved on. -/
def answer (c : Client) (request : Nat) (a : Except TransportError ExecutionResult) : Client :=
  match c.request? request with
  | some { phase := .sent, .. } => c.setPhase request (.answered a)
  | _ => c

/-- The running fetches that wait for a request. -/
def holders (c : Client) (request : Nat) : List FetchId :=
  (c.fetches.filter (·.jobs.contains request)).map (·.id)

/-- Adds selections to the schedule. -/
def enlist (c : Client) (selections : List Selection) (key : BatchKey) : Ticket × Client :=
  let (ticket, schedule) := c.schedule.add selections key
  (ticket, { c with schedule })

/-! Calls. -/

/-- What a call waits for between its two runs. -/
inductive Awaited
  | ticket (t : Ticket)
  /-- The call fetches on its own. -/
  | own
  deriving Inhabited

/-- A call between its two runs. -/
structure Call where
  id : Nat
  closure : Closure
  context : Context
  awaited : Awaited

/-- How a call goes on after its first run. -/
inductive Opening
  | ended (result : Except ClientError Json)
  | waits (call : Call)

/-- Whether a policy asks the network for what a first run touched. -/
def wantsFetch (policy : FetchPolicy) (context : Context) : Bool :=
  match policy with
  | .standard => context.shouldFetch
  | .forceCache => context.freshness.missing || context.freshness.networkOnly
  | .noCache | .noStore => !context.selections.isEmpty
  | .onlyIfCached => false

/-- Runs an action over the cache that a policy asks for. -/
def performFor {α : Type} (c : Client) (now call : Nat) (policy : FetchPolicy) (context : Context)
    (action : Attempt α) : Except ValidationError α × Context × Client :=
  match policy with
  | .noStore => c.performAlone now call context action
  | _ => c.perform now context action

/-- Starts what a call waits for. -/
def openCall (c : Client) (call : Call) (policy : FetchPolicy) (key : BatchKey) :
    Opening × Client :=
  match policy with
  | .noStore =>
    match c.startFetch (.call call.id) call.context.selections key with
    | (.ok (), c) => (.waits { call with awaited := .own }, c)
    | (.error e, c) => (.ended (.error (.transport e)), c)
  | _ =>
    let (ticket, c) := c.enlist call.context.selections key
    (.waits { call with awaited := .ticket ticket }, c)

/-- The first run of a call, with what it makes needful. -/
def resolve (c : Client) (now id : Nat) (closure : Closure) (policy : FetchPolicy)
    (key : BatchKey) : Opening × Client :=
  match c.performFor now id policy c.context closure with
  | (.error e, _, c) => (.ended (.error (.invalid e)), c)
  | (.ok value, context, c) =>
    if context.hasSubscriptions && !c.hasSubscriber then
      (.ended (.error (.transport .subscriberMissing)), c)
    else if wantsFetch policy context then
      c.openCall { id, closure, context, awaited := .own } policy key
    else if policy = .standard && context.shouldRevalidate then
      (.ended (.ok value), (c.enlist context.selections key).2)
    else (.ended (.ok value), c)

/-- The second run of a call, once what it waited for has ended. -/
def conclude (c : Client) (now : Nat) (call : Call) (result : FetchResult) :
    Except ClientError Json × Client :=
  match result with
  | .error e => (.error (.transport e), c)
  | .ok () =>
    let context := call.context.reset
    let (value, _, c) := match call.awaited with
      | .own => c.performAlone now call.id context call.closure
      | .ticket _ => c.perform now context call.closure
    (value.mapError .invalid, c)

/-! Roots by name. -/

def root (c : Client) (operation : Operation) : Selection := c.roots.get operation

/-- The selections of a context that belong to an operation. -/
def selectionsOf (operation : Operation) (context : Context) : List Selection :=
  context.selections.filter (·.operation? == some operation)

end Client
end LazyGraph
