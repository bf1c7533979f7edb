import LazyGraph.Client

/-!
Watches: a closure that is run again whenever data that it read may have changed, with a stream of
its results.

Query data that is missing is fetched. Subscription fields are fed from event streams, which
whoever drives the client opens. Failures are items of the stream like results.
-/
namespace LazyGraph.Client

/-- How a watch stands. -/
inductive Watch.Stage
  | starting
  /-- The first fetch is awaited. -/
  | loading (ticket : Ticket)
  /-- Event streams are to be opened for these documents. -/
  | opening (documents : List Document)
  | live
  | ended
  deriving Inhabited

/-- A result of the closure, or a failure. -/
abbrev Watch.Item := Except ClientError Json

structure Watch where
  closure : Closure
  key : BatchKey
  extensions : Option (Fields Json)
  context : Context
  stage : Watch.Stage := .starting
  /-- The subscription to the shared cache, and the paths that it is made for. -/
  subscription : Option Nat := none
  watched : List CachePath := []
  /-- The ids of the selections that were fetched last. -/
  lastFetch : Option (List Nat) := none
  /-- Whether data was written since the last run. -/
  dirty : Bool := false
  /-- The items that nobody has taken yet, oldest first. -/
  items : List Watch.Item := []

namespace Watch

/-- The root field that a selection lies below. -/
def rootField? (s : Selection) : Option CachePath :=
  match s.cacheKeys with
  | root :: field :: _ => (Operation.ofText? root).map fun root => { root, field }
  | _ => none

/-- The root fields that cover a list of selections, each once, in the order of their texts. -/
def rootFields (ss : List Selection) : List CachePath :=
  ((ss.filterMap rootField?).mergeSort fun p q => decide (p.text ≤ q.text)).eraseReps

def push (w : Watch) (item : Item) : Watch := { w with items := w.items ++ [item] }

/-- Runs the closure. -/
def run (w : Watch) (now : Nat) (c : Client) : Item × Watch × Client :=
  let (value, context, c) := c.perform now w.context w.closure
  (value.mapError .invalid, { w with context }, c)

/-- Starts a new pass and runs the closure. -/
def rerun (w : Watch) (now : Nat) (c : Client) : Item × Watch × Client :=
  { w with context := w.context.reset }.run now c

/-- Ends the watch; the cache no longer tells it of writes. -/
def finish (w : Watch) (c : Client) : Watch × Client :=
  ({ w with stage := .ended, subscription := none },
   match w.subscription with
   | some id => { c with cache := c.cache.unsubscribe id }
   | none => c)

/-- Subscribes to the paths that the last run read, in place of the ones before. -/
def follow (w : Watch) (c : Client) : Watch × Client :=
  let watched := rootFields w.context.selections
  let (id, cache) := c.cache.subscribe (some watched)
  let cache := match w.subscription with
    | some old => cache.unsubscribe old
    | none => cache
  ({ w with watched, subscription := some id }, { c with cache })

/-- Turns to the cache after the first run, or after the fetch that follows it. -/
def connect (w : Watch) (first : Item) (c : Client) : Watch × Client :=
  let (w, c) := w.follow c
  match selectionsOf .subscription w.context with
  | [] => ({ w with stage := .live }.push first, c)
  | subscriptions =>
    if !c.hasSubscriber then (w.push (.error (.transport .subscriberMissing))).finish c
    else match c.builder.build subscriptions w.key.operationName with
      | (.ok documents, builder) =>
        ({ w with stage := .opening documents }, { c with builder })
      | (.error e, builder) => (w.push (.error (.invalid e))).finish { c with builder }

/-- A watch that has not run yet. -/
def new (c : Client) (closure : Closure) (operationName : Option String)
    (extensions : Option (Fields Json)) : Watch where
  closure := closure
  key := .new operationName extensions
  extensions := extensions
  context := c.context

/-- Starts a watch. -/
def start (w : Watch) (now : Nat) (c : Client) : Watch × Client :=
  let (first, w, c) := w.run now c
  match selectionsOf .query w.context with
  | [] => w.connect first c
  | queries =>
    if w.context.needsData then
      let (ticket, c) := c.enlist queries w.key
      ({ w with stage := .loading ticket }, c)
    else w.connect first c

/-- Goes on after the first fetch. -/
def loaded (w : Watch) (now : Nat) (result : FetchResult) (c : Client) : Watch × Client :=
  let w := match result with
    | .ok () => w
    | .error e => w.push (.error (.transport e))
  let (first, w, c) := w.rerun now c
  w.connect first c

/-- An event stream could not be opened. -/
def refused (w : Watch) (e : TransportError) (c : Client) : Watch × Client :=
  (w.push (.error (.transport e))).finish c

/-- Runs the closure after a write. What is missing then is fetched, unless it was fetched last;
the ticket of that fetch is given, whose failure is an item of the stream. -/
def refresh (w : Watch) (now : Nat) (c : Client) : Option Ticket × Watch × Client :=
  let (item, w, c) := { w with dirty := false }.rerun now c
  let (w, c) := if rootFields w.context.selections = w.watched then (w, c) else w.follow c
  let queries := selectionsOf .query w.context
  let ids := queries.map (·.id)
  if w.context.needsData && !queries.isEmpty && w.lastFetch ≠ some ids then
    let (ticket, c) := c.enlist queries w.key
    (some ticket, { w with lastFetch := some ids }.push item, c)
  else (none, w.push item, c)

end Watch
end LazyGraph.Client
