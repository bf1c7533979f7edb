import LazyGraph.Accessor.Plan
import LazyGraph.Simulation

/-!
Sessions: the steps that a user of a client takes, one after the other, in a simulated world.

A user names accessors, watches and listeners, and uses them by name later on. Every step ends
when it has its result, or after a day without one; then the tasks of that instant are run.
-/
namespace LazyGraph.Simulation

/-- An accessor that the user holds, with the context that it belongs to. -/
inductive Handle
  | object (context : Nat) (accessor : Accessor)
  | list (context : Nat) (accessor : ListAccessor)
  | union (context : Nat) (accessor : UnionAccessor)
  deriving Inhabited

structure Session where
  world : World
  /-- Whether the contexts of the user have roots of their own. -/
  ownRoots : Bool := false
  contexts : List Context
  handles : Fields Handle := []
  watches : Fields Nat := []

/-- Why a step has no result. -/
inductive StepError
  /-- No accessor or watch of that name and sort is held. -/
  | noHandle
  | invalid (cause : ValidationError)

namespace Session

def new (client : Client) (ownRoots : Bool) (answers : List ScriptedAnswer)
    (streams : List ScriptedStream) : Session where
  world := { client, answers, streams }
  ownRoots := ownRoots
  contexts := [client.context]

/-- How long a step may take, in milliseconds. -/
def patience : Nat := 86400000

def limit (s : Session) : Nat := s.world.now + patience

def client (s : Session) : Client := s.world.client

def cache (s : Session) : Cache := s.world.client.cache

def withClient (s : Session) (c : Client) : Session := { s with world := s.world.withClient c }

def withCache (s : Session) (cache : Cache) : Session := s.withClient { s.client with cache }

/-- Puts a cache in place and tells its subscribers of a write. -/
def withWrite (s : Session) (cache : Cache) (notice : Cache.Notice) : Session :=
  s.withClient { s.client with cache, notices := s.client.notices ++ [notice] }

/-- Runs the tasks of this instant. -/
def settle (s : Session) : Session := { s with world := World.machine.settle s.world }

/-- What was heard, told and sent since the last step. -/
def takeLogs (s : Session) :
    List Heard × List (String × Selection) × List Sent × Session :=
  (s.world.heard, s.contexts.flatMap (·.told), s.world.sent,
   { s with
     world := { s.world with heard := [], sent := [] }
     contexts := s.contexts.map fun c => { c with told := [] } })

/-- Lets time pass until a goal is reached. -/
def await {α : Type} (s : Session) (limit : Nat) (goal : World → Look α × World) :
    Option α × Session :=
  let (a, world) := World.machine.drive limit goal s.world
  (a, { s with world })

/-- Lets time pass. -/
def sleep (s : Session) (duration : Nat) : Session :=
  (s.await s.limit (World.machine.atTime (s.world.now + duration))).2

/-- Lets time pass at one go: no task runs on the way. -/
def advance (s : Session) (duration : Nat) : Session :=
  { s with world := World.machine.moveTo s.world (s.world.now + duration) }

/-! The cache. -/

def sweeper (s : Session) (every : Nat) : Session :=
  if every = 0 then s
  else { s with world := { s.world with
    agenda := s.world.agenda.setTimer (s.world.now + every) (.tick every) } }

def get (s : Session) (path : String) (includeExpired : Bool) :
    Except ValidationError Cache.Entry × Session :=
  match CachePath.parse path with
  | .error e => (.error e, s)
  | .ok path =>
    let (entry, cache) := s.cache.get s.world.now path includeExpired
    (.ok entry, s.withCache cache)

def set (s : Session) (payload : Json) (skipNotify : Bool) :
    Except ValidationError Unit × Session :=
  match s.cache.set s.world.now payload skipNotify with
  | .ok (cache, notice) => (.ok (), s.withWrite cache notice)
  | .error e => (.error e, s)

def write (s : Session) (path : String) (value : Json) : Except ValidationError Bool × Session :=
  match CachePath.parse path with
  | .error e => (.error e, s)
  | .ok path =>
    match s.cache.write s.world.now path value with
    | (cache, some notice) => (.ok true, s.withWrite cache notice)
    | (cache, none) => (.ok false, s.withCache cache)

def evict (s : Session) (path : String) : Except ValidationError Bool × Session :=
  match CachePath.parse path with
  | .error e => (.error e, s)
  | .ok path =>
    let (removed, cache) := s.cache.evict path
    (.ok removed, s.withCache cache)

def isPlaceholder (s : Session) (path : String) : Except ValidationError Bool :=
  (CachePath.parse path).map s.cache.isPlaceholder

def sweep (s : Session) : Nat × Session :=
  let (count, cache) := s.cache.sweep s.world.now
  (count, s.withCache cache)

def snapshot (s : Session) : Snapshot := s.cache.snapshot s.world.now

def restore (s : Session) (v : Json) : Except ValidationError Unit × Session :=
  let restored := do
    let snapshot ← Snapshot.ofJson v
    s.cache.restore s.world.now snapshot
  match restored with
  | .ok (cache, notice) => (.ok (), s.withWrite cache notice)
  | .error e => (.error e, s)

/-- The snapshot of a new cache into which this one's snapshot is put. -/
def copy (s : Session) : Except ValidationError Snapshot := do
  let (copied, _) ← (Cache.new s.cache.options).restore s.world.now s.snapshot
  pure (copied.snapshot s.world.now)

/-- Subscribes a listener. One of that name that is subscribed already is dropped afterwards. -/
def subscribe (s : Session) (name : String) (paths : Option (List String)) (read : Option String) :
    Except ValidationError Nat × Session :=
  match paths.mapM fun ps => ps.mapM CachePath.parse with
  | .error e => (.error e, s)
  | .ok paths =>
    let (id, cache) := s.cache.subscribe paths
    let old := s.world.listeners.filter (·.name == name)
    let cache := old.foldl (fun c l => c.unsubscribe l.subscription) cache
    let listeners := s.world.listeners.filter (·.name != name)
      ++ [{ name, subscription := id, read }]
    let s := { s with world := { s.world with listeners } }.withCache cache
    (.ok s.cache.subscriptionCount, s)

def unsubscribe (s : Session) (name : String) : Nat × Session :=
  let old := s.world.listeners.filter (·.name == name)
  let cache := old.foldl (fun c l => c.unsubscribe l.subscription) s.cache
  let listeners := s.world.listeners.filter (·.name != name)
  let s := { s with world := { s.world with listeners } }.withCache cache
  (s.cache.subscriptionCount, s)

/-! Contexts and accessors. -/

/-- The number of the context that new accessors belong to. -/
def current (s : Session) : Nat := s.contexts.length - 1

def context (s : Session) : Context := s.contexts.getLastD s.client.context

/-- The accessors of a context that the user holds. -/
def heldIn (s : Session) (context : Nat) : List Nat :=
  s.handles.filterMap fun (_, h) => match h with
    | .object c a => if c = context then some a.id else none
    | _ => none

/-- Runs an action in a context. -/
def act {α : Type} (s : Session) (context : Nat) (action : Attempt α) :
    Except ValidationError α × Session :=
  let c := { s.contexts.getD context s.client.context with held := s.heldIn context }
  let (result, c, client) := s.client.perform s.world.now c action
  (result, { s with contexts := s.contexts.set context c }.withClient client)

/-- Runs an action that cannot be refused. -/
def walk {α : Type} [Inhabited α] (s : Session) (context : Nat) (action : Walk α) : α × Session :=
  match s.act context (action : Attempt α) with
  | (.ok a, s) => (a, s)
  | (.error _, s) => (default, s)

def inContext (s : Session) (f : Context → Context) : Session :=
  { s with contexts := s.contexts.modify s.current f }

/-- A new context. The older accessors keep theirs. -/
def newContext (s : Session) : Session :=
  if s.ownRoots then
    let (roots, forest) := Roots.plant s.client.forest Selection.defaultAliasLength
    let c : Context := { roots }
    { s with contexts := s.contexts ++ [c] }.withClient { s.client with forest }
  else { s with contexts := s.contexts ++ [s.client.context] }

/-- The handle of a value; null and scalars have none. -/
def handleOf? (context : Nat) : FieldValue → Option Handle
  | .object (some a) => some (.object context a)
  | .list (some a) => some (.list context a)
  | .union (some a) => some (.union context a)
  | _ => none

/-- Names a value. A value without a handle frees the name. -/
def bind (s : Session) (name : Option String) (handle : Option Handle) : Session :=
  match name, handle with
  | none, _ => s
  | some name, some h => { s with handles := Fields.insert s.handles name h }
  | some name, none => { s with handles := Fields.erase s.handles name }

def root (s : Session) (operation : Operation) (name : Option String) : Accessor × Session :=
  let (a, s) := s.walk s.current (Accessor.root operation)
  (a, s.bind name (some (.object s.current a)))

def object? (s : Session) (name : String) : Except StepError (Nat × Accessor) :=
  match Fields.get? s.handles name with
  | some (.object c a) => .ok (c, a)
  | _ => .error .noHandle

def list? (s : Session) (name : String) : Except StepError (Nat × ListAccessor) :=
  match Fields.get? s.handles name with
  | some (.list c a) => .ok (c, a)
  | _ => .error .noHandle

def union? (s : Session) (name : String) : Except StepError (Nat × UnionAccessor) :=
  match Fields.get? s.handles name with
  | some (.union c a) => .ok (c, a)
  | _ => .error .noHandle

/-- Runs an action on a held accessor. -/
def withHeld {β α : Type} (s : Session) (held : Except StepError (Nat × β))
    (action : β → Attempt α) : Except StepError (Nat × α) × Session :=
  match held with
  | .error e => (.error e, s)
  | .ok (context, b) => match s.act context (action b) with
    | (.ok a, s) => (.ok (context, a), s)
    | (.error e, s) => (.error (.invalid e), s)

def field (s : Session) (on name : String) (arguments : Fields Json) (as : Option String) :
    Except StepError FieldValue × Session :=
  match s.withHeld (s.object? on) (·.field name arguments) with
  | (.ok (context, v), s) => (.ok v, s.bind as (handleOf? context v))
  | (.error e, s) => (.error e, s)

def setField (s : Session) (on name : String) (arguments : Fields Json) (value : Json) :
    Except StepError Unit × Session :=
  let (r, s) := s.withHeld (s.object? on) (·.set name arguments value)
  (r.map fun _ => (), s)

/-- Reads a field four times, as a scalar, an object, a list and a union. -/
def shorthand (s : Session) (on name : String) :
    Except StepError (Option Json × Bool × Bool × Bool) × Session :=
  let (r, s) := s.withHeld (s.object? on) fun a => do
    let v ← a.field name
    let o ← a.field name
    let l ← a.field name
    let u ← a.field name
    pure (v.scalar?, o.object?.isSome, l.list?.isSome, u.union?.isSome)
  (r.map (·.2), s)

/-- Names an optional value. -/
def bindOptional (s : Session) (as : Option String)
    (r : Except StepError (Nat × Option FieldValue)) :
    Except StepError (Option FieldValue) × Session :=
  match r with
  | .ok (context, v) => (.ok v, s.bind as (v.bind (handleOf? context)))
  | .error e => (.error e, s)

def item (s : Session) (on : String) (position : Nat) (as : Option String) :
    Except StepError (Option FieldValue) × Session :=
  let (r, s) := s.withHeld (s.list? on) fun l => (l.get position : Walk _)
  s.bindOptional as r

def byKey (s : Session) (on key : String) (as : Option String) :
    Except StepError (Option FieldValue) × Session :=
  let (r, s) := s.withHeld (s.list? on) fun l => (l.byKey key : Walk _)
  s.bindOptional as r

def setItem (s : Session) (on : String) (position : Nat) (value : Json) :
    Except StepError Unit × Session :=
  let (r, s) := s.withHeld (s.list? on) (·.set position value)
  (r.map fun _ => (), s)

/-- The length of a list, and whether it is empty, each asked for on its own. -/
def listLength (s : Session) (on : String) : Except StepError (Nat × Bool) × Session :=
  let (r, s) := s.withHeld (s.list? on) fun l => do
    let length ← (l.length : Walk Nat)
    let isEmpty ← (l.isEmpty : Walk Bool)
    pure (length, isEmpty)
  (r.map (·.2), s)

def items (s : Session) (on : String) : Except StepError (List FieldValue) × Session :=
  let (r, s) := s.withHeld (s.list? on) fun l => do
    let length ← (l.length : Walk Nat)
    let values ← (List.range length).mapM fun n => (l.get n : Walk (Option FieldValue))
    pure (values.filterMap fun v => v)
  (r.map (·.2), s)

def typename (s : Session) (on : String) :
    Except StepError (Option String × List String) × Session :=
  let (r, s) := s.withHeld (s.union? on) fun u => do
    let typename ← (u.typename : Walk (Option String))
    let possible ← (u.possibleTypes : Walk (List String))
    pure (typename, possible)
  (r.map (·.2), s)

def branch (s : Session) (on type : String) (as : Option String) :
    Except StepError (Option FieldValue) × Session :=
  let (r, s) := s.withHeld (s.union? on) fun u => do
    pure ((← u.on type).map fun a => FieldValue.object (some a))
  s.bindOptional as r

/-- Whether two held objects are the same accessor. -/
def same (s : Session) (a b : String) : Except StepError Bool := do
  let (c, a) ← s.object? a
  let (d, b) ← s.object? b
  pure (c == d && a.id == b.id)

def drop (s : Session) (name : String) : Bool × Session :=
  (Fields.contains s.handles name, { s with handles := Fields.erase s.handles name })

/-- Touches the node at the end of plain field names. -/
def select (s : Session) (operation : Operation) (path : List String) : Selection × Session :=
  let node := s.context.roots.get operation
  let (node, forest) := s.client.forest.descend node path
  let s := s.withClient { s.client with forest }
  (node, s.inContext (·.select node))

/-- The documents of what the context touched. -/
def compile (s : Session) (operationName : Option String) :
    Except ValidationError (List Document) :=
  Document.compile s.context.selections operationName

def read (s : Session) (plan : Plan) : Except ValidationError Json × Session :=
  s.act s.current plan.run

/-! Calls. -/

/-- A call that a user makes. -/
structure CallRequest where
  plan : Plan
  policy : FetchPolicy := .standard
  key : BatchKey := {}
  delay : Nat := 0

/-- Moves a call on. -/
def moveCall (id : Nat) (stage : CallStage) (w : World) : CallStage × World :=
  match stage with
  | .starting due closure policy key =>
    if w.now < due then (stage, w)
    else match w.client.resolve w.now id closure policy key with
      | (.ended result, client) => (.finished result, w.withClient client)
      | (.waits call, client) => (.waiting call, w.withClient client)
  | .waiting call =>
    let (outcome, w) := match call.awaited with
      | .ticket t => (w.client.schedule.outcome? t, w)
      | .own => World.moveFetch (.call id) w.fetchRounds w
    match outcome with
    | none => (.waiting call, w)
    | some result =>
      let (value, client) := w.client.conclude w.now call result
      (.finished value, w.withClient client)
  | .finished _ => (stage, w)

/-- Moves calls on in their order, each as far as it goes. -/
def moveCalls : List (Nat × CallStage) → World → List (Nat × CallStage) × World
  | [], w => ([], w)
  | (id, stage) :: rest, w =>
    let (stage, w) := moveCall id stage w
    let (stage, w) := moveCall id stage w
    let (rest, w) := moveCalls rest w
    ((id, stage) :: rest, w)

/-- The results of calls, once all have one. -/
def callResults? (calls : List (Nat × CallStage)) : Option (List (Except ClientError Json)) :=
  calls.mapM fun (_, stage) => match stage with
    | .finished result => some result
    | _ => none

/-- When the next call starts, if one does later. -/
def nextStart? (calls : List (Nat × CallStage)) : Option Nat :=
  calls.foldl (fun t (_, stage) => match stage with
    | .starting due .. => some (earlier t due)
    | _ => t) none

/-- The goal that all calls have their results. -/
def callGoal (w : World) : Look (List (Except ClientError Json)) × World :=
  let (calls, w) := moveCalls w.calls w
  let w := { w with calls }
  match callResults? calls with
  | some results => (.reached results, w)
  | none => (.pending (nextStart? calls), w)

/-- Gives up the calls that are still running. -/
def dropCalls (w : World) : World :=
  w.calls.foldl (fun w (id, stage) => match stage with
    | .waiting { awaited := .own, .. } =>
      w.withClient (w.client.endFetch (.call id) (.error .cancelled))
    | _ => w) { w with calls := [] }

/-- Makes several calls at the same time, and waits for all of them. -/
def resolveAll (s : Session) (requests : List CallRequest) :
    Option (List (Except ClientError Json)) × Session :=
  let w := s.world
  let calls := requests.mapIdx fun n r =>
    (w.nextCall + n, CallStage.starting (w.now + r.delay) r.plan.run r.policy r.key)
  let w := { w with calls, nextCall := w.nextCall + requests.length }
  let (results, s) := { s with world := w }.await s.limit callGoal
  (results, { s with world := dropCalls s.world })

/-- The goal that a ticket has settled. -/
def ticketGoal (t : Ticket) (w : World) : Look FetchResult × World :=
  match w.client.schedule.outcome? t with
  | some result => (.reached result, w)
  | none => (.pending none, w)

/-- Adds selections to the schedule. -/
def enlist (s : Session) (selections : List Selection) (key : BatchKey) : Ticket × Session :=
  let (ticket, client) := s.client.enlist selections key
  (ticket, s.withClient client)

/-- The nodes at the ends of ways down of plain field names. -/
def descendAll (root : Selection) : List (List String) → Selection.Forest →
    List Selection × Selection.Forest
  | [], f => ([], f)
  | path :: rest, f =>
    let (node, f) := f.descend root path
    let (nodes, f) := descendAll root rest f
    (node :: nodes, f)

/-- Fetches the nodes at paths, below the client's root or a new one. -/
def fetch (s : Session) (operation : Operation) (freshRoot : Bool) (paths : List (List String))
    (key : BatchKey) : Option FetchResult × Session :=
  let (root, forest) :=
    if freshRoot then
      s.client.forest.newRoot operation.text Selection.defaultAliasLength
    else (s.client.root operation, s.client.forest)
  let (nodes, forest) := descendAll root paths forest
  let (ticket, s) := (s.withClient { s.client with forest }).enlist nodes key
  s.await s.limit (ticketGoal ticket)

/-- The results of two fetches, and how many requests were in flight when the second began. -/
structure PairResult where
  inFlight : Nat
  first : FetchResult
  second : FetchResult

/-- Fetches a field of the query root, and a while later an equal one below another root. -/
def fetchPair (s : Session) (field : String) (gap : Nat) (first second : BatchKey) :
    Option PairResult × Session :=
  let limit := s.limit
  let (root, forest) := s.client.forest.newRoot Operation.query.text Selection.defaultAliasLength
  let (a, forest) := forest.fieldChild (s.client.root .query) field
  let (b, forest) := forest.fieldChild root field
  let (firstTicket, s) := (s.withClient { s.client with forest }).enlist [a] first
  let (_, s) := s.await limit (World.machine.atTime (s.world.now + gap))
  let (secondTicket, s) := s.enlist [b] second
  let inFlight := s.client.inFlightCount
  match s.await limit (ticketGoal firstTicket) with
  | (none, s) => (none, s)
  | (some first, s) => match s.await limit (ticketGoal secondTicket) with
    | (none, s) => (none, s)
    | (some second, s) => (some { inFlight, first, second }, s)

/-! Watches. -/

/-- How long a step waits for what it has set going, in milliseconds. -/
def moment : Nat := 1

/-- No one takes the items of a watch any more. -/
def abandon (number : Nat) (w : World) : World :=
  match w.watches[number]? with
  | some e => (w.setWatch number { e with isHeld := false }).wake (.watch number)
  | none => w

/-- Starts a watch, in place of one of that name. The number of subscriptions to the cache. -/
def watch (s : Session) (name : String) (plan : Plan) (operationName : Option String)
    (extensions : Option (Fields Json)) : Nat × Session :=
  let number := s.world.watches.length
  let entry : WatchEntry := { watch := .new s.client plan.run operationName extensions }
  let w := { s.world with watches := s.world.watches ++ [entry] }.wake (.watch number)
  let w := match Fields.get? s.watches name with
    | some old => abandon old w
    | none => w
  let s := { s with world := w, watches := Fields.insert s.watches name number }.sleep moment
  (s.cache.subscriptionCount, s)

def unwatch (s : Session) (name : String) : Bool × Nat × Session :=
  let found := Fields.get? s.watches name
  let w := match found with
    | some number => abandon number s.world
    | none => s.world
  let s := { s with world := w, watches := Fields.erase s.watches name }.sleep moment
  (found.isSome, s.cache.subscriptionCount, s)

/-- What the stream of a watch gives next. -/
inductive Next
  | item (i : Client.Watch.Item)
  | quiet
  | closed

/-- Whether no item can come any more. -/
def isClosed (w : World) (number : Nat) (e : WatchEntry) : Bool :=
  (match e.watch.stage with
    | .ended => true
    | _ => false)
  && !w.channels.any (·.reader = some (.feed number))
  && !w.relays.any (·.2.watch == number)

/-- The goal that a watch has an item, that it has ended, or that a time has come. -/
def itemGoal (number due : Nat) (w : World) : Look Next × World :=
  match w.watches[number]? with
  | none => (.reached .closed, w)
  | some e => match e.watch.items with
    | i :: rest =>
      (.reached (.item i), w.setWatch number { e with watch := { e.watch with items := rest } })
    | [] =>
      if isClosed w number e then (.reached .closed, w)
      else if due ≤ w.now then (.reached .quiet, w)
      else (.pending (some due), w)

/-- Takes items until none comes for a while or the stream ends; `fuel` bounds how many. -/
def takeItems (limit number wait : Nat) : Nat → Session →
    Option (List Client.Watch.Item × Bool) × Session
  | 0, s => (some ([], false), s)
  | fuel + 1, s =>
    match s.await limit (itemGoal number (s.world.now + wait)) with
    | (none, s) => (none, s)
    | (some .quiet, s) => (some ([], false), s)
    | (some .closed, s) => (some ([], true), s)
    | (some (.item i), s) =>
      match takeItems limit number wait fuel s with
      | (none, s) => (none, s)
      | (some (items, closed), s) => (some (i :: items, closed), s)

/-- The items of a watch until none comes for a while, and whether the stream has ended. An ended
watch is forgotten. -/
def drain (s : Session) (name : String) (wait : Nat) :
    Except StepError (Option (List Client.Watch.Item × Bool)) × Session :=
  match Fields.get? s.watches name with
  | none => (.error .noHandle, s)
  | some number =>
    match takeItems s.limit number wait Machine.fuel s with
    | (some (items, true), s) =>
      (.ok (some (items, true)), { s with watches := Fields.erase s.watches name })
    | (result, s) => (.ok result, s)

/-- Whether a reader of a channel is still there. -/
def isRead (w : World) (c : Channel) : Bool :=
  match c.reader with
  | none => false
  | some (.feed _) => true
  | some (.request id) => !(w.client.holders id).isEmpty

/-- Delivers an event to a channel. Whether someone reads it. -/
def deliver (w : World) (channel : Nat) (event : Answer) : Bool × World :=
  match w.channels[channel]? with
  | none => (false, w)
  | some c =>
    if c.ended || !isRead w c then (false, w)
    else match c.reader with
      | some (.request id) =>
        (true, (w.setChannel channel { c with reader := none }).answerRequest id event)
      | _ =>
        (true, (w.setChannel channel { c with events := c.events ++ [event] }).wake (.feed channel))

def emit (s : Session) (channel : Nat) (event : Answer) : Bool × Session :=
  let (isHeard, world) := deliver s.world channel event
  (isHeard, { s with world }.sleep moment)

/-- Ends a channel. -/
def close (s : Session) (channel : Nat) : Session :=
  let w := s.world
  let world := match w.channels[channel]? with
    | none => w
    | some c =>
      let w := w.setChannel channel { c with ended := true }
      match c.reader with
      | some (.request id) =>
        if c.ended then w
        else (w.setChannel channel { c with ended := true, reader := none }).answerRequest id
          (.error (.invalidResponse .streamEnded))
      | some (.feed _) => w.wake (.feed channel)
      | none => w
  { s with world }.sleep moment

end Session
end LazyGraph.Simulation
