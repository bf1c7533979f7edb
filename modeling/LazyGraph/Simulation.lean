import LazyGraph.Client.Watch
import LazyGraph.Simulation.Machine
import LazyGraph.Simulation.Script

/-!
A world around a client: a virtual clock, a scripted server, and the tasks that move the client
on. A run is decided by its script, so that what a client does can be followed step by step.
-/
namespace LazyGraph.Simulation

inductive Task
  /-- Closes the window of a group and fetches it. -/
  | group (number : Nat)
  | watch (number : Nat)
  /-- Stores the events of a channel. -/
  | feed (channel : Nat)
  /-- Waits for a fetch on behalf of a watch. -/
  | relay (number : Nat)
  | sweeper
  deriving DecidableEq, Repr

/-- What a timer does. -/
inductive Alarm
  | wake (task : Task)
  | answer (request : Nat) (answer : Answer)
  /-- Sweeps again and again. -/
  | tick (every : Nat)

/-- How the task of a group stands. -/
inductive GroupStage
  | opened
  | collecting
  | fetching
  deriving DecidableEq, Repr

/-- Who takes the events of a channel. -/
inductive Reader
  | request (id : Nat)
  | feed (watch : Nat)
  deriving DecidableEq, Repr

/-- An event stream that was opened. -/
structure Channel where
  events : List Answer
  ended : Bool
  reader : Option Reader

structure WatchEntry where
  watch : Client.Watch
  /-- Whether someone still takes the items. -/
  isHeld : Bool := true

structure Relay where
  ticket : Ticket
  watch : Nat

/-- How a call stands. -/
inductive CallStage
  | starting (due : Nat) (closure : Closure) (policy : FetchPolicy) (key : BatchKey)
  | waiting (call : Client.Call)
  | finished (result : Except ClientError Json)

/-- A call of a listener. -/
structure Heard where
  listener : String
  payload : Json
  /-- What the listener read at that moment, if it reads. -/
  read : Option (Except ValidationError (Option Json)) := none

/-- A request that reached the server. -/
inductive Sent
  | fetch (payload : Payload) (operation : Operation) (hash : String)
  | subscribe (payload : Payload)

structure Listener where
  name : String
  subscription : Nat
  read : Option String

structure World where
  client : Client
  agenda : Agenda Task Alarm := {}
  groups : List (Nat × GroupStage) := []
  /-- Groups with a number below this one have got their tasks. -/
  nextGroup : Nat := 1
  answers : List ScriptedAnswer := []
  streams : List ScriptedStream := []
  channels : List Channel := []
  watches : List WatchEntry := []
  relays : List (Nat × Relay) := []
  nextRelay : Nat := 0
  calls : List (Nat × CallStage) := []
  nextCall : Nat := 0
  listeners : List Listener := []
  heard : List Heard := []
  sent : List Sent := []

namespace World

def now (w : World) : Nat := w.agenda.now

def wake (w : World) (t : Task) : World := { w with agenda := w.agenda.wake t }

/-! Notices. -/

/-- The data at a path, as a listener reads it. -/
def readData (w : World) (text : String) : Except ValidationError (Option Json) × World :=
  match CachePath.parse text with
  | .error e => (.error e, w)
  | .ok path =>
    let (entry, cache) := w.client.cache.get w.now path false
    (.ok entry.data, { w with client := { w.client with cache } })

/-- Calls a listener. -/
def callListener (w : World) (payload : Json) (l : Listener) : World :=
  match l.read with
  | none => { w with heard := w.heard ++ [{ listener := l.name, payload }] }
  | some text =>
    let (read, w) := w.readData text
    { w with heard := w.heard ++ [{ listener := l.name, payload, read := some read }] }

/-- Marks the watches with a subscription, and makes them ready. -/
def stirWatches (w : World) (subscription : Nat) : World :=
  let stirred (e : WatchEntry) : Bool := e.watch.subscription == some subscription
  let watches := w.watches.map fun e =>
    if stirred e then { e with watch := { e.watch with dirty := true } } else e
  let tasks := (List.range w.watches.length).filter fun n => (w.watches[n]?).any stirred
  tasks.foldl (fun w n => w.wake (.watch n)) { w with watches }

/-- Tells a subscriber of a write. -/
def tell (w : World) (payload : Json) (subscription : Nat) : World :=
  match w.listeners.find? (·.subscription == subscription) with
  | some l => w.callListener payload l
  | none => w.stirWatches subscription

def passNotice (w : World) (n : Cache.Notice) : World :=
  n.listeners.foldl (fun w s => w.tell n.payload s) w

/-- Gives a group its task. -/
def addGroup (w : World) (number : Nat) : World :=
  let groups : List (Nat × GroupStage) := w.groups ++ [(number, .opened)]
  { w with groups, nextGroup := number + 1 }.wake (.group number)

/-- Passes on what the client noted: notices go to their listeners, and new groups get tasks. -/
def attend (w : World) : World :=
  let notices := w.client.notices
  let w := notices.foldl passNotice { w with client := { w.client with notices := [] } }
  let opened := (w.client.schedule.windows.map (·.group)).filter (w.nextGroup ≤ ·)
  opened.foldl addGroup w

/-- Puts another client in place, and attends to what it noted. -/
def withClient (w : World) (client : Client) : World := { w with client }.attend

/-! Requests. -/

/-- The tasks of the fetches that wait for a request. -/
def wakeHolders (w : World) (request : Nat) : World :=
  (w.client.holders request).foldl (fun w id =>
    match id with
    | .group n => w.wake (.group n)
    | .call _ => w) w

/-- The answer to a request comes. -/
def answerRequest (w : World) (request : Nat) (a : Answer) : World :=
  { w with client := w.client.answer request a }.wakeHolders request

def logSent (w : World) (m : Sent) : World := { w with sent := w.sent ++ [m] }

/-- Opens a channel. -/
def addChannel (w : World) (c : Channel) : World := { w with channels := w.channels ++ [c] }

/-- The first event of a stream answers a request; a stream without any may still get one. -/
def readFirst (w : World) (request : Nat) (s : ScriptedStream) : World :=
  match s.events with
  | event :: _ =>
    { w with client := w.client.answer request event }.addChannel
      { events := [], ended := s.ends, reader := none }
  | [] =>
    if s.ends then
      let failure : Answer := .error (.invalidResponse .streamEnded)
      { w with client := w.client.answer request failure }.addChannel
        { events := [], ended := true, reader := none }
    else w.addChannel { events := [], ended := false, reader := some (.request request) }

/-- The next scripted stream; one that is not scripted stays open without events. -/
def nextStream (w : World) : ScriptedStream × World :=
  match w.streams with
  | s :: rest => (s, { w with streams := rest })
  | [] => ({}, w)

/-- Sends a request to the scripted server. -/
def send (w : World) (r : Client.Request) : World :=
  match r.operation with
  | .subscription =>
    if !w.client.hasSubscriber then
      { w with client := w.client.answer r.id (.error .subscriberMissing) }
    else
      let (s, w) := (w.logSent (.subscribe r.payload)).nextStream
      match s.refusal with
      | some e => { w with client := w.client.answer r.id (.error e) }
      | none => w.readFirst r.id s
  | _ =>
    let w := w.logSent (.fetch r.payload r.operation r.hash)
    match takeFirst (·.fits r.payload.query) w.answers with
    | (none, _) => { w with client := w.client.answer r.id noAnswerLeft }
    | (some s, answers) =>
      if s.delay = 0 then { w with answers, client := w.client.answer r.id s.answer }
      else { w with
        answers, agenda := w.agenda.setTimer (w.now + s.delay) (.answer r.id s.answer) }

/-- Moves a fetch on as far as it goes. Each round changes how a request stands, which it can do
three times. -/
def moveFetch (id : Client.FetchId) : Nat → World → Option FetchResult × World
  | 0, w => (none, w)
  | rounds + 1, w =>
    let (progress, client) := w.client.pollFetch w.now id
    let w := w.withClient client
    match progress with
    | .send r => moveFetch id rounds (w.send r)
    | .delivered => moveFetch id rounds w
    | .waiting => (none, w)
    | .ended result => (some result, w)

/-- The number of rounds after which no request changes any more. -/
def fetchRounds (w : World) : Nat := 3 * w.client.requests.length + 1

/-- Makes those ready that wait for groups. -/
def wakeWaiting (w : World) : World :=
  let waits (e : WatchEntry) : Bool := match e.watch.stage with
    | .loading _ => true
    | _ => false
  let tasks := (List.range w.watches.length).filter fun n => (w.watches[n]?).any waits
  let w := tasks.foldl (fun w n => w.wake (.watch n)) w
  w.relays.foldl (fun w r => w.wake (.relay r.1)) w

def setGroup (w : World) (number : Nat) (stage : GroupStage) : World :=
  { w with groups := w.groups.map fun g => if g.1 == number then (number, stage) else g }

/-- Moves the fetch of a group on. -/
def moveGroup (w : World) (number : Nat) : World :=
  match moveFetch (.group number) w.fetchRounds w with
  | (none, w) => w
  | (some _, w) => { w with groups := w.groups.filter (·.1 != number) }.wakeWaiting

/-- Runs the task of a group: it waits while the window is open, then it fetches. -/
def runGroup (w : World) (number : Nat) : World :=
  match w.groups.lookup number with
  | none => w
  | some .opened =>
    let w := w.setGroup number .collecting
    if w.client.options.window = 0 then
      { w with agenda := w.agenda.yield (.group number) }
    else
      let due := w.now + w.client.options.window
      { w with agenda := w.agenda.setTimer due (.wake (.group number)) }
  | some .collecting =>
    let w := (w.setGroup number .fetching).withClient (w.client.dispatch number)
    if (w.client.fetch? (.group number)).isSome then w.moveGroup number
    else { w with groups := w.groups.filter (·.1 != number) }.wakeWaiting
  | some .fetching => w.moveGroup number

/-! Watches. -/

def setWatch (w : World) (number : Nat) (e : WatchEntry) : World :=
  { w with watches := w.watches.set number e }

/-- No one takes the events of a watch's channels any more. -/
def dropFeeds (w : World) (number : Nat) : World :=
  { w with channels := w.channels.map fun c =>
      if c.reader = some (.feed number) then { c with reader := none } else c }

def setChannel (w : World) (number : Nat) (c : Channel) : World :=
  { w with channels := w.channels.set number c }

/-- Opens the event streams of a watch; the first refusal ends the watch. -/
def openStreams (w : World) (number : Nat) (e : WatchEntry) : List Document → World
  | [] => w.setWatch number { e with watch := { e.watch with stage := .live } }
  | d :: rest =>
    let payload := d.payload e.watch.extensions
    let (s, w) := (w.logSent (.subscribe payload)).nextStream
    match s.refusal with
    | some error =>
      let (watch, client) := e.watch.refused error w.client
      ((w.withClient client).setWatch number { e with watch }).dropFeeds number
    | none =>
      let channel := w.channels.length
      let w := w.addChannel { events := s.events, ended := s.ends, reader := some (.feed number) }
      openStreams (w.wake (.feed channel)) number e rest

/-- Ends a watch whose items nobody takes. -/
def closeWatch (w : World) (number : Nat) (e : WatchEntry) : World :=
  let (watch, client) := e.watch.finish w.client
  ((w.withClient client).setWatch number { e with watch }).dropFeeds number

/-- Takes a watch to where it waits for the next write. -/
def settleWatch (w : World) (number : Nat) (watch : Client.Watch) (isHeld : Bool)
    (client : Client) :
    World :=
  let e : WatchEntry := { watch, isHeld }
  let w := (w.withClient client).setWatch number e
  let w := match watch.stage with
    | .opening documents => w.openStreams number e documents
    | _ => w
  match w.watches[number]? with
  | none => w
  | some e => match e.watch.stage, e.isHeld with
    | .live, false => w.closeWatch number e
    | _, _ => w

def addRelay (w : World) (r : Relay) : World :=
  let relays : List (Nat × Relay) := w.relays ++ [(w.nextRelay, r)]
  { w with relays, nextRelay := w.nextRelay + 1 }.wake (.relay w.nextRelay)

/-- Runs the closure of a watch after a write. -/
def refreshWatch (w : World) (number : Nat) (e : WatchEntry) : World :=
  let (ticket, watch, client) := e.watch.refresh w.now w.client
  let w := (w.withClient client).setWatch number { e with watch }
  match ticket with
  | none => w
  | some ticket => w.addRelay { ticket, watch := number }

def runWatch (w : World) (number : Nat) : World :=
  match w.watches[number]? with
  | none => w
  | some e => match e.watch.stage with
    | .starting =>
      let (watch, client) := e.watch.start w.now w.client
      w.settleWatch number watch e.isHeld client
    | .loading ticket =>
      match w.client.schedule.outcome? ticket with
      | none => w
      | some result =>
        let (watch, client) := e.watch.loaded w.now result w.client
        w.settleWatch number watch e.isHeld client
    | .live =>
      if !e.isHeld then w.closeWatch number e
      else if e.watch.dirty then w.refreshWatch number e
      else w
    | _ => w

/-- Adds an item to the stream of a watch. -/
def pushItem (w : World) (number : Nat) (item : Client.Watch.Item) : World :=
  match w.watches[number]? with
  | some e => w.setWatch number { e with watch := e.watch.push item }
  | none => w

/-- Stores the events of a channel, one after the other. A failed event is an item of the watch. -/
def drainChannel (channel watch : Nat) : List Answer → World → World
  | [], w => w
  | event :: rest, w =>
    let (result, client) := w.client.storeShared w.now .subscription event
    let w := w.withClient client
    match result with
    | .ok () => drainChannel channel watch rest w
    | .error e =>
      if (w.watches[watch]?).any (·.isHeld) then
        drainChannel channel watch rest (w.pushItem watch (.error (.transport e)))
      else w

def runFeed (w : World) (channel : Nat) : World :=
  match w.channels[channel]? with
  | some { events, ended, reader := some (.feed watch) } =>
    let reader := if ended then none else some (Reader.feed watch)
    drainChannel channel watch events
      (w.setChannel channel { events := [], ended, reader })
  | _ => w

/-- A fetch of a watch has ended: its failure is an item. -/
def runRelay (w : World) (number : Nat) : World :=
  match w.relays.lookup number with
  | none => w
  | some r => match w.client.schedule.outcome? r.ticket with
    | none => w
    | some result =>
      let w := { w with relays := w.relays.filter (·.1 != number) }
      match result with
      | .ok () => w
      | .error e => w.pushItem r.watch (.error (.transport e))

/-! Running. -/

def runTask (w : World) : Task → World
  | .group n => w.runGroup n
  | .watch n => w.runWatch n
  | .feed n => w.runFeed n
  | .relay n => w.runRelay n
  | .sweeper => { w with client := { w.client with cache := (w.client.cache.sweep w.now).2 } }

/-- Lets an alarm go off. -/
def ring (w : World) (t : Timer Alarm) : World :=
  match t.event with
  | .wake task => w.wake task
  | .answer request a => w.answerRequest request a
  | .tick every =>
    let passed := if every = 0 then 0 else (w.now - t.due) / every
    let due := t.due + every * (passed + 1)
    { w with agenda := w.agenda.setTimer due (.tick every) }.wake .sweeper

def machine : Machine World Task Alarm where
  agenda := agenda
  withAgenda w agenda := { w with agenda }
  run := runTask
  ring := ring

end World
end LazyGraph.Simulation
