import LazyGraph.Schedule
import LazyGraph.Simulation.Machine
import LazyGraph.Simulation.Script

/-!
A schedule at work: groups are closed when their windows end, and fetched by a scripted server.

Who is to be told that a group has settled is told after its selections have ceased to be pending,
and before those that wait for the group go on. A task that dies settles its group without telling
anyone.
-/
namespace LazyGraph.Simulation

/-- How the task of a scripted fetch ends. -/
inductive Ending
  | settles (result : FetchResult)
  | dies

structure ScriptedFetch where
  /-- The signature of one of the selections of the group. -/
  signature : String
  delay : Nat := 0
  ending : Ending

/-- What becomes of a group for which no fetch is scripted. -/
def ScriptedFetch.prompt : ScriptedFetch := { signature := "", ending := .settles (.ok ()) }

/-- A call of the listeners of settled groups. -/
structure Settled where
  listener : Nat
  result : FetchResult
  /-- The number of unsettled groups at that moment. -/
  pending : Nat

inductive BatchStage
  | opened
  | collecting
  | fetching (ending : Ending)

structure Batching where
  /-- How long a window stays open. -/
  window : Nat := 0
  listeners : Nat := 0
  fetches : List ScriptedFetch := []
  forest : Selection.Forest := {}
  roots : List (Operation × Selection) := []
  schedule : Schedule := {}
  agenda : Agenda Nat Nat := {}
  groups : List (Nat × BatchStage) := []
  tickets : Fields Ticket := []
  dispatched : List Window := []
  settled : List Settled := []

namespace Batching

def setStage (b : Batching) (group : Nat) (stage : BatchStage) : Batching :=
  { b with groups := b.groups.map fun g => if g.1 == group then (group, stage) else g }

/-- The calls of the listeners that a settled group makes. -/
def announce (b : Batching) (result : FetchResult) : Batching :=
  let pending := b.schedule.pendingCount
  { b with settled := b.settled ++
      (List.range b.listeners).map fun listener => { listener, result, pending } }

/-- Ends the task of a group. -/
def conclude (b : Batching) (group : Nat) (ending : Ending) : Batching :=
  let b := { b with groups := b.groups.filter (·.1 != group) }
  match ending with
  | .settles result =>
    { b with schedule := b.schedule.settle group result }.announce result
  | .dies => { b with schedule := b.schedule.settle group (.error .cancelled) }

/-- Hands a closed window to the server. -/
def dispatch (b : Batching) (w : Window) : Batching :=
  let (found, fetches) := takeFirst
    (fun f => w.selections.any (·.signature == f.signature)) b.fetches
  let fetch := found.getD .prompt
  let b := { b with fetches, dispatched := b.dispatched ++ [w] }
  if fetch.delay = 0 then b.conclude w.group fetch.ending
  else
    { b with agenda := b.agenda.setTimer (b.agenda.now + fetch.delay) w.group }.setStage w.group
      (.fetching fetch.ending)

def runGroup (b : Batching) (group : Nat) : Batching :=
  match b.groups.lookup group with
  | none => b
  | some .opened =>
    let b := b.setStage group .collecting
    if b.window = 0 then { b with agenda := b.agenda.yield group }
    else { b with agenda := b.agenda.setTimer (b.agenda.now + b.window) group }
  | some .collecting =>
    match b.schedule.close group with
    | (some w, schedule) => { b with schedule }.dispatch w
    | (none, _) => b
  | some (.fetching ending) => b.conclude group ending

def machine : Machine Batching Nat Nat where
  agenda := agenda
  withAgenda b agenda := { b with agenda }
  run := runGroup
  ring b t := { b with agenda := b.agenda.wake t.event }

/-! Steps. -/

/-- The root of an operation, the same one whenever it is asked for. -/
def rootOf (b : Batching) (op : Operation) : Selection × Batching :=
  match b.roots.lookup op with
  | some root => (root, b)
  | none =>
    let (root, forest) := b.forest.newRoot op.text Selection.defaultAliasLength
    (root, { b with forest, roots := b.roots ++ [(op, root)] })

/-- The node at the end of a way down from the root of an operation. -/
def node (b : Batching) (op : Operation) (path : List String) : Selection × Batching :=
  let (root, b) := b.rootOf op
  let (node, forest) := b.forest.descend root path
  (node, { b with forest })

def nodes (b : Batching) : List (Operation × List String) → List Selection × Batching
  | [] => ([], b)
  | (op, path) :: rest =>
    let (n, b) := b.node op path
    let (ns, b) := b.nodes rest
    (n :: ns, b)

/-- Gives the groups of open windows their tasks. -/
def startGroups (b : Batching) : Batching :=
  let started (group : Nat) : Bool := b.groups.any (·.1 == group)
  let fresh := (b.schedule.windows.map (·.group)).filter fun g => !started g
  fresh.foldl (fun b g =>
    { b with groups := b.groups ++ [(g, .opened)], agenda := b.agenda.wake g }) b

/-- Adds selections, and keeps the ticket under a name. -/
def add (b : Batching) (name : String) (paths : List (Operation × List String))
    (key : BatchKey) : Batching :=
  let (selections, b) := b.nodes paths
  let (ticket, schedule) := b.schedule.add selections key
  { b with schedule, tickets := Fields.insert b.tickets name ticket }.startGroups

/-- Gives a ticket up. Whether there was one. -/
def drop (b : Batching) (name : String) : Bool × Batching :=
  (Fields.contains b.tickets name, { b with tickets := Fields.erase b.tickets name })

def isPending (b : Batching) (op : Operation) (path : List String) : Bool × Batching :=
  let (n, b) := b.node op path
  (b.schedule.isPending n.id, b)

/-- A time within which every script ends. -/
def limit (b : Batching) : Nat := b.agenda.now + 86400000

/-- Lets time pass until a moment. -/
def passUntil (b : Batching) (time : Nat) : Batching :=
  machine.settle (machine.drive b.limit (machine.atTime time) b).2

def sleep (b : Batching) (duration : Nat) : Batching := b.passUntil (b.agenda.now + duration)

/-- The goal that tickets have settled. -/
def ticketsGoal (tickets : List Ticket) (b : Batching) : Look (List FetchResult) × Batching :=
  match tickets.mapM b.schedule.outcome? with
  | some results => (.reached results, b)
  | none => (.pending none, b)

/-- Waits end at multiples of this many milliseconds, and later than they began. -/
def beat : Nat := 10

/-- Lets time pass until tickets have settled, and on to the beat after that. -/
def await (b : Batching) (names : List String) : Option (List FetchResult) × Batching :=
  let tickets := names.filterMap (Fields.get? b.tickets)
  let (results, b) := machine.drive b.limit (ticketsGoal tickets) b
  (results, b.passUntil ((b.agenda.now / beat + 1) * beat))

/-- What was dispatched and told since the last step. -/
def takeLogs (b : Batching) : List Window × List Settled × Batching :=
  (b.dispatched, b.settled, { b with dispatched := [], settled := [] })

end Batching
end LazyGraph.Simulation
