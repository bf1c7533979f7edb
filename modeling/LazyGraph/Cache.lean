import LazyGraph.Cache.Store
import LazyGraph.Cache.Subscription

/-!
The response cache: one container for each root field of an operation, identified objects shared
between them, and subscribers that are told of writes.

Every operation gives the cache after it. One that writes also gives the notice for the
subscribers that the write concerns. An operation that is refused leaves no trace, save that a
failing `write` may have merged the identified objects of its value.
-/
namespace LazyGraph

namespace Cache

structure Options where
  /-- How long query data is fresh; without an end, it is kept for ever. -/
  maxAge : Option Nat := none
  /-- How long expired query data may still be served. -/
  staleWindow : Nat := 300000
  /-- The number of containers above which the least recently used ones are dropped. -/
  maxEntries : Nat := 4096
  /-- Without a normalizer every value is stored as it is. -/
  normalizer : Option Normalizer := some default
  deriving Inhabited

/-- What is told to the subscribers that a write concerns. -/
structure Notice where
  listeners : List Nat
  payload : Json
  deriving Inhabited

/-- What a path leads to, and how long that lasts. -/
structure Entry where
  data : Option Json := none
  lifetime : Option Lifetime := none
  deriving Inhabited

/-- A value one level deep: a reference at its end is resolved, and none below it. -/
structure Reading where
  value : Option Json := none
  lifetime : Option Lifetime := none
  isPlaceholder : Bool := false
  deriving Inhabited

end Cache

structure Cache where
  options : Cache.Options
  store : Cache.Store := {}
  registry : Cache.Registry := {}
  deriving Inhabited

namespace Cache

def new (options : Options) : Cache := { options }

/-- The number of containers. -/
def size (c : Cache) : Nat := c.store.containers.length

def objectCount (c : Cache) : Nat := c.store.objects.length

def metrics (c : Cache) : Metrics := c.store.metrics

/-- Reads the data at a path with all references expanded. The container counts as used. -/
def get (c : Cache) (now : Nat) (path : CachePath) (includeExpired : Bool) : Entry × Cache :=
  match Recency.peek? c.store.containers (keyOf path) with
  | none => ({}, { c with store := { c.store with metrics := c.store.metrics.record false } })
  | some container =>
    let expired := container.lifetime.isExpired now
    let data :=
      if !expired || includeExpired then
        (c.store.valueAt? path).map (Json.expand c.store.objects)
      else none
    ({ data, lifetime := some container.lifetime },
     { c with store := { c.store with
        containers := Recency.touch c.store.containers (keyOf path)
        metrics := c.store.metrics.record (data.isSome && !expired) } })

/-- Reads the value at a path, expired or not. The container counts as used. -/
def read (c : Cache) (path : CachePath) : Reading × Cache :=
  match Recency.peek? c.store.containers (keyOf path) with
  | none => ({}, { c with store := { c.store with metrics := c.store.metrics.record false } })
  | some container =>
    let slot := c.store.slot? path
    let value := (slot.bind c.store.slotValue?).bind (·.resolve? c.store.objects)
    let isPlaceholder := slot.any c.store.placeholders.contains
    ({ value, lifetime := some container.lifetime, isPlaceholder },
     { c with store := { c.store with
        containers := Recency.touch c.store.containers (keyOf path)
        metrics := c.store.metrics.record (value.isSome && !isPlaceholder) } })

/-- Whether a placeholder stands at a path. -/
def isPlaceholder (c : Cache) (path : CachePath) : Bool :=
  (c.store.slot? path).any c.store.placeholders.contains

/-- The notice of a write; what the subscribed paths depend on is looked at again after it. -/
def announce (c : Cache) (writes : List Write) (touched : List String) (skipNotify : Bool)
    (payload : Json) : Cache × Notice :=
  let listeners := if skipNotify then [] else c.registry.concerned writes touched
  ({ c with registry := c.registry.refresh c.store.reach }, { listeners, payload })

/-- The value as it is stored, with the objects that it then leads to. -/
def normalized (options : Options) (objects : ObjectTable) (touched : Touched) (value : Json) :
    Json × Normalizer.Progress :=
  match options.normalizer with
  | some n => n.normalizeWithin (Normalizer.maxDepth + 1) { table := objects, touched } value
  | none => (value, { table := objects, touched })

/-- Puts data that arrives at `now` into the container of a root field. -/
def fillContainer (options : Options) (now : Nat) (s : Store) (root : Operation) (field : String)
    (data : Json) : Store :=
  s.putContainer { root, field }
    { data, lifetime := .ofRoot root options.maxAge options.staleWindow now }

/-- Stores the value of a root field, and adds what it writes to identified objects. -/
def storeField (options : Options) (now : Nat) (root : Operation) (acc : Store × Touched)
    (p : String × Json) : Store × Touched :=
  let (data, progress) := normalized options acc.1.objects acc.2 p.2
  (fillContainer options now { acc.1 with objects := progress.table } root p.1 data,
   progress.touched)

/-- Stores root fields one after the other. -/
def storeFields (options : Options) (now : Nat) (s : Store)
    (fields : List (Operation × String × Json)) : Store × Touched :=
  fields.foldl (fun acc (root, p) => storeField options now root acc p) (s, [])

/-- The roots of a payload with their fields, in the order of their names. -/
def payloadRoots : List (String × Json) →
    Except ValidationError (List (Operation × List (String × Json)))
  | [] => .ok []
  | (name, fields) :: rest =>
    match Operation.ofText? name, fields with
    | none, _ => .error (.malformedPath name .unknownRoot)
    | some root, .object fields => (payloadRoots rest).map ((root, fields) :: ·)
    | some _, _ => .error (.malformedPath name .rootNotAnObject)

/-- The root fields of a payload, root by root. -/
def payloadFields (roots : List (Operation × List (String × Json))) :
    List (Operation × String × Json) :=
  roots.flatMap fun (root, fields) => fields.map (root, ·)

def writesOf (fields : List (Operation × String × Json)) : List Write :=
  fields.map fun (root, field, value) => { path := { root, field }, value }

/-- Stores a payload of the form of a response: root fields under their operations. Each container
is replaced as a whole, and identified objects are merged. Old containers are dropped afterwards,
by age and then for want of room. -/
def set (c : Cache) (now : Nat) (payload : Json) (skipNotify : Bool) :
    Except ValidationError (Cache × Notice) := do
  let .object roots := payload | throw (.malformedPath payload.canonical .notAnObject)
  let fields := payloadFields (← payloadRoots roots)
  let (store, touched) := storeFields c.options now c.store fields
  let store := (store.dropReplacedPlaceholders touched).sweep now
  let store := store.enforceCapacity c.options.maxEntries
  pure ({ c with store }.announce (writesOf fields) touched.ids skipNotify payload)

/-- The payload that writes one root field. -/
def fieldPayload (path : CachePath) (value : Json) : Json :=
  .object [(path.root.text, .object [(path.field, value)])]

/-- What a write into a slot writes to identified objects: what its value holds, and the member
of the object in which the slot lies. -/
def touchedBySlot (touched : Touched) (slot : Slot) : Touched :=
  match slot.owner, slot.path with
  | .object id, key :: _ => touched.add id [key]
  | .object id, [] => touched.add id []
  | .container _, _ => touched

/-- Writes a value at a path, through references on the way. Without a notice the parent of the
path is not there. -/
def write (c : Cache) (now : Nat) (path : CachePath) (value : Json) : Cache × Option Notice :=
  match path.rest with
  | [] =>
    match c.set now (fieldPayload path value) false with
    | .ok (c, notice) => (c, some notice)
    | .error _ => (c, none)
  | _ =>
    match c.store.slot? path with
    | none => (c, none)
    | some slot =>
      let (stored, progress) := normalized c.options c.store.objects [] value
      let c := { c with store := { c.store with objects := progress.table } }
      match c.store.writeSlot? slot stored with
      | none => (c, none)
      | some store =>
        let touched := touchedBySlot progress.touched slot
        let store := (store.dropPlaceholdersIn slot).dropReplacedPlaceholders touched
        let (c, notice) :=
          { c with store }.announce [{ path, value }] touched.ids false value
        (c, some notice)

/-- Puts a placeholder at a path where nothing is stored. Whether it was put there. -/
def seed (c : Cache) (now : Nat) (path : CachePath) (value : Json) : Bool × Cache :=
  match path.rest with
  | [] =>
    if Recency.contains c.store.containers (keyOf path) then (false, c)
    else
      let s := { c.store with
        containers := Recency.put c.store.containers (keyOf path)
          { data := value
            lifetime := .ofRoot path.root c.options.maxAge c.options.staleWindow now } }
      let s := s.markPlaceholder { owner := .container (keyOf path), path := [] }
      (true, { c with store := s.enforceCapacity c.options.maxEntries })
  | _ =>
    match c.store.slot? path with
    | none => (false, c)
    | some slot =>
      if (c.store.slotValue? slot).isSome then (false, c)
      else match c.store.writeSlot? slot value with
        | none => (false, c)
        | some s => (true, { c with store := s.markPlaceholder slot })

/-- Adds a subscription; what all subscribed paths depend on is looked at again. -/
def subscribe (c : Cache) (paths : Option (List CachePath)) : Nat × Cache :=
  let (id, registry) := c.registry.add paths
  (id, { c with registry := registry.refresh c.store.reach })

def unsubscribe (c : Cache) (id : Nat) : Cache :=
  { c with registry := c.registry.remove id }

def subscriptionCount (c : Cache) : Nat := c.registry.size

/-- Takes away a container, or the value at a deeper path. Whether there was one. -/
def evict (c : Cache) (path : CachePath) : Bool × Cache :=
  match path.rest with
  | [] =>
    if Recency.contains c.store.containers (keyOf path) then
      (true, { c with store := c.store.dropContainer (keyOf path) })
    else (false, c)
  | _ =>
    let removed := do
      let slot ← c.store.slot? path
      let v ← c.store.ownerValue? slot.owner
      let v ← v.removeAt? slot.path
      some ((c.store.withOwnerValue slot.owner v).dropPlaceholdersIn slot)
    match removed with
    | some store => (true, { c with store })
    | none => (false, c)

/-- Drops what is past its stale window, and the objects that nothing leads to. The number of
containers dropped. -/
def sweep (c : Cache) (now : Nat) : Nat × Cache :=
  ((c.store.reclaimable now).length, { c with store := c.store.sweep now })

/-- Drops all data. Subscriptions stay, and so do the counts. -/
def clear (c : Cache) : Cache :=
  { c with store := { c.store with containers := [], objects := [], placeholders := [] } }

def snapshot (c : Cache) (now : Nat) : Snapshot := c.store.snapshot now

/-- The objects of a snapshot put into a table, with what they write to it. -/
def restoreObjects (objects : ObjectTable) (arriving : List (String × Json)) :
    ObjectTable × Touched :=
  arriving.foldl (fun (table, touched) (id, v) =>
    (Fields.insert table id v, match v with
      | .object fs => Fields.insert touched id (Fields.keys fs)
      | _ => touched)) (objects, [])

/-- The root fields of a snapshot, in the order of all operations. -/
def snapshotFields (s : Snapshot) : List (Operation × String × Json) :=
  Operation.all.flatMap fun root => ((s.root root).getD []).map (root, ·)

/-- Puts the data of a snapshot into the cache, with a new lifetime. Containers and objects take
the place of those with their keys; all others stay. -/
def restore (c : Cache) (now : Nat) (snapshot : Snapshot) :
    Except ValidationError (Cache × Notice) := do
  snapshot.validate
  let (objects, touched) := restoreObjects c.store.objects (snapshot.objects.getD [])
  let fields := snapshotFields snapshot
  let store := fields.foldl
    (fun s (root, field, data) => fillContainer c.options now s root field data)
    { c.store with objects }
  let store := (store.dropReplacedPlaceholders touched).enforceCapacity c.options.maxEntries
  pure ({ c with store }.announce (writesOf fields) touched.ids false snapshot.toJson)

end Cache
end LazyGraph
