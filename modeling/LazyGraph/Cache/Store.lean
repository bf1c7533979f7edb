import LazyGraph.Cache.Container
import LazyGraph.Cache.Normalizer
import LazyGraph.Cache.Position
import LazyGraph.Cache.Snapshot
import LazyGraph.Recency

/-!
The contents of a cache: containers, identified objects, and the placeholders among them.

A path is resolved to a slot, which lies in a container or in an identified object. References on
the way are followed, and one at the end is not.
-/
namespace LazyGraph.Cache

/-- What a stored value belongs to. -/
inductive Owner
  | container (key : ContainerKey)
  | object (id : String)
  deriving DecidableEq, Repr

/-- The container that a path starts in. -/
def keyOf (path : CachePath) : ContainerKey := { root := path.root, field := path.field }

/-- A position in the value of an owner. -/
structure Slot where
  owner : Owner
  path : List String
  deriving DecidableEq, Repr

/-- Whether a slot is the other one or encloses it. -/
def Slot.encloses (s t : Slot) : Bool := s.owner = t.owner && s.path.isPrefixOf t.path

structure Store where
  /-- The most recently used container comes first. -/
  containers : Recency ContainerKey Container := []
  objects : ObjectTable := []
  /-- The slots that hold placeholders in place of data. -/
  placeholders : List Slot := []
  metrics : Metrics := {}
  deriving Inhabited

namespace Store

def ownerValue? (s : Store) : Owner → Option Json
  | .container key => (Recency.peek? s.containers key).map (·.data)
  | .object id => Fields.get? s.objects id

/-- Puts a value in place of that of an owner. -/
def withOwnerValue (s : Store) (owner : Owner) (v : Json) : Store :=
  match owner with
  | .container key =>
    { s with containers := Recency.update s.containers key fun c => { c with data := v } }
  | .object id => { s with objects := Fields.insert s.objects id v }

/-- The slot at the end of a way down from a value, which stands at `slot`. The last segment need
not be there. -/
def slotFrom? (objects : ObjectTable) (v : Json) (slot : Slot) : List String → Option Slot
  | [] => some slot
  | segment :: rest => do
    let (v, slot) ← match v.referenceId? with
      | some id => (Fields.get? objects id).map (·, { owner := .object id, path := [] })
      | none => some (v, slot)
    let slot := { slot with path := slot.path ++ [segment] }
    match rest with
    | [] => some slot
    | _ => do
      let v ← v.step? segment
      slotFrom? objects v slot rest

def slot? (s : Store) (path : CachePath) : Option Slot := do
  let c ← Recency.peek? s.containers (keyOf path)
  slotFrom? s.objects c.data { owner := .container (keyOf path), path := [] } path.rest

def slotValue? (s : Store) (slot : Slot) : Option Json :=
  (s.ownerValue? slot.owner).bind (·.walk? slot.path)

/-- The stored value at a path; a reference at its end is not followed. -/
def valueAt? (s : Store) (path : CachePath) : Option Json :=
  (s.slot? path).bind s.slotValue?

/-- The identities crossed on a way down from a value and, unless it breaks off, those that the
value at its end leads to, added to those seen before. -/
def reachFrom (objects : ObjectTable) (seen : List String) (v : Json) : List String → List String
  | [] => Json.reach objects seen [v]
  | segment :: rest =>
    let seen := match v.referenceId? with
      | some id => if seen.contains id then seen else seen ++ [id]
      | none => seen
    match (v.resolve? objects).bind (·.step? segment) with
    | some v => reachFrom objects seen v rest
    | none => seen

/-- The identities that a path depends on, added to those seen before. -/
def reach (s : Store) (seen : List String) (path : CachePath) : List String :=
  match Recency.peek? s.containers (keyOf path) with
  | some c => reachFrom s.objects seen c.data path.rest
  | none => seen

/-- Puts a value into a slot. -/
def writeSlot? (s : Store) (slot : Slot) (value : Json) : Option Store := do
  let v ← s.ownerValue? slot.owner
  let v ← v.writeAt? value slot.path
  some (s.withOwnerValue slot.owner v)

/-- Forgets the placeholders of a container. -/
def dropContainerPlaceholders (s : Store) (key : ContainerKey) : Store :=
  { s with placeholders := s.placeholders.filter (·.owner ≠ .container key) }

/-- Whether data written to an identified object took the place of a placeholder. -/
def isReplaced (touched : Touched) (slot : Slot) : Bool :=
  match slot.owner, slot.path with
  | .object id, key :: _ => touched.has id key
  | _, _ => false

/-- Forgets the placeholders whose members were written. -/
def dropReplacedPlaceholders (s : Store) (touched : Touched) : Store :=
  { s with placeholders := s.placeholders.filter fun slot => !isReplaced touched slot }

/-- Forgets the placeholders in a slot. -/
def dropPlaceholdersIn (s : Store) (slot : Slot) : Store :=
  { s with placeholders := s.placeholders.filter fun t => !slot.encloses t }

def markPlaceholder (s : Store) (slot : Slot) : Store :=
  if s.placeholders.contains slot then s
  else { s with placeholders := s.placeholders ++ [slot] }

/-- Takes a container away. -/
def dropContainer (s : Store) (key : ContainerKey) : Store :=
  { s with
    containers := Recency.erase s.containers key
    placeholders := s.placeholders.filter (·.owner ≠ .container key)
    metrics := { s.metrics with evictions := s.metrics.evictions + 1 } }

/-- Puts a container in the place of the one with its key; it is the most recently used one. -/
def putContainer (s : Store) (key : ContainerKey) (c : Container) : Store :=
  { s.dropContainerPlaceholders key with containers := Recency.put s.containers key c }

/-- The identities that the containers lead to. -/
def reachable (s : Store) : List String :=
  Json.reach s.objects [] (s.containers.map (·.2.data))

def keepsOwner (objects : ObjectTable) : Owner → Bool
  | .object id => Fields.contains objects id
  | .container _ => true

/-- Drops the objects that no container leads to, and their placeholders if there are such objects. -/
def collectObjects (s : Store) : Store :=
  if s.objects.isEmpty then s
  else
    let alive := s.reachable
    let kept := s.objects.filter fun p => alive.contains p.1
    let collected := s.objects.length - kept.length
    if collected = 0 then { s with objects := kept }
    else
      { s with
        objects := kept
        placeholders := s.placeholders.filter fun slot => keepsOwner kept slot.owner
        metrics := { s.metrics with collected := s.metrics.collected + collected } }

/-- The containers past their stale window. -/
def reclaimable (s : Store) (now : Nat) : List ContainerKey :=
  (s.containers.filter (·.2.lifetime.isReclaimable now)).map (·.1)

/-- Drops the containers past their stale window, then the objects that none leads to. -/
def sweep (s : Store) (now : Nat) : Store :=
  ((s.reclaimable now).foldl dropContainer s).collectObjects

/-- The least recently used container that may be dropped. -/
def victim? (s : Store) : Option ContainerKey :=
  ((s.containers.reverse).find? (·.2.lifetime.isWeak)).map (·.1)

/-- Drops at most `count` containers, the least recently used first. -/
def dropVictims (s : Store) : Nat → Store
  | 0 => s
  | count + 1 =>
    match s.victim? with
    | some key => (s.dropContainer key).dropVictims count
    | none => s

/-- Drops containers until no more than `maxEntries` are left, or none that may be dropped. -/
def enforceCapacity (s : Store) (maxEntries : Nat) : Store :=
  s.dropVictims (s.containers.length - maxEntries)

/-- The value of an owner without its placeholders, unless it is one as a whole. -/
def stripped? (s : Store) (owner : Owner) : Option Json :=
  let marks := (s.placeholders.filter (·.owner = owner)).map (·.path)
  if marks.contains [] then none
  else (s.ownerValue? owner).map fun v => marks.foldl Json.removeAt v

/-- The unexpired root fields of an operation, without placeholders. -/
def rootFields (s : Store) (now : Nat) (root : Operation) : Fields Json :=
  Fields.ofList (s.containers.filterMap fun (key, c) =>
    if key.root ≠ root || c.lifetime.isExpired now then none
    else (s.stripped? (.container key)).map (key.field, ·))

/-- The objects without placeholders. -/
def strippedObjects (s : Store) : ObjectTable :=
  s.objects.filterMap fun (id, _) => (s.stripped? (.object id)).map (id, ·)

/-- The unexpired data without placeholders. The query root is always there. -/
def snapshot (s : Store) (now : Nat) : Snapshot :=
  let present (fs : Fields Json) : Option (Fields Json) := if fs.isEmpty then none else some fs
  { query := some (s.rootFields now .query)
    mutation := present (s.rootFields now .mutation)
    subscription := present (s.rootFields now .subscription)
    objects := if s.objects.isEmpty then none else some s.strippedObjects
    version := some Snapshot.currentVersion }

end Store
end LazyGraph.Cache
