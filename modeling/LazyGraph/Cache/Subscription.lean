import LazyGraph.Cache.Path

/-!
Subscriptions to a cache. A write concerns a subscriber if it lands on, above or below one of its
paths, or if it touches an identified object that one of its paths depends on.
-/
namespace LazyGraph.Cache

structure Subscription where
  id : Nat
  /-- The subscribed paths; without any list, every write counts. -/
  paths : Option (List CachePath)
  /-- The identities that the paths depended on when they were last looked at. -/
  reached : List String := []
  deriving Inhabited

/-- A value written at a path, as it was given. -/
structure Write where
  path : CachePath
  value : Json

/-- Whether a write lands on a path or below it, or above it with a value there. -/
def Write.concerns (w : Write) (path : CachePath) : Bool :=
  path.isPrefixOf w.path
    || (w.path.isPrefixOf path && (w.value.walk? (path.rest.drop w.path.rest.length)).isSome)

def Subscription.isConcerned (s : Subscription) (writes : List Write) (touched : List String) :
    Bool :=
  match s.paths with
  | none => true
  | some paths =>
    paths.any (fun p => writes.any (·.concerns p)) || s.reached.any touched.contains

/-- Looks again at what the paths of a subscription depend on: one set, path by path. -/
def Subscription.refresh (reach : List String → CachePath → List String) (s : Subscription) :
    Subscription :=
  match s.paths with
  | none => s
  | some paths => { s with reached := paths.foldl reach [] }

/-- The live subscriptions, in the order in which they were made. -/
structure Registry where
  nextId : Nat := 1
  entries : List Subscription := []
  deriving Inhabited

namespace Registry

def add (r : Registry) (paths : Option (List CachePath)) : Nat × Registry :=
  (r.nextId, { nextId := r.nextId + 1, entries := r.entries ++ [{ id := r.nextId, paths }] })

def remove (r : Registry) (id : Nat) : Registry :=
  { r with entries := r.entries.filter (·.id ≠ id) }

def size (r : Registry) : Nat := r.entries.length

/-- The subscriptions that writes or touched identities concern. -/
def concerned (r : Registry) (writes : List Write) (touched : List String) : List Nat :=
  (r.entries.filter (·.isConcerned writes touched)).map (·.id)

def refresh (r : Registry) (reach : List String → CachePath → List String) : Registry :=
  { r with entries := r.entries.map (·.refresh reach) }

end Registry
end LazyGraph.Cache
