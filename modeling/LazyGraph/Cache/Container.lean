import LazyGraph.Json
import LazyGraph.Operation

/-!
Containers: the data stored for one root field of an operation, and how long it lasts.

Times are milliseconds.
-/
namespace LazyGraph

/-- How long data lasts. -/
inductive Lifetime
  /-- It is fresh for ever and never reclaimed. -/
  | unlimited
  /-- It is fresh before `expiresAt`, and may be reclaimed from `staleUntil` on. -/
  | limited (expiresAt staleUntil : Nat)
  deriving DecidableEq, Repr, Inhabited

namespace Lifetime

/-- How long the results of mutations and subscriptions last: long enough for the reads that
follow a fetch. -/
def operationResult : Nat := 100

/-- The lifetime of data that arrives at `now`. -/
def ofRoot (root : Operation) (maxAge : Option Nat) (staleWindow now : Nat) : Lifetime :=
  match root, maxAge with
  | .query, none => .unlimited
  | .query, some age => .limited (now + age) (now + age + staleWindow)
  | _, _ => .limited (now + operationResult) (now + operationResult)

def expiresAt? : Lifetime → Option Nat
  | .unlimited => none
  | .limited expiresAt _ => some expiresAt

def staleUntil? : Lifetime → Option Nat
  | .unlimited => none
  | .limited _ staleUntil => some staleUntil

def isExpired (l : Lifetime) (now : Nat) : Bool :=
  match l with
  | .unlimited => false
  | .limited expiresAt _ => expiresAt ≤ now

/-- Whether the data may be dropped, for its age or for want of room. -/
def isWeak : Lifetime → Bool
  | .unlimited => false
  | .limited _ _ => true

/-- Whether the data is past its stale window. -/
def isReclaimable (l : Lifetime) (now : Nat) : Bool :=
  match l with
  | .unlimited => false
  | .limited _ staleUntil => staleUntil ≤ now

end Lifetime

structure ContainerKey where
  root : Operation
  field : String
  deriving DecidableEq, Repr, Inhabited

/-- Stored data: identified objects stand in it as references. -/
structure Container where
  data : Json
  lifetime : Lifetime
  deriving Inhabited

/-- Counts of what happened to a cache. -/
structure Metrics where
  /-- Reads that found data. -/
  hits : Nat := 0
  /-- Reads that found nothing, a placeholder, or expired data alone. -/
  misses : Nat := 0
  /-- Containers that were dropped. -/
  evictions : Nat := 0
  /-- Objects that were dropped because nothing led to them. -/
  collected : Nat := 0
  deriving DecidableEq, Repr, Inhabited

namespace Metrics

def record (m : Metrics) (hit : Bool) : Metrics :=
  if hit then { m with hits := m.hits + 1 } else { m with misses := m.misses + 1 }

/-- The fraction of reads that found data, zero before the first read. -/
def hitRate (m : Metrics) : Double :=
  if m.hits + m.misses = 0 then .zero false
  else (Double.ofRatio? false m.hits (m.hits + m.misses)).getD (.zero false)

end Metrics
end LazyGraph
