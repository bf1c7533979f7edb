/-!
Lists ordered by use, the most recently used entry first, with one entry a key.
-/
namespace LazyGraph

abbrev Recency (κ α : Type) := List (κ × α)

namespace Recency

variable {κ α : Type} [DecidableEq κ]

/-- The entry of a key, which is not thereby used. -/
def peek? (l : Recency κ α) (key : κ) : Option α := List.lookup key l

def contains (l : Recency κ α) (key : κ) : Bool := (peek? l key).isSome

def erase (l : Recency κ α) (key : κ) : Recency κ α := l.filter (·.1 ≠ key)

/-- Puts an entry first, in place of one with its key. -/
def put (l : Recency κ α) (key : κ) (value : α) : Recency κ α := (key, value) :: erase l key

/-- Uses an entry: it comes first. -/
def touch (l : Recency κ α) (key : κ) : Recency κ α :=
  match peek? l key with
  | some value => put l key value
  | none => l

/-- Changes an entry where it stands. -/
def update (l : Recency κ α) (key : κ) (f : α → α) : Recency κ α :=
  l.map fun p => if p.1 = key then (p.1, f p.2) else p

end Recency
end LazyGraph
