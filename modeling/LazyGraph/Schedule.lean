import LazyGraph.Json.Reader
import LazyGraph.Selection
import LazyGraph.Transport

/-!
Batching of fetches. Selections that are added while a window is open make one group, which is
fetched when the window closes. A selection that is part of an unsettled group is not added again:
who asks for it waits for that group.

Windows are kept for each batch key, so that requests of different names or extensions never mix.
-/
namespace LazyGraph

/-- What the requests of one batch have in common. -/
structure BatchKey where
  operationName : Option String := none
  /-- The canonical text of the extensions. -/
  extensionsText : Option String := none
  deriving DecidableEq, Repr, Inhabited

namespace BatchKey

def new (operationName : Option String) (extensions : Option (Fields Json)) : BatchKey where
  operationName
  extensionsText := extensions.map fun e => Json.canonical (.object e)

/-- The extensions that are sent, read from their text. -/
def extensions (k : BatchKey) : Option (Fields Json) :=
  (k.extensionsText.bind Json.parse?).bind Json.asObject?

end BatchKey

/-- How a fetch ends. -/
abbrev FetchResult := Except TransportError Unit

/-- A group that is still open. -/
structure Window where
  key : BatchKey
  group : Nat
  selections : List Selection
  deriving Inhabited

/-- The groups that a caller waits for, in the order in which they are awaited. -/
abbrev Ticket := List Nat

structure Schedule where
  nextGroup : Nat := 1
  windows : List Window := []
  /-- The ids of selections with the unsettled groups that they are part of. -/
  pending : List (Nat × Nat) := []
  /-- The results of settled groups. -/
  outcomes : List (Nat × FetchResult) := []
  deriving Inhabited

namespace Schedule

def groupOf? (s : Schedule) (selection : Nat) : Option Nat := s.pending.lookup selection

def isPending (s : Schedule) (selection : Nat) : Bool := (s.groupOf? selection).isSome

/-- The number of unsettled groups, open windows included. -/
def pendingCount (s : Schedule) : Nat := (s.pending.map (·.2)).eraseDups.length

/-- The group of the open window of a key; a new window if there is none. -/
def openWindow (s : Schedule) (key : BatchKey) : Nat × Schedule :=
  match s.windows.find? (·.key = key) with
  | some w => (w.group, s)
  | none =>
    (s.nextGroup,
     { s with
       nextGroup := s.nextGroup + 1
       windows := s.windows ++ [{ key, group := s.nextGroup, selections := [] }] })

/-- Puts a selection into the open window of a group, unless it is pending. -/
def join (group : Nat) (s : Schedule) (selection : Selection) : Schedule :=
  if s.isPending selection.id then s
  else { s with
    pending := s.pending ++ [(selection.id, group)]
    windows := s.windows.map fun w =>
      if w.group = group then { w with selections := w.selections ++ [selection] } else w }

/-- Adds selections: the pending ones are waited for where they are, the others join the window
of the key. -/
def add (s : Schedule) (selections : List Selection) (key : BatchKey) : Ticket × Schedule :=
  let joined := (selections.filterMap fun x => s.groupOf? x.id).eraseDups
  match selections.filter fun x => !s.isPending x.id with
  | [] => (joined, s)
  | fresh =>
    let (group, s) := s.openWindow key
    (if joined.contains group then joined else joined ++ [group], fresh.foldl (join group) s)

/-- Closes the window of a group. Its selections stay pending. -/
def close (s : Schedule) (group : Nat) : Option Window × Schedule :=
  (s.windows.find? (·.group = group),
   { s with windows := s.windows.filter (·.group ≠ group) })

/-- Settles a group: its selections are no longer pending, and who waits for it learns how it
ended. -/
def settle (s : Schedule) (group : Nat) (result : FetchResult) : Schedule :=
  { s with
    windows := s.windows.filter (·.group ≠ group)
    pending := s.pending.filter (·.2 ≠ group)
    outcomes := s.outcomes ++ [(group, result)] }

/-- How a ticket ends, once that is known: with the first failure in its order, or well when all
groups have settled. -/
def outcome? (s : Schedule) : Ticket → Option FetchResult
  | [] => some (.ok ())
  | group :: rest =>
    match s.outcomes.lookup group with
    | none => none
    | some (.error e) => some (.error e)
    | some (.ok ()) => s.outcome? rest

end Schedule
end LazyGraph
