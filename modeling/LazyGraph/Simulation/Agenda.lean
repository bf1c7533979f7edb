/-!
Agendas: which task runs next, and when the clock moves.

Tasks that are ready run first come, first served. A task that yields runs again once no other is
ready, and of several such tasks the last one comes first. The clock moves only when no task can
run, and then to the next timer.
-/
namespace LazyGraph.Simulation

structure Timer (ε : Type) where
  due : Nat
  event : ε
  deriving Inhabited

structure Agenda (τ ε : Type) where
  now : Nat := 0
  ready : List τ := []
  yielded : List τ := []
  /-- In the order of their times; of one time, the one that was set first comes first. -/
  timers : List (Timer ε) := []
  deriving Inhabited

namespace Agenda

variable {τ ε : Type} [DecidableEq τ]

/-- Makes a task ready, unless it is. -/
def wake (a : Agenda τ ε) (t : τ) : Agenda τ ε :=
  if a.ready.contains t then a else { a with ready := a.ready ++ [t] }

/-- Lets the other ready tasks run before a task. -/
def yield (a : Agenda τ ε) (t : τ) : Agenda τ ε := { a with yielded := t :: a.yielded }

/-- Puts a timer behind those that are due no later. -/
def putTimer (t : Timer ε) : List (Timer ε) → List (Timer ε)
  | [] => [t]
  | u :: rest => if u.due ≤ t.due then u :: putTimer t rest else t :: u :: rest

def setTimer (a : Agenda τ ε) (due : Nat) (event : ε) : Agenda τ ε :=
  { a with timers := putTimer { due, event } a.timers }

/-- The task to run next; yielded tasks come when no other is ready. -/
def next? (a : Agenda τ ε) : Option (τ × Agenda τ ε) :=
  match a.ready with
  | t :: rest => some (t, { a with ready := rest })
  | [] => none

/-- Makes the yielded tasks ready. -/
def resume (a : Agenda τ ε) : Agenda τ ε :=
  a.yielded.foldl wake { a with yielded := [] }

def nextDue? (a : Agenda τ ε) : Option Nat := a.timers.head?.map (·.due)

/-- Moves the clock, and takes out the timers that are due then. -/
def moveTo (a : Agenda τ ε) (time : Nat) : List (Timer ε) × Agenda τ ε :=
  (a.timers.takeWhile (·.due ≤ time),
   { a with now := max a.now time, timers := a.timers.dropWhile (·.due ≤ time) })

end Agenda
end LazyGraph.Simulation
