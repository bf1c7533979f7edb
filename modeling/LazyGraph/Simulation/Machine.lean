import LazyGraph.Simulation.Agenda

/-!
Machines: states that hold an agenda, with what their tasks and timers do.

A run is decided by the agenda alone. It goes on until a goal is reached, until only time could
make a task ready, or until a limit of time.
-/
namespace LazyGraph.Simulation

structure Machine (σ τ ε : Type) where
  agenda : σ → Agenda τ ε
  withAgenda : σ → Agenda τ ε → σ
  run : σ → τ → σ
  /-- What a timer does that goes off. -/
  ring : σ → Timer ε → σ

/-- Whether a goal is reached; if it is not, when to look again at the latest. -/
inductive Look (α : Type)
  | reached (value : α)
  | pending (wakeAt : Option Nat)

/-- The earlier of two times, the first of which may be missing. -/
def earlier (a : Option Nat) (b : Nat) : Nat :=
  match a with
  | some a => min a b
  | none => b

namespace Machine

variable {σ τ ε : Type} [DecidableEq τ] (m : Machine σ τ ε)

/-- How many tasks, rounds and instants a run may take; no run comes near it. -/
def fuel : Nat := 100000000

def now (s : σ) : Nat := (m.agenda s).now

/-- Runs ready tasks until none is left. -/
def runReady : Nat → σ → σ
  | 0, s => s
  | fuel + 1, s =>
    match (m.agenda s).next? with
    | none => s
    | some (t, agenda) => runReady fuel (m.run (m.withAgenda s agenda) t)

/-- Moves the clock, and lets the timers go off that are due then. -/
def moveTo (s : σ) (time : Nat) : σ :=
  let (due, agenda) := (m.agenda s).moveTo time
  due.foldl m.ring (m.withAgenda s agenda)

/-- Makes the yielded tasks ready. -/
def resume (s : σ) : σ := m.withAgenda s (m.agenda s).resume

/-- Runs tasks until only time could make one ready, within a bound of rounds. -/
def settleWithin : Nat → σ → σ
  | 0, s => s
  | fuel + 1, s =>
    let s := m.runReady fuel s
    match (m.agenda s).yielded with
    | [] => s
    | _ => settleWithin fuel (m.resume s)

/-- Runs tasks until only time could make one ready. -/
def settle (s : σ) : σ := m.settleWithin fuel s

/-- Lets tasks run and time pass until a goal is reached or the limit is, within a bound of
rounds. The goal is looked at before the tasks of an instant run, and after them. -/
def driveWithin {α : Type} (limit : Nat) (goal : σ → Look α × σ) : Nat → σ → Option α × σ
  | 0, s => (none, s)
  | fuel + 1, s =>
    match goal s with
    | (.reached a, s) => (some a, s)
    | (.pending wakeAt, s) =>
      if !(m.agenda s).ready.isEmpty then driveWithin limit goal fuel (m.runReady fuel s)
      else if !(m.agenda s).yielded.isEmpty then driveWithin limit goal fuel (m.resume s)
      else if limit ≤ m.now s then (none, s)
      else
        let time := earlier wakeAt (earlier (m.agenda s).nextDue? limit)
        driveWithin limit goal fuel (m.moveTo s time)

/-- Lets tasks run and time pass until a goal is reached or the limit is. -/
def drive {α : Type} (limit : Nat) (goal : σ → Look α × σ) (s : σ) : Option α × σ :=
  m.driveWithin limit goal fuel s

/-- The goal that a time has come. -/
def atTime (due : Nat) (s : σ) : Look Unit × σ :=
  if due ≤ m.now s then (.reached (), s) else (.pending (some due), s)

end Machine
end LazyGraph.Simulation
