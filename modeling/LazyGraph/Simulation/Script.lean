import LazyGraph.Text
import LazyGraph.Transport

/-!
Scripted servers: the answers to requests, and the event streams of subscriptions.
-/
namespace LazyGraph.Simulation

/-- What a server answers, or how it fails. -/
abbrev Answer := Except TransportError ExecutionResult

structure ScriptedAnswer where
  /-- A text that has to occur in the query. -/
  pattern : Option String := none
  delay : Nat := 0
  answer : Answer

structure ScriptedStream where
  refusal : Option TransportError := none
  events : List Answer := []
  /-- Whether the stream ends after its events. -/
  ends : Bool := false

def ScriptedAnswer.fits (s : ScriptedAnswer) (query : String) : Bool :=
  match s.pattern with
  | none => true
  | some p => Text.occursIn p.toList query.toList

/-- The first entry that a test holds for, and the other entries. -/
def takeFirst {α : Type} (p : α → Bool) (entries : List α) : Option α × List α :=
  match entries with
  | [] => (none, [])
  | e :: rest =>
    if p e then (some e, rest)
    else
      let (found, rest) := takeFirst p rest
      (found, e :: rest)

/-- The failure of a request for which no answer is left. -/
def noAnswerLeft : Answer := .error (.network "no response left")

end LazyGraph.Simulation
