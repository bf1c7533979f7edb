import LazyGraph.Client

/-!
A fetch from its beginning to its end, for a caller that has nothing else to do meanwhile.
-/
namespace LazyGraph.Client

/-- What a fetch needs from outside. -/
structure Outside (m : Type → Type) where
  /-- The time, in milliseconds. -/
  now : m Nat
  /-- Lets a number of milliseconds pass. -/
  wait : Nat → m Unit
  /-- The answer to a payload. There is none where fetching it panics. -/
  fetch : Payload → m (Option (Except TransportError ExecutionResult))

variable {m : Type → Type} [Monad m]

/-- The answer to a request. Nobody answers subscriptions. -/
def answerFrom (outside : Outside m) (r : Request) :
    m (Option (Except TransportError ExecutionResult)) :=
  match r.operation with
  | .subscription => pure (some (.error .subscriberMissing))
  | _ => outside.fetch r.payload

/-- Moves a fetch on until it has ended. Each round changes how a request stands, which it can do
three times. A panic takes the fetch down, and who waits for it is told that it was cancelled. -/
def complete (outside : Outside m) (id : FetchId) : Nat → Client → m Client
  | 0, c => pure c
  | rounds + 1, c => do
    let (progress, c) := c.pollFetch (← outside.now) id
    match progress with
    | .send r =>
      match ← answerFrom outside r with
      | some answer => complete outside id rounds (c.answer r.id answer)
      | none => pure (c.endFetch id (.error .cancelled))
    | .delivered => complete outside id rounds c
    | .waiting | .ended _ => pure c

/-- Closes the window of a group and fetches it. -/
def fetchGroup (outside : Outside m) (c : Client) (group : Nat) : m Client :=
  let c := c.dispatch group
  complete outside (.group group) (3 * c.requests.length + 1) c

/-- Fetches selections into the shared cache. -/
def exchange (outside : Outside m) (c : Client) (selections : List Selection) (key : BatchKey) :
    m (FetchResult × Client) := do
  let (ticket, c) := c.enlist selections key
  outside.wait c.options.window
  let c ← ticket.foldlM (fetchGroup outside) c
  pure ((c.schedule.outcome? ticket).getD (.error .cancelled), c)

end LazyGraph.Client
