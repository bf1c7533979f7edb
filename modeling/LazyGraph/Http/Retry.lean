import LazyGraph.Transport

/-!
Retries: a request whose failure may pass is sent again, after a wait that doubles each time. Waits
are durations, which are bounded; doubling one beyond the bound is a panic.
-/
namespace LazyGraph

/-- The first number of nanoseconds that is no duration: whole seconds have 64 bits. -/
def Duration.bound : Nat := Nat.pow 2 64 * Nat.pow 10 9

/-- A span of time, in nanoseconds. -/
structure Duration where
  nanos : Nat
  fits : nanos < Duration.bound
  deriving DecidableEq, Repr

namespace Duration

/-- A number of milliseconds. -/
def ofMillis (ms : UInt64) : Duration where
  nanos := ms.toNat * Nat.pow 10 6
  fits := Nat.lt_of_lt_of_le (Nat.mul_lt_mul_of_pos_right ms.toNat_lt (by decide)) (by decide)

/-- The whole milliseconds. -/
def millis (d : Duration) : Nat := d.nanos / Nat.pow 10 6

/-- Twice the duration, unless that is beyond the bound. -/
def double? (d : Duration) : Option Duration :=
  if h : 2 * d.nanos < bound then some ⟨2 * d.nanos, h⟩ else none

end Duration

namespace Http

structure Retry where
  /-- How often a request is sent again at most. -/
  limit : Nat
  /-- The wait before it is sent again for the first time. -/
  delay : Duration
  deriving DecidableEq, Repr

namespace Retry

variable {m : Type → Type} [Monad m] {α : Type}

/-- Sends until the outcome is final, or until no retry is left. The outcome is that of the last
request, and nothing is waited for after it. After each wait the next one is made ready, whether it
will be needed or not; there is no outcome where that panics. -/
def sendWithin (send : m (Except TransportError α)) (wait : Duration → m Unit) :
    Nat → Duration → m (Option (Except TransportError α))
  | 0, _ => return some (← send)
  | limit + 1, delay => do
    match ← send with
    | .ok result => pure (some (.ok result))
    | .error e =>
      if e.isTransient then do
        wait delay
        match delay.double? with
        | some delay => sendWithin send wait limit delay
        | none => pure none
      else pure (some (.error e))

/-- Sends a request with the retries of a policy. -/
def run (r : Retry) (send : m (Except TransportError α)) (wait : Duration → m Unit) :
    m (Option (Except TransportError α)) :=
  sendWithin send wait r.limit r.delay

end Retry
end Http
end LazyGraph
