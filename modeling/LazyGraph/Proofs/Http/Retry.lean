import Mathlib.Data.ENat.Lattice
import LazyGraph.Http

/-!
How far retries go. A fetch sends its request until an outcome is final or no retry is left, gives
the outcome of the last request, and waits after each failed one but the last, twice as long every
time. The waits are durations: where the next one would be none, the fetch panics after the wait
before it.
-/
namespace LazyGraph

/-! ### Doubling -/

namespace Duration

def longest : Duration := ⟨bound - 1, by decide⟩

variable {d e : Duration}

theorem mul_two_pow_succ (nanos i : Nat) : nanos * 2 ^ (i + 1) = 2 * nanos * 2 ^ i := by
  rw [pow_succ', mul_left_comm, mul_assoc]

theorem double?_eq_some (h : d.double? = some e) : e.nanos = 2 * d.nanos := by
  unfold double? at h
  split at h
  · cases h
    rfl
  · cases h

theorem nanos_double (h : d.double? = some e) (i : Nat) : d.nanos * 2 ^ (i + 1) = e.nanos * 2 ^ i := by
  rw [double?_eq_some h, mul_two_pow_succ]

theorem double?_eq_none (h : d.double? = none) : bound ≤ 2 * d.nanos := by
  unfold double? at h
  split at h
  · cases h
  · exact Nat.le_of_not_lt ‹_›

end Duration

namespace Http

/-! ### What a fetch is seen to do -/

/-- What a fetch does outside; a wait is told by its nanoseconds. -/
inductive Act
  | post (request : Request)
  | wait (nanos : Nat)

def Act.isPost : Act → Bool
  | .post _ => true
  | .wait _ => false

/-- The number of requests among the acts. -/
def sent (acts : List Act) : Nat := acts.countP Act.isPost

/-- A link whose replies are fixed, one for each request in its turn. All acts are noted. -/
def scripted (replies : Nat → Except String Response) : Link (StateM (List Act)) where
  post r := fun acts => (replies (sent acts), acts ++ [.post r])
  wait d := modify (· ++ [.wait d.nanos])

/-- What a single request comes to. -/
def outcome : Except String Response → Except TransportError ExecutionResult
  | .ok response => response.outcome
  | .error reason => .error (.network reason)

/-- A success, or a failure that another attempt would meet as well. -/
def isFinal {α : Type} : Except TransportError α → Bool
  | .ok _ => true
  | .error e => !e.isTransient

/-- The position of the first final outcome; infinite if there is none. -/
noncomputable def firstFinal {α : Type} (outcomes : Nat → Except TransportError α) : ℕ∞ :=
  ⨅ (i : Nat) (_ : isFinal (outcomes i) = true), (i : ℕ∞)

/-- Failed requests, each with the wait after it. -/
def failures (r : Request) (nanos failed : Nat) : List Act :=
  (List.range failed).flatMap fun i => [.post r, .wait (nanos * 2 ^ i)]

/-- Failed requests, each with the wait after it, and a last request. -/
def attempts (r : Request) (nanos failed : Nat) : List Act := failures r nanos failed ++ [.post r]

/-! ### Counting -/

theorem sent_append (acts more : List Act) : sent (acts ++ more) = sent acts + sent more :=
  List.countP_append

theorem failures_succ (r : Request) (nanos failed : Nat) : failures r nanos (failed + 1) =
    [.post r, .wait nanos] ++ failures r (2 * nanos) failed := by
  rw [failures, List.range_succ_eq_map, List.flatMap_cons, List.flatMap_map]
  simp only [Duration.mul_two_pow_succ, pow_zero, mul_one]
  rfl

theorem sent_failures (r : Request) (nanos failed : Nat) :
    sent (failures r nanos failed) = failed := by
  induction failed generalizing nanos with
  | zero => rfl
  | succ failed ih =>
      have hrest := sent_append [.post r, .wait nanos] (failures r (2 * nanos) failed)
      rw [ih] at hrest
      rw [failures_succ]
      exact hrest.trans (Nat.add_comm 1 failed)

/-- Failures go on after the first one with the delay doubled. -/
theorem append_failures_double {d e : Duration} (h : d.double? = some e) (acts : List Act)
    (r : Request) (failed : Nat) : acts ++ failures r d.nanos (failed + 1) =
      acts ++ [.post r, .wait d.nanos] ++ failures r e.nanos failed := by
  rw [failures_succ, Duration.double?_eq_some h, List.append_assoc]

theorem sent_append_again (acts : List Act) (r : Request) (nanos i : Nat) :
    sent (acts ++ [.post r, .wait nanos]) + i = sent acts + (i + 1) := by
  rw [sent_append, Nat.add_comm i 1, ← Nat.add_assoc]
  rfl

theorem sent_attempts (r : Request) (nanos failed : Nat) :
    sent (attempts r nanos failed) = failed + 1 :=
  (sent_append _ _).trans (congrArg (· + 1) (sent_failures r nanos failed))

/-! ### The last request -/

section Last

variable {α : Type} {outcomes : Nat → Except TransportError α}

/-- Outcomes are taken up to the first final one, or up to a limit. -/
theorem exists_last (outcomes : Nat → Except TransportError α) (limit : Nat) :
    ∃ last ≤ limit, (∀ i < last, isFinal (outcomes i) = false) ∧
      (last = limit ∨ isFinal (outcomes last) = true) := by
  induction limit with
  | zero => exact ⟨0, Nat.le_refl 0, fun i hi => absurd hi (Nat.not_lt_zero i), .inl rfl⟩
  | succ limit ih =>
      obtain ⟨last, hle, hfailed, hend⟩ := ih
      cases hfinal : isFinal (outcomes last) with
      | true => exact ⟨last, Nat.le_succ_of_le hle, hfailed, .inr hfinal⟩
      | false =>
          obtain rfl : last = limit := by
            refine hend.resolve_right ?_
            simp [hfinal]
          refine ⟨last + 1, Nat.le_refl _, ?_, .inl rfl⟩
          intro i hi
          rcases Nat.lt_succ_iff_lt_or_eq.mp hi with hlt | rfl
          · exact hfailed i hlt
          · exact hfinal

theorem min_firstFinal {last limit : Nat} (hle : last ≤ limit)
    (hfailed : ∀ i < last, isFinal (outcomes i) = false)
    (hend : last = limit ∨ isFinal (outcomes last) = true) :
    (last : ℕ∞) = min (firstFinal outcomes) limit := by
  have hfirst : (last : ℕ∞) ≤ firstFinal outcomes := by
    refine le_iInf₂ fun i hi => Nat.cast_le.mpr (Nat.le_of_not_lt fun hlt => ?_)
    rw [hfailed i hlt] at hi
    cases hi
  refine le_antisymm (le_min hfirst (Nat.cast_le.mpr hle)) ?_
  rcases hend with rfl | hfinal
  · exact min_le_right _ _
  · exact (min_le_left _ _).trans (iInf₂_le last hfinal)

end Last

/-! ### The loop -/

theorem run_bind {α β : Type} (m : StateM (List Act) α) (g : α → StateM (List Act) β)
    (acts : List Act) : (m >>= g).run acts = (g (m.run acts).1).run (m.run acts).2 := rfl

section Loop

variable {α : Type} {outcomes : Nat → Except TransportError α} {r : Request}
  (replies : Nat → Except String Response) {send : StateM (List Act) (Except TransportError α)}
  (hsend : ∀ acts, send.run acts = (outcomes (sent acts), acts ++ [.post r]))

include hsend

theorem sendWithin_zero (delay : Duration) (acts : List Act) :
    (Retry.sendWithin send (scripted replies).wait 0 delay).run acts =
      (some (outcomes (sent acts)), acts ++ [.post r]) := by
  rw [Retry.sendWithin, run_bind, hsend acts]
  rfl

/-- A final outcome is given, whatever retries are left. -/
theorem sendWithin_final (limit : Nat) (delay : Duration) (acts : List Act)
    (h : isFinal (outcomes (sent acts)) = true) :
    (Retry.sendWithin send (scripted replies).wait limit delay).run acts =
      (some (outcomes (sent acts)), acts ++ [.post r]) := by
  cases limit with
  | zero => exact sendWithin_zero replies hsend delay acts
  | succ limit =>
      rw [Retry.sendWithin, run_bind, hsend acts]
      cases ho : outcomes (sent acts) with
      | ok result => rfl
      | error e =>
          rw [ho, isFinal, Bool.not_eq_true'] at h
          simp only [h, Bool.false_eq_true, if_false]
          rfl

/-- After a transient failure comes the wait, and then the doubling: the rest of the retries goes on
with it, or nothing does. -/
theorem sendWithin_again (limit : Nat) (delay : Duration) (acts : List Act)
    (h : isFinal (outcomes (sent acts)) = false) :
    (Retry.sendWithin send (scripted replies).wait (limit + 1) delay).run acts =
      match delay.double? with
      | some next => (Retry.sendWithin send (scripted replies).wait limit next).run
          (acts ++ [.post r, .wait delay.nanos])
      | none => (none, acts ++ [.post r, .wait delay.nanos]) := by
  have hacts : acts ++ [.post r] ++ [.wait delay.nanos] =
      acts ++ [.post r, .wait delay.nanos] := List.append_assoc _ _ _
  rw [Retry.sendWithin, run_bind, hsend acts, ← hacts]
  cases ho : outcomes (sent acts) with
  | ok result =>
      rw [ho] at h
      cases h
  | error e =>
      rw [ho, isFinal, Bool.not_eq_false'] at h
      simp only [h, if_true]
      rw [run_bind]
      cases delay.double? <;> rfl

/-- Sending goes on to the last request if the delay doubled for every one before it is a duration,
and panics at the first doubling that is none. The induction is on the number of failures. -/
theorem sendWithin_run {last : Nat} (limit : Nat) (delay : Duration) (acts : List Act)
    (hle : last ≤ limit) (hfailed : ∀ i < last, isFinal (outcomes (sent acts + i)) = false)
    (hend : last = limit ∨ isFinal (outcomes (sent acts + last)) = true) :
    (delay.nanos * 2 ^ last < Duration.bound ∧
      (Retry.sendWithin send (scripted replies).wait limit delay).run acts =
        (some (outcomes (sent acts + last)), acts ++ attempts r delay.nanos last)) ∨
    ∃ lost < last, delay.nanos * 2 ^ lost < Duration.bound ∧
      Duration.bound ≤ delay.nanos * 2 ^ (lost + 1) ∧
      (Retry.sendWithin send (scripted replies).wait limit delay).run acts =
        (none, acts ++ failures r delay.nanos (lost + 1)) := by
  induction last generalizing limit delay acts with
  | zero =>
      refine .inl ⟨by simpa using delay.fits, ?_⟩
      rcases hend with rfl | hfinal
      · exact sendWithin_zero replies hsend delay acts
      · exact sendWithin_final replies hsend limit delay acts hfinal
  | succ last ih =>
      cases limit with
      | zero => cases hle
      | succ limit =>
          have hagain := sendWithin_again replies hsend limit delay acts
            (hfailed 0 (Nat.succ_pos last))
          cases hdouble : delay.double? with
          | none =>
              have hbeyond := Duration.double?_eq_none hdouble
              simp only [hdouble] at hagain
              refine .inr ⟨0, Nat.succ_pos last, by simpa using delay.fits, by omega, ?_⟩
              rw [hagain, failures_succ]
              rfl
          | some next =>
              have hnext := Duration.nanos_double hdouble
              have hfailures := append_failures_double hdouble acts r
              have hrest := ih limit next (acts ++ [.post r, .wait delay.nanos])
                (Nat.le_of_succ_le_succ hle)
              simp only [hdouble] at hagain
              simp only [sent_append_again] at hrest
              rw [hagain]
              replace hrest := hrest (fun i hi => hfailed (i + 1) (Nat.succ_lt_succ hi))
                (hend.imp_left Nat.succ.inj)
              rcases hrest with ⟨hfits, hrun⟩ | ⟨lost, hlost, hfits, hbeyond, hrun⟩
              · refine .inl ⟨(hnext last).trans_lt hfits, ?_⟩
                rw [hrun, attempts, attempts, ← List.append_assoc, ← List.append_assoc, hfailures]
              · refine .inr ⟨lost + 1, Nat.succ_lt_succ hlost, (hnext lost).trans_lt hfits,
                  hbeyond.trans_eq (hnext (lost + 1)).symm, ?_⟩
                rw [hrun, hfailures]

end Loop

/-! ### Fetches -/

namespace Fetcher

variable (f : Fetcher) (replies : Nat → Except String Response) (p : Payload)

theorem sendOnce_run (acts : List Act) :
    (f.sendOnce (scripted replies) p).run acts =
      (outcome (replies (sent acts)), acts ++ [.post (f.request p)]) := by
  have hpost : ((scripted replies).post (f.request p)).run acts =
      (replies (sent acts), acts ++ [.post (f.request p)]) := rfl
  rw [sendOnce, run_bind, hpost]
  cases replies (sent acts) <;> rfl

/-- Whatever the replies are, and whatever the limit of retries and the first wait: let `last` be
the position of the first final outcome, or the limit if that comes first. If `2 ^ last` times the
first wait is a duration, a fetch sends `last + 1` requests, gives the outcome of the last one, and
waits after each of the others, `2 ^ i` times the first wait after the one at position `i`. If not,
it gives none: it panics after the wait of the first failed request at whose doubling the bound is
reached. -/
theorem fetch_stops :
    ∃ last : Nat, (last : ℕ∞) = min (firstFinal fun i => outcome (replies i)) f.retry.limit ∧
      ((f.retry.delay.nanos * 2 ^ last < Duration.bound ∧
          (f.fetch (scripted replies) p).run [] =
            (some (outcome (replies last)), attempts (f.request p) f.retry.delay.nanos last) ∧
          sent (attempts (f.request p) f.retry.delay.nanos last) = last + 1) ∨
        ∃ lost < last, f.retry.delay.nanos * 2 ^ lost < Duration.bound ∧
          Duration.bound ≤ f.retry.delay.nanos * 2 ^ (lost + 1) ∧
          (f.fetch (scripted replies) p).run [] =
            (none, failures (f.request p) f.retry.delay.nanos (lost + 1)) ∧
          sent (failures (f.request p) f.retry.delay.nanos (lost + 1)) = lost + 1) := by
  let outcomes (i : Nat) := outcome (replies i)
  have hsend : ∀ acts, (f.sendOnce (scripted replies) p).run acts =
      (outcomes (sent acts), acts ++ [.post (f.request p)]) := f.sendOnce_run replies p
  obtain ⟨last, hle, hfailed, hend⟩ := exists_last outcomes f.retry.limit
  have hzero : ∀ i, sent [] + i = i := Nat.zero_add
  have hloop := sendWithin_run replies hsend f.retry.limit f.retry.delay [] hle
  simp only [hzero] at hloop
  refine ⟨last, min_firstFinal hle hfailed hend, ?_⟩
  rcases hloop hfailed hend with ⟨hfits, hrun⟩ | ⟨lost, hlost, hfits, hbeyond, hrun⟩
  · exact .inl ⟨hfits, hrun, sent_attempts _ _ last⟩
  · exact .inr ⟨lost, hlost, hfits, hbeyond, hrun, sent_failures _ _ (lost + 1)⟩

/-- A fetcher with one retry, after the longest wait there is. -/
def patient : Fetcher where
  endpoint := "http://localhost/graphql"
  headers := []
  retry := { limit := 1, delay := .longest }

/-- Where the connection is refused, a fetch with one retry after the longest wait panics before it
sends again, though the first final outcome and the limit let it. -/
theorem patient_panics :
    let refused : Nat → Except String Response := fun _ => .error "connection refused"
    let p : Payload := { query := "query\x7bhello\x7d" }
    (patient.fetch (scripted refused) p).run [] =
        (none, [.post (patient.request p), .wait Duration.longest.nanos]) ∧
      ¬ ∃ last : Nat,
        (last : ℕ∞) = min (firstFinal fun i => outcome (refused i)) patient.retry.limit ∧
        (patient.fetch (scripted refused) p).run [] =
          (some (outcome (refused last)),
            attempts (patient.request p) patient.retry.delay.nanos last) := by
  intro refused p
  let outcomes (i : Nat) := outcome (refused i)
  have hsend : ∀ acts, (patient.sendOnce (scripted refused) p).run acts =
      (outcomes (sent acts), acts ++ [.post (patient.request p)]) := patient.sendOnce_run refused p
  have hrun : (patient.fetch (scripted refused) p).run [] =
      (none, [.post (patient.request p), .wait Duration.longest.nanos]) :=
    sendWithin_again refused hsend 0 .longest [] rfl
  refine ⟨hrun, ?_⟩
  rintro ⟨last, -, hsome⟩
  rw [hrun] at hsome
  cases hsome

end Fetcher
end Http
end LazyGraph
