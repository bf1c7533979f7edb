import LazyGraph.Client.Watch
import LazyGraph.Proofs.Client.Fetching

/-!
Transitions: all that can happen to a client, one thing at a time, and what each leaves of its
requests, its fetches and its schedule.
-/
namespace LazyGraph.Client

variable {c d e : Client}

/-- One transition of a client. Whoever drives it may put them in any order. -/
inductive Transition (c : Client) : Client → Prop
  /-- A call makes its first run, under a number that no running fetch has. -/
  | resolve (now id : Nat) (closure : Closure) (policy : FetchPolicy) (key : BatchKey)
    (fresh : ∀ f ∈ c.fetches, f.id ≠ .call id) :
    Transition c (c.resolve now id closure policy key).2
  /-- A call makes its second run. -/
  | conclude (now : Nat) (call : Call) (result : FetchResult) :
    Transition c (c.conclude now call result).2
  /-- Selections are asked for without a call. -/
  | enlist (selections : List Selection) (key : BatchKey) :
    Transition c (c.enlist selections key).2
  /-- The window of a group closes. -/
  | dispatch {w : Window} (opened : w ∈ c.schedule.windows) : Transition c (c.dispatch w.group)
  /-- A fetch is moved on. -/
  | poll (now : Nat) (id : FetchId) : Transition c (c.pollFetch now id).2
  /-- The answer to a request comes. -/
  | answer (request : Nat) (a : Except TransportError ExecutionResult) :
    Transition c (c.answer request a)
  /-- A fetch is given up, with the task that ran it. -/
  | giveUp {f : Fetch} (running : f ∈ c.fetches) (cause : TransportError) :
    Transition c (c.endFetch f.id (.error cause))
  /-- Accessors of a context are used. -/
  | perform {α : Type} (now : Nat) (context : Context) (action : Attempt α) :
    Transition c (c.perform now context action).2.2
  /-- The cache is used by itself. -/
  | useCache (cache : Cache) : Transition c { c with cache }
  /-- An event of a stream is stored. -/
  | feed (now : Nat) (operation : Operation) (a : Except TransportError ExecutionResult) :
    Transition c (c.storeShared now operation a).2
  | startWatch (w : Watch) (now : Nat) : Transition c (w.start now c).2
  | loadedWatch (w : Watch) (now : Nat) (result : FetchResult) :
    Transition c (w.loaded now result c).2
  | refreshWatch (w : Watch) (now : Nat) : Transition c (w.refresh now c).2.2
  | refuseWatch (w : Watch) (cause : TransportError) : Transition c (w.refused cause c).2
  | finishWatch (w : Watch) : Transition c (w.finish c).2

/-! ### What runs and watches leave alone -/

/-- Requests, fetches and schedule are the same. -/
structure Apart (c d : Client) : Prop where
  requests : d.requests = c.requests
  inFlight : d.inFlight = c.inFlight
  fetches : d.fetches = c.fetches
  schedule : d.schedule = c.schedule

theorem Apart.refl (c : Client) : Apart c c := ⟨rfl, rfl, rfl, rfl⟩

theorem Apart.trans (h : Apart c d) (h' : Apart d e) : Apart c e :=
  ⟨h'.requests.trans h.requests, h'.inFlight.trans h.inFlight, h'.fetches.trans h.fetches,
    h'.schedule.trans h.schedule⟩

/-- Selections are added to the schedule, and nothing else becomes of requests and fetches. -/
inductive Enlists (c : Client) : Client → Prop
  | apart {d : Client} (apart : Apart c d) : Enlists c d
  | enlist {d : Client} (apart : Apart c d) (selections : List Selection) (key : BatchKey) :
    Enlists c (d.enlist selections key).2

theorem Enlists.after (h : Enlists d e) (h' : Apart c d) : Enlists c e := by
  cases h with
  | apart h => exact .apart (h'.trans h)
  | enlist h selections key => exact .enlist (h'.trans h) selections key

theorem apart_perform {α : Type} (now : Nat) (context : Context) (action : Attempt α) :
    Apart c (c.perform now context action).2.2 := ⟨rfl, rfl, rfl, rfl⟩

theorem apart_performAlone {α : Type} (now call : Nat) (context : Context) (action : Attempt α) :
    Apart c (c.performAlone now call context action).2.2 := ⟨rfl, rfl, rfl, rfl⟩

theorem apart_conclude (now : Nat) (call : Call) (result : FetchResult) :
    Apart c (c.conclude now call result).2 := by
  cases result with
  | error e => exact .refl c
  | ok =>
      rw [conclude]
      cases call.awaited with
      | own => exact apart_performAlone now call.id _ call.closure
      | ticket => exact apart_perform now _ call.closure

theorem apart_storeShared (now : Nat) (operation : Operation)
    (a : Except TransportError ExecutionResult) : Apart c (c.storeShared now operation a).2 := by
  rw [storeShared]
  split <;> exact ⟨rfl, rfl, rfl, rfl⟩

theorem apart_storeAlone (now call : Nat) (operation : Operation)
    (a : Except TransportError ExecutionResult) :
    Apart c (c.storeAlone now call operation a).2 := by
  rw [storeAlone]
  split <;> exact ⟨rfl, rfl, rfl, rfl⟩

namespace Watch

variable {w : Watch}

theorem apart_finish (w : Watch) : Apart c (w.finish c).2 := by
  rw [finish]
  cases w.subscription <;> exact ⟨rfl, rfl, rfl, rfl⟩

theorem apart_refused (w : Watch) (cause : TransportError) : Apart c (w.refused cause c).2 :=
  apart_finish _

theorem apart_follow (w : Watch) : Apart c (w.follow c).2 := ⟨rfl, rfl, rfl, rfl⟩

theorem apart_connect (w : Watch) (first : Item) : Apart c (w.connect first c).2 := by
  rw [connect]
  have hfollow := apart_follow (c := c) w
  generalize w.follow c = followed at hfollow ⊢
  obtain ⟨w, d⟩ := followed
  simp only
  split
  · exact hfollow
  · split
    · exact hfollow.trans (apart_finish _)
    · split
      · exact ⟨hfollow.requests, hfollow.inFlight, hfollow.fetches, hfollow.schedule⟩
      · refine Apart.trans ?_ (apart_finish _)
        exact ⟨hfollow.requests, hfollow.inFlight, hfollow.fetches, hfollow.schedule⟩

theorem apart_run (w : Watch) (now : Nat) : Apart c (w.run now c).2.2 :=
  apart_perform now w.context w.closure

theorem enlists_start (w : Watch) (now : Nat) : Enlists c (w.start now c).2 := by
  rw [start]
  have hrun := apart_run (c := c) w now
  generalize w.run now c = run at hrun ⊢
  obtain ⟨first, w, d⟩ := run
  simp only
  split
  · exact .apart (hrun.trans (apart_connect w first))
  · split
    · exact .enlist hrun _ _
    · exact .apart (hrun.trans (apart_connect w first))

theorem apart_loaded (w : Watch) (now : Nat) (result : FetchResult) :
    Apart c (w.loaded now result c).2 := by
  have hrerun : ∀ w : Watch,
      Apart c ((w.rerun now c).2.1.connect (w.rerun now c).1 (w.rerun now c).2.2).2 := by
    intro w
    have hrun : Apart c (w.rerun now c).2.2 := apart_run _ now
    generalize w.rerun now c = run at hrun ⊢
    obtain ⟨first, w, d⟩ := run
    exact hrun.trans (apart_connect w first)
  exact hrerun _

theorem enlists_refresh (w : Watch) (now : Nat) : Enlists c (w.refresh now c).2.2 := by
  rw [refresh]
  have hrun : Apart c ({ w with dirty := false }.rerun now c).2.2 := apart_run _ now
  generalize { w with dirty := false }.rerun now c = run at hrun ⊢
  obtain ⟨item, w, d⟩ := run
  have hfollow : Apart c (if rootFields w.context.selections = w.watched then (w, d)
      else w.follow d).2 := by
    split
    · exact hrun
    · exact hrun.trans (apart_follow w)
  simp only
  generalize (if rootFields w.context.selections = w.watched then (w, d) else w.follow d) =
    followed at hfollow ⊢
  obtain ⟨w, d⟩ := followed
  simp only
  split
  · exact .enlist hfollow _ _
  · exact .apart hfollow

end Watch

/-- What a call has its first run for: nothing, selections that are asked for in a group, or a
fetch of its own. -/
inductive Opens (c : Client) (id : Nat) : Client → Prop
  | enlists {d : Client} (enlists : Enlists c d) : Opens c id d
  | own {d : Client} (apart : Apart c d) (selections : List Selection) (key : BatchKey) :
    Opens c id (d.startFetch (.call id) selections key).2

theorem Opens.after {id : Nat} (h : Opens d id e) (h' : Apart c d) : Opens c id e := by
  cases h with
  | enlists h => exact .enlists (h.after h')
  | own h selections key => exact .own (h'.trans h) selections key

theorem apart_performFor {α : Type} (now id : Nat) (policy : FetchPolicy) (context : Context)
    (action : Attempt α) : Apart c (c.performFor now id policy context action).2.2 := by
  cases policy with
  | noStore => exact apart_performAlone now id context action
  | _ => exact apart_perform now context action

theorem opens_openCall (call : Call) (policy : FetchPolicy) (key : BatchKey) :
    Opens c call.id (c.openCall call policy key).2 := by
  cases policy with
  | noStore =>
      have hown : Opens c call.id _ := .own (.refl c) call.context.selections key
      rw [openCall]
      generalize c.startFetch (.call call.id) call.context.selections key = started at hown ⊢
      obtain ⟨result, d⟩ := started
      cases result <;> exact hown
  | _ => exact .enlists (.enlist (.refl c) call.context.selections key)

theorem opens_resolve (now id : Nat) (closure : Closure) (policy : FetchPolicy) (key : BatchKey) :
    Opens c id (c.resolve now id closure policy key).2 := by
  rw [resolve]
  have hrun := apart_performFor (c := c) now id policy c.context closure
  generalize c.performFor now id policy c.context closure = run at hrun ⊢
  obtain ⟨result, context, d⟩ := run
  cases result with
  | error e => exact .enlists (.apart hrun)
  | ok value =>
      simp only
      split
      · exact .enlists (.apart hrun)
      · split
        · exact (opens_openCall { id, closure, context, awaited := .own } policy key).after hrun
        · split
          · exact .enlists (.enlist hrun _ _)
          · exact .enlists (.apart hrun)

/-! ### Windows whose selections are in order -/

/-- The first window closes, if its selections are in order and compile. -/
def closeSorted (c : Client) : Client :=
  match c.schedule.windows with
  | [] => c
  | w :: _ =>
    match Document.ofArranged w.selections w.key.operationName with
    | .ok documents =>
      c.askFor w documents (c.builder.afterBuild w.selections w.key.operationName documents)
    | .error _ => c

/-- Whether the first window can close without a sort, and was not compiled before. -/
def canCloseSorted (c : Client) : Bool :=
  match c.schedule.windows with
  | [] => false
  | w :: _ =>
    decide (w.selections.Pairwise (·.signature < ·.signature)) &&
    (Recency.peek? c.builder.memo
      (w.key.operationName.getD "", w.selections.map (·.id))).isNone &&
    (Document.ofArranged w.selections w.key.operationName).toOption.isSome

theorem dispatch_eq_closeSorted (h : c.canCloseSorted = true) :
    ∃ w ∈ c.schedule.windows, c.schedule.windows.head? = some w ∧
      c.dispatch w.group = c.closeSorted := by
  rw [canCloseSorted] at h
  split at h
  · cases h
  · rename_i w rest hw
    simp only [Bool.and_eq_true, decide_eq_true_eq, Option.isNone_iff_eq_none] at h
    obtain ⟨⟨hsorted, hnew⟩, hcompiled⟩ := h
    cases hdocuments : Document.ofArranged w.selections w.key.operationName with
    | error e =>
        rw [hdocuments] at hcompiled
        cases hcompiled
    | ok documents =>
        have hbuild := c.builder.build_of_sorted hsorted hnew hdocuments
        have hfound : c.schedule.windows.find? (·.group = w.group) = some w := by
          rw [hw]
          exact List.find?_cons_of_pos (decide_eq_true rfl)
        refine ⟨w, hw ▸ List.mem_cons_self, by rw [hw]; rfl, ?_⟩
        rw [dispatch_eq_askFor hfound hbuild]
        simp only [closeSorted, hw, hdocuments]

/-- The first window closes, also when it is evaluated without a sort. -/
theorem Transition.closeSorted (h : c.canCloseSorted = true) : Transition c c.closeSorted := by
  obtain ⟨w, hw, _, he⟩ := dispatch_eq_closeSorted h
  rw [← he]
  exact .dispatch hw

/-! ### Runs as data -/

/-- A transition that is told by name. -/
inductive Move
  | enlist (selections : List Selection) (key : BatchKey)
  /-- The first window closes, whose selections have to be in order. -/
  | close
  | poll (now : Nat) (id : FetchId)
  | answer (request : Nat) (a : Except TransportError ExecutionResult)

def Move.after? (c : Client) : Move → Option Client
  | .enlist selections key => some (c.enlist selections key).2
  | .close => if c.canCloseSorted then some c.closeSorted else none
  | .poll now id => some (c.pollFetch now id).2
  | .answer request a => some (c.answer request a)

theorem Move.transition {m : Move} (h : m.after? c = some d) : Transition c d := by
  cases m with
  | enlist selections key =>
      obtain rfl := Option.some.inj h
      exact .enlist selections key
  | close =>
      rw [Move.after?] at h
      split at h
      · rename_i hc
        obtain rfl := Option.some.inj h
        exact .closeSorted hc
      · cases h
  | poll now id =>
      obtain rfl := Option.some.inj h
      exact .poll now id
  | answer request a =>
      obtain rfl := Option.some.inj h
      exact .answer request a

end LazyGraph.Client
