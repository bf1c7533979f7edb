import LazyGraph.Proofs.Client.Sharing

/-!
Calls that keep their data to themselves. Such a call has a cache of its own, and requests of its
own that nobody may join. From its first run to its second one, whatever its closure does and
whatever comes of its requests, it leaves the shared cache with its subscribers alone, and the
schedule, and the requests in flight.
-/
namespace LazyGraph.Client

variable {c d e : Client}

/-! ### What calls share -/

/-- What the calls of a client have in common. -/
structure Shared where
  cache : Cache
  notices : List Cache.Notice
  schedule : Schedule
  inFlight : List (ContentKey × Nat)

def shared (c : Client) : Shared where
  cache := c.cache
  notices := c.notices
  schedule := c.schedule
  inFlight := c.inFlight

/-! ### Requests of calls and groups -/

/-- The request is that of a call on its own. -/
def Asks (c : Client) (call job : Nat) : Prop :=
  ∃ r ∈ c.requests, r.id = job ∧ r.origin = .call call

/-- The request is that of some group. -/
def GroupAsks (c : Client) (job : Nat) : Prop :=
  ∃ r ∈ c.requests, r.id = job ∧ ∃ group, r.origin = .group group

/-- Calls on their own wait for requests of their own, and only requests of groups can be joined. -/
structure Secluded (c : Client) : Prop where
  ids : (c.requests.map (·.id)).Nodup
  jobs : ∀ f ∈ c.fetches, ∀ n, f.id = .call n → ∀ job ∈ f.jobs, c.Asks n job
  entries : ∀ q ∈ c.inFlight, c.GroupAsks q.2

namespace Secluded

theorem origin (h : c.Secluded) {call job : Nat} {r : Request} (hr : c.request? job = some r)
    (ha : c.Asks call job) : r.origin = .call call := by
  obtain ⟨s, hs, rfl, horigin⟩ := ha
  rw [request?_of_mem h.ids hs] at hr
  exact Option.some.inj hr ▸ horigin

/-- Nobody can join the request of a call. -/
theorem free (h : c.Secluded) {call job : Nat} (ha : c.Asks call job) :
    ∀ q ∈ c.inFlight, q.2 ≠ job := by
  intro q hq hid
  obtain ⟨r, hr, hrid, horigin⟩ := ha
  obtain ⟨s, hs, hsid, group, hgroup⟩ := h.entries q hq
  obtain rfl := List.inj_on_of_nodup_map h.ids hr hs (hrid.trans (hsid.trans hid).symm)
  rw [horigin] at hgroup
  cases hgroup

end Secluded

/-- What a client keeps of another one: requests stay with those who asked, fetches of calls wait
for their own ones, and only requests of groups become known to others. -/
structure Later (c d : Client) : Prop where
  requests : ∀ r ∈ c.requests, ∃ s ∈ d.requests, s.id = r.id ∧ s.origin = r.origin
  jobs : ∀ g ∈ d.fetches, ∀ n, g.id = .call n → ∀ job ∈ g.jobs,
    d.Asks n job ∨ ∃ f ∈ c.fetches, f.id = g.id ∧ job ∈ f.jobs
  entries : ∀ q ∈ d.inFlight, q ∈ c.inFlight ∨ d.GroupAsks q.2

theorem Asks.later {call job : Nat} (ha : c.Asks call job) (h : Later c d) : d.Asks call job := by
  obtain ⟨r, hr, hid, horigin⟩ := ha
  obtain ⟨s, hs, hsid, hsorigin⟩ := h.requests r hr
  exact ⟨s, hs, hsid.trans hid, hsorigin.trans horigin⟩

theorem GroupAsks.later {job : Nat} (ha : c.GroupAsks job) (h : Later c d) : d.GroupAsks job := by
  obtain ⟨r, hr, hid, group, horigin⟩ := ha
  obtain ⟨s, hs, hsid, hsorigin⟩ := h.requests r hr
  exact ⟨s, hs, hsid.trans hid, group, hsorigin.trans horigin⟩

namespace Later

theorem trans (h : Later c d) (h' : Later d e) : Later c e where
  requests r hr := by
    obtain ⟨s, hs, hid, horigin⟩ := h.requests r hr
    obtain ⟨t, ht, htid, htorigin⟩ := h'.requests s hs
    exact ⟨t, ht, htid.trans hid, htorigin.trans horigin⟩
  jobs g hg n hn job hj := by
    rcases h'.jobs g hg n hn job hj with ha | ⟨f, hf, hid, hj⟩
    · exact .inl ha
    · rcases h.jobs f hf n (hid.trans hn) job hj with ha | ⟨f', hf', hid', hj⟩
      · exact .inl (ha.later h')
      · exact .inr ⟨f', hf', hid'.trans hid, hj⟩
  entries q hq := by
    rcases h'.entries q hq with hq | ha
    · exact (h.entries q hq).imp_right (·.later h')
    · exact .inr ha

/-- Requests are added, fetches end and entries go. -/
theorem of_subset (hr : c.requests ⊆ d.requests) (hf : d.fetches ⊆ c.fetches)
    (hi : d.inFlight ⊆ c.inFlight) : Later c d where
  requests r h := ⟨r, hr h, rfl, rfl⟩
  jobs g hg _ _ _ hj := .inr ⟨g, hf hg, rfl, hj⟩
  entries _ hq := .inl (hi hq)

theorem of_eq (hr : d.requests = c.requests) (hf : d.fetches = c.fetches)
    (hi : d.inFlight = c.inFlight) : Later c d :=
  .of_subset (hr ▸ List.Subset.refl _) (hf ▸ List.Subset.refl _) (hi ▸ List.Subset.refl _)

theorem secluded (h : Later c d) (hc : c.Secluded) (hids : (d.requests.map (·.id)).Nodup) :
    d.Secluded where
  ids := hids
  jobs g hg n hn job hj := by
    rcases h.jobs g hg n hn job hj with ha | ⟨f, hf, hid, hj⟩
    · exact ha
    · exact (hc.jobs f hf n (hid.trans hn) job hj).later h
  entries q hq := by
    rcases h.entries q hq with hq | ha
    · exact (hc.entries q hq).later h
    · exact ha

end Later

theorem Apart.later (h : Apart c d) : Later c d := .of_eq h.requests h.fetches h.inFlight

theorem later_setPhase (c : Client) (id : Nat) (phase : Phase) :
    Later c (c.setPhase id phase) where
  requests r hr := by
    refine ⟨_, List.mem_map_of_mem hr, ?_⟩
    split <;> exact ⟨rfl, rfl⟩
  jobs g hg _ _ _ hj := .inr ⟨g, hg, rfl, hj⟩
  entries _ hq := .inl hq

/-- What is done for a fetch. If it is that of a call, what calls share stays as it is. -/
structure Serves (c : Client) (id : FetchId) (d : Client) : Prop where
  later : Later c d
  shared : ∀ n, id = .call n → d.shared = c.shared

namespace Serves

variable {id : FetchId}

theorem refl (c : Client) (id : FetchId) : Serves c id c :=
  ⟨.of_eq rfl rfl rfl, fun _ _ => rfl⟩

theorem trans (h : Serves c id d) (h' : Serves d id e) : Serves c id e :=
  ⟨h.later.trans h'.later, fun n hn => (h'.shared n hn).trans (h.shared n hn)⟩

end Serves

/-! ### Asking -/

/-- Requests are asked for. Those of a call are its own. -/
structure Adds (c : Client) (origin : FetchId) (jobs : List Nat) (d : Client) : Prop
    extends Serves c origin d where
  own : ∀ n, origin = .call n → ∀ job ∈ jobs, d.Asks n job

theorem adds_requestFor (c : Client) (origin : FetchId) (document : Document)
    (extensions : Option (Fields Json)) :
    Adds c origin [(c.requestFor origin document extensions).1]
      (c.requestFor origin document extensions).2 := by
  let r : Request := { id := c.requests.length + 1, document, extensions, origin }
  have hr : r ∈ (c.newRequest origin document extensions).2.requests :=
    List.mem_append_right _ List.mem_cons_self
  have hnew : Later c (c.newRequest origin document extensions).2 :=
    .of_subset (List.subset_append_left _ _) (List.Subset.refl _) (List.Subset.refl _)
  cases origin with
  | call n =>
      refine ⟨⟨hnew, fun _ _ => rfl⟩, fun m hm => ?_⟩
      exact List.forall_mem_singleton.mpr ⟨r, hr, rfl, hm⟩
  | group n =>
      refine ⟨⟨?_, fun m hm => by cases hm⟩, fun m hm => by cases hm⟩
      rw [requestFor]
      split
      · exact .of_eq rfl rfl rfl
      · refine ⟨hnew.requests, hnew.jobs, fun q hq => ?_⟩
        rcases List.mem_append.mp hq with hq | hq
        · exact .inl hq
        · exact .inr ⟨r, hr, (congrArg Prod.snd (List.mem_singleton.mp hq)).symm, n, rfl⟩

theorem adds_requestAll (c : Client) (origin : FetchId) (extensions : Option (Fields Json))
    (documents : List Document) :
    Adds c origin (c.requestAll origin extensions documents).1
      (c.requestAll origin extensions documents).2 := by
  induction documents generalizing c with
  | nil => exact ⟨.refl c origin, fun _ _ _ h => absurd h List.not_mem_nil⟩
  | cons document rest ih =>
      have hfirst := adds_requestFor c origin document extensions
      have hrest := ih (c.requestFor origin document extensions).2
      refine ⟨hfirst.toServes.trans hrest.toServes, fun n hn => ?_⟩
      refine List.forall_mem_cons.mpr ⟨?_, hrest.own n hn⟩
      exact (hfirst.own n hn _ List.mem_cons_self).later hrest.later

theorem serves_startFetch (c : Client) (id : FetchId) (selections : List Selection)
    (key : BatchKey) : Serves c id (c.startFetch id selections key).2 := by
  rw [startFetch]
  split
  · exact ⟨.of_eq rfl rfl rfl, fun _ _ => rfl⟩
  · rename_i documents builder _
    have hadds := adds_requestAll { c with builder } id key.extensions documents
    refine ⟨⟨hadds.later.requests, fun g hg n hn job hj => ?_, hadds.later.entries⟩, hadds.shared⟩
    rcases List.mem_append.mp hg with hg | hg
    · exact hadds.later.jobs g hg n hn job hj
    · rw [List.mem_singleton.mp hg] at hn hj
      exact .inl (hadds.own n hn job hj)

/-! ### Fetching -/

theorem mem_of_fetch? {id : FetchId} {f : Fetch} (hf : c.fetch? id = some f) :
    f ∈ c.fetches ∧ f.id = id := by
  have hid := List.find?_some hf
  exact ⟨List.mem_of_find?_eq_some hf, of_decide_eq_true hid⟩

theorem later_endFetch (c : Client) (id : FetchId) (result : FetchResult) :
    Later c (c.endFetch id result) := by
  have hwithout : Later c (c.without id) :=
    .of_subset (List.Subset.refl _) (fun _ hf => List.mem_of_mem_filter hf)
      (fun _ hq => List.mem_of_mem_filter hq)
  rw [endFetch_eq]
  cases id with
  | group n => exact ⟨hwithout.requests, hwithout.jobs, hwithout.entries⟩
  | call n => exact hwithout

theorem serves_endFetch (h : c.Secluded) (id : FetchId) (result : FetchResult) :
    Serves c id (c.endFetch id result) := by
  refine ⟨later_endFetch c id result, ?_⟩
  rintro n rfl
  have hown : ∀ job ∈ c.jobsOf (.call n), c.Asks n job := by
    intro job hjob
    rw [jobsOf] at hjob
    split at hjob
    · rename_i f hf
      obtain ⟨hmem, hid⟩ := mem_of_fetch? hf
      exact h.jobs f hmem n hid job hjob
    · cases hjob
  have hinFlight : (c.without (.call n)).inFlight = c.inFlight := by
    refine List.filter_eq_self.mpr fun q hq => ?_
    rw [Bool.not_eq_true', Bool.eq_false_iff]
    intro hcontains
    exact h.free (hown q.2 (List.contains_iff_mem.mp hcontains)) q hq rfl
  rw [endFetch_eq, shared, hinFlight]
  rfl

theorem later_deliver (c : Client) (now : Nat) (r : Request)
    (a : Except TransportError ExecutionResult) : Later c (c.deliver now r a) := by
  rw [deliver]
  cases r.origin with
  | group n => exact (apart_storeShared now r.operation a).later.trans (later_setPhase _ _ _)
  | call n => exact (apart_storeAlone now n r.operation a).later.trans (later_setPhase _ _ _)

/-- What a call asked for is stored in its own cache. -/
theorem shared_deliver (now : Nat) {r : Request} {n : Nat} (hr : r.origin = .call n)
    (a : Except TransportError ExecutionResult) : (c.deliver now r a).shared = c.shared := by
  rw [deliver, hr]
  simp only [storeAlone]
  split <;> rfl

/-- A fetch is done with one of its requests. -/
theorem serves_dropJob (h : c.Secluded) {id : FetchId} {job : Nat} {jobs : List Nat}
    (hown : ∀ n, id = .call n → c.Asks n job ∧ ∀ x ∈ jobs, c.Asks n x) :
    Serves c id ((c.release job).setJobs id jobs) := by
  refine ⟨⟨fun r hr => ⟨r, hr, rfl, rfl⟩, fun g hg n hn x hx => ?_,
    fun q hq => .inl (List.mem_of_mem_filter hq)⟩, fun n hn => ?_⟩
  · obtain ⟨f, hf, rfl⟩ := List.mem_map.mp hg
    by_cases hid : f.id = id
    · rw [if_pos hid] at hn hx
      exact .inl ((hown n (hid.symm.trans hn)).2 x hx)
    · rw [if_neg hid] at hx ⊢
      exact .inr ⟨f, hf, rfl, hx⟩
  · have hinFlight : ((c.release job).setJobs id jobs).inFlight = c.inFlight :=
      List.filter_eq_self.mpr fun q hq => decide_eq_true (h.free (hown n hn).1 q hq)
    rw [shared, hinFlight]
    rfl

/-- A fetch looks at its requests. That of a call finds its own ones alone. -/
theorem serves_pollJobs (h : c.Secluded) (now : Nat) (id : FetchId) {waiting jobs : List Nat}
    (hown : ∀ n, id = .call n → ∀ job ∈ waiting ++ jobs, c.Asks n job) :
    Serves c id (c.pollJobs now id waiting jobs).2 := by
  induction jobs generalizing c waiting with
  | nil =>
      rw [pollJobs]
      split
      · exact serves_endFetch h id _
      · exact .refl c id
  | cons job jobs ih =>
      have hjob : ∀ n, id = .call n → c.Asks n job :=
        fun n hn => hown n hn job (List.mem_append_right _ List.mem_cons_self)
      have hrest : ∀ n, id = .call n → ∀ x ∈ waiting ++ jobs, c.Asks n x := by
        intro n hn x hx
        refine hown n hn x ?_
        exact (List.mem_append.mp hx).elim (List.mem_append_left _)
          fun hx => List.mem_append_right _ (List.mem_cons_of_mem _ hx)
      rw [pollJobs]
      split
      · exact ih h hrest
      · rename_i r hr
        split
        · exact ⟨later_setPhase c r.id .sent, fun _ _ => rfl⟩
        · refine ih h fun n hn x hx => hown n hn x ?_
          rwa [List.append_assoc, List.singleton_append] at hx
        · rename_i a _
          refine ⟨later_deliver c now r a, fun n hn => ?_⟩
          exact shared_deliver now (h.origin hr (hjob n hn)) a
        · have hdrop := serves_dropJob h fun n hn => ⟨hjob n hn, hrest n hn⟩
          have hnext := hdrop.later.secluded h h.ids
          exact hdrop.trans (ih hnext fun n hn x hx => (hrest n hn x hx).later hdrop.later)
        · exact serves_endFetch h id _

theorem serves_pollFetch (h : c.Secluded) (now : Nat) (id : FetchId) :
    Serves c id (c.pollFetch now id).2 := by
  rw [pollFetch]
  split
  · rename_i f hf
    obtain ⟨hmem, hid⟩ := mem_of_fetch? hf
    exact serves_pollJobs h now id fun n hn job hj => h.jobs f hmem n (hid.trans hn) job hj
  · exact .refl c id

/-! ### Runs -/

theorem later_dispatch (c : Client) (group : Nat) : Later c (c.dispatch group) := by
  have hfetch : ∀ {schedule selections key result d},
      startFetch { c with schedule } (.group group) selections key = (result, d) → Later c d := by
    intro schedule selections key result d he
    have hclosed : Later c { c with schedule } := .of_eq rfl rfl rfl
    have hstarted := serves_startFetch { c with schedule } (.group group) selections key
    rw [he] at hstarted
    exact hclosed.trans hstarted.later
  rw [dispatch]
  split
  split
  split
  · rename_i d he
    exact hfetch he
  · rename_i e d he
    exact (hfetch he).trans (later_endFetch d _ _)

theorem later_enlists (h : Enlists c d) : Later c d := by
  cases h with
  | apart h => exact h.later
  | enlist h selections key => exact h.later.trans (.of_eq rfl rfl rfl)

theorem later_opens {id : Nat} (h : Opens c id d) : Later c d := by
  cases h with
  | enlists h => exact later_enlists h
  | own h selections key => exact h.later.trans (serves_startFetch _ _ selections key).later

theorem later_transition (h : c.Secluded) (ht : Transition c d) : Later c d := by
  cases ht with
  | resolve now id closure policy key => exact later_opens (opens_resolve now id closure policy key)
  | conclude now call result => exact (apart_conclude now call result).later
  | enlist selections key => exact later_enlists (.enlist (.refl c) selections key)
  | dispatch => exact later_dispatch c _
  | poll now id => exact (serves_pollFetch h now id).later
  | answer request a =>
      rw [answer]
      split
      · exact later_setPhase c request _
      · exact .of_eq rfl rfl rfl
  | giveUp running cause => exact later_endFetch c _ _
  | perform now context action => exact (apart_perform now context action).later
  | useCache cache => exact Apart.later ⟨rfl, rfl, rfl, rfl⟩
  | feed now operation a => exact (apart_storeShared now operation a).later
  | startWatch w now => exact later_enlists (w.enlists_start now)
  | loadedWatch w now result => exact (w.apart_loaded now result).later
  | refreshWatch w now => exact later_enlists (w.enlists_refresh now)
  | refuseWatch w cause => exact (w.apart_refused cause).later
  | finishWatch w => exact w.apart_finish.later

/-- What can happen to a client next: a transition, or some of its notices are passed on. -/
inductive Change (c : Client) : Client → Prop
  | transition {d : Client} (transition : Transition c d) : Change c d
  | passOn (left : List Cache.Notice) : Change c { c with notices := left }

/-- The states of clients. -/
inductive Reached : Client → Prop
  | new (schema : Schema) (hasSubscriber : Bool) (options : Options) :
    Reached (.new schema hasSubscriber options)
  | step {c d : Client} (reached : Reached c) (change : Change c d) : Reached d

theorem secluded_new (schema : Schema) (hasSubscriber : Bool) (options : Options) :
    Secluded (.new schema hasSubscriber options) where
  ids := List.nodup_nil
  jobs _ hf := absurd hf List.not_mem_nil
  entries _ hq := absurd hq List.not_mem_nil

theorem Reached.secluded (h : Reached c) : c.Secluded := by
  suffices hboth : (∃ lost, c.Sharing lost) ∧ c.Secluded from hboth.2
  induction h with
  | new schema hasSubscriber options => exact ⟨⟨[], .new _ _ _⟩, secluded_new _ _ _⟩
  | @step c d _ change ih =>
      obtain ⟨⟨lost, hsharing⟩, hsecluded⟩ := ih
      cases change with
      | transition ht =>
          have hnext := hsharing.transition ht
          exact ⟨⟨_, hnext⟩, (later_transition hsecluded ht).secluded hsecluded hnext.ids⟩
      | passOn left =>
          have hapart : Apart c { c with notices := left } := ⟨rfl, rfl, rfl, rfl⟩
          exact ⟨⟨lost, hsharing.apart hapart⟩, hapart.later.secluded hsecluded hsecluded.ids⟩

/-! ### Calls on their own -/

/-- The first run of a call on its own leaves alone what calls share, and the call waits for
nothing but a fetch of its own. -/
theorem resolve_alone (c : Client) (now id : Nat) (closure : Closure) (key : BatchKey) :
    (c.resolve now id closure .noStore key).2.shared = c.shared ∧
      ∀ call, (c.resolve now id closure .noStore key).1 = .waits call → call.awaited = .own := by
  have hrun : (c.performFor now id .noStore c.context closure).2.2.shared = c.shared := rfl
  rw [resolve]
  generalize c.performFor now id .noStore c.context closure = run at hrun ⊢
  obtain ⟨result, context, d⟩ := run
  cases result with
  | error e => exact ⟨hrun, fun _ he => by cases he⟩
  | ok value =>
      simp only
      split
      · exact ⟨hrun, fun _ he => by cases he⟩
      · split
        · have hstarted := (serves_startFetch d (.call id) context.selections key).shared id rfl
          rw [openCall]
          simp only
          generalize d.startFetch (.call id) context.selections key = started at hstarted ⊢
          obtain ⟨result, e⟩ := started
          cases result with
          | error cause => exact ⟨hstarted.trans hrun, fun _ he => by cases he⟩
          | ok => exact ⟨hstarted.trans hrun, fun _ he => by cases he; rfl⟩
        · exact ⟨hrun, fun _ he => by cases he⟩

theorem conclude_alone (c : Client) (now : Nat) {call : Call} (h : call.awaited = .own)
    (result : FetchResult) : (c.conclude now call result).2.shared = c.shared := by
  cases result with
  | error e => rfl
  | ok =>
      rw [conclude, h]
      rfl

theorem shared_answer (c : Client) (request : Nat) (a : Except TransportError ExecutionResult) :
    (c.answer request a).shared = c.shared := by
  rw [answer]
  split <;> rfl

/-- What happens from the first run of a call that keeps its data to itself to the end of its
second one, if it comes to that. The list has what others do to the client in between, each time
with the client before and after it. -/
inductive AloneRun (c : Client) (id : Nat) (closure : Closure) (key : BatchKey) :
    List (Client × Client) → Opening → Client → Prop
  | resolve (now : Nat) (fresh : ∀ f ∈ c.fetches, f.id ≠ .call id) :
    AloneRun c id closure key [] (c.resolve now id closure .noStore key).1
      (c.resolve now id closure .noStore key).2
  /-- The fetch of the call is moved on. -/
  | poll {others : List (Client × Client)} {opening : Opening} {d : Client}
    (run : AloneRun c id closure key others opening d) (now : Nat) :
    AloneRun c id closure key others opening (d.pollFetch now (.call id)).2
  /-- The answer to a request comes. -/
  | answer {others : List (Client × Client)} {opening : Opening} {d : Client}
    (run : AloneRun c id closure key others opening d) (request : Nat)
    (a : Except TransportError ExecutionResult) :
    AloneRun c id closure key others opening (d.answer request a)
  /-- The call is dropped with its fetch. -/
  | giveUp {others : List (Client × Client)} {opening : Opening} {d : Client} {f : Fetch}
    (run : AloneRun c id closure key others opening d) (running : f ∈ d.fetches)
    (own : f.id = .call id) (cause : TransportError) :
    AloneRun c id closure key others opening (d.endFetch f.id (.error cause))
  | conclude {others : List (Client × Client)} {call : Call} {d : Client}
    (run : AloneRun c id closure key others (.waits call) d) (now : Nat) (result : FetchResult) :
    AloneRun c id closure key others (.ended (d.conclude now call result).1)
      (d.conclude now call result).2
  /-- Something happens that is not the doing of the call. -/
  | other {others : List (Client × Client)} {opening : Opening} {d e : Client}
    (run : AloneRun c id closure key others opening d) (change : Change d e) :
    AloneRun c id closure key (others ++ [(d, e)]) opening e

/-- What is shared changes from one state to another in some steps alone: the first of them finds
it as it was, each one finds it as the one before has left it, and so does the other state. -/
def Linked : Shared → List (Client × Client) → Shared → Prop
  | p, [], q => q = p
  | p, (c, d) :: rest, q => c.shared = p ∧ Linked d.shared rest q

theorem Linked.concat {p : Shared} {steps : List (Client × Client)} (h : Linked p steps c.shared)
    (d : Client) : Linked p (steps ++ [(c, d)]) d.shared := by
  induction steps generalizing p with
  | nil => exact ⟨h, rfl⟩
  | cons step rest ih => exact ⟨h.1, ih h.2⟩

namespace AloneRun

variable {id : Nat} {closure : Closure} {key : BatchKey} {others : List (Client × Client)}
  {opening : Opening}

theorem reached (h : AloneRun c id closure key others opening d) (hc : Reached c) :
    Reached d := by
  induction h with
  | resolve now fresh => exact hc.step (.transition (.resolve now id closure .noStore key fresh))
  | poll _ now ih => exact ih.step (.transition (.poll now (.call id)))
  | answer _ request a ih => exact ih.step (.transition (.answer request a))
  | giveUp _ running _ cause ih => exact ih.step (.transition (.giveUp running cause))
  | conclude _ now result ih => exact ih.step (.transition (.conclude now _ result))
  | other _ change ih => exact ih.step change

/-- What the call waits for is a fetch of its own, all the time. -/
theorem awaited_own (h : AloneRun c id closure key others opening d) {call : Call}
    (hcall : opening = .waits call) : call.awaited = .own := by
  induction h with
  | resolve now fresh => exact (resolve_alone c now id closure key).2 call hcall
  | conclude => cases hcall
  | poll _ _ ih | answer _ _ _ ih | giveUp _ _ _ _ ih | other _ _ ih => exact ih hcall

end AloneRun

/-- A call that keeps its data to itself leaves alone what calls share, the cache with its
placeholders, metrics and subscribers, the notices, the schedule and the requests in flight. This
holds whatever its closure does and whatever comes of its requests. -/
theorem shared_untouched (hc : Reached c) {id : Nat} {closure : Closure} {key : BatchKey}
    {others : List (Client × Client)} {opening : Opening}
    (h : AloneRun c id closure key others opening d) : Linked c.shared others d.shared := by
  induction h with
  | resolve now fresh => exact (resolve_alone c now id closure key).1
  | poll run now ih =>
      rw [(serves_pollFetch (run.reached hc).secluded now (.call id)).shared id rfl]
      exact ih
  | answer run request a ih =>
      rw [shared_answer]
      exact ih
  | giveUp run running own cause ih =>
      rw [own, (serves_endFetch (run.reached hc).secluded _ _).shared id rfl]
      exact ih
  | conclude run now result ih =>
      rw [conclude_alone _ now (run.awaited_own rfl)]
      exact ih
  | @other others opening d e run change ih => exact ih.concat e

/-! ### A call for a secret -/

/-- A fetch of selections that are in order and were not compiled before, without a sort. -/
def startSorted (c : Client) (id : FetchId) (selections : List Selection) (key : BatchKey) :
    Option Client :=
  if selections.Pairwise (·.signature < ·.signature) ∧
      Recency.peek? c.builder.memo (key.operationName.getD "", selections.map (·.id)) = none then
    match Document.ofArranged selections key.operationName with
    | .error _ => none
    | .ok documents =>
      let builder := c.builder.afterBuild selections key.operationName documents
      let (jobs, d) := { c with builder }.requestAll id key.extensions documents
      some { d with fetches := d.fetches ++ [({ id, jobs } : Fetch)] }
  else none

theorem startFetch_of_startSorted {id : FetchId} {selections : List Selection} {key : BatchKey}
    (h : c.startSorted id selections key = some d) :
    c.startFetch id selections key = (.ok (), d) := by
  rw [startSorted] at h
  split at h
  · rename_i hs
    split at h
    · cases h
    · rename_i documents hdocuments
      obtain rfl := Option.some.inj h
      rw [startFetch, c.builder.build_of_sorted hs.1 hs.2 hdocuments]
  · cases h

namespace Vault

/-- A client for one field. -/
def vault : Client :=
  new { types := [("query", [("secret", { type := "String" })])] } false {}

def closure : Closure := trailClosure [["secret"]]

def look : Except ValidationError Json × Context × Client :=
  vault.performAlone 0 1 vault.context closure

def call : Call := { id := 1, closure, context := look.2.1, awaited := .own }

def asking : Client := (look.2.2.startSorted (.call 1) look.2.1.selections {}).getD vault

theorem resolve_vault : vault.resolve 0 1 closure .noStore {} = (.waits call, asking) := by
  have hread : look.1.toOption.isSome = true := by decide +kernel
  obtain ⟨value, hvalue⟩ : ∃ value, look.1 = .ok value := by
    cases hlook : look.1 with
    | error e =>
        rw [hlook] at hread
        cases hread
    | ok value => exact ⟨value, rfl⟩
  have hran : vault.performFor 0 1 .noStore vault.context closure = (.ok value, look.2) :=
    Prod.ext hvalue rfl
  have hplain : look.2.1.hasSubscriptions = false := by decide +kernel
  have hwants : wantsFetch .noStore look.2.1 = true := by decide +kernel
  have hstarts : (look.2.2.startSorted (.call 1) look.2.1.selections {}).isSome = true := by
    decide +kernel
  obtain ⟨d, hd⟩ := Option.isSome_iff_exists.mp hstarts
  obtain rfl : asking = d := by rw [asking, hd, Option.getD_some]
  have hstarted := startFetch_of_startSorted hd
  rw [resolve, hran]
  simp only [hplain, hwants, openCall, hstarted, Bool.false_and, if_true]
  rfl

/-- Another call asks for a name meanwhile. -/
def joined : Client := (asking.enlist [Split.name 30] {}).2

def reply : ExecutionResult := { data := some (.object [("secret", .string "open sesame")]) }

def stored : Client :=
  let sent := (joined.pollFetch 0 (.call 1)).2
  (((sent.answer 1 (.ok reply)).pollFetch 0 (.call 1)).2.pollFetch 0 (.call 1)).2

/-- Whether a call has ended with the secret alone. -/
def isSecret : Except ClientError Json → Bool
  | .ok (.array [.string s]) => s == "open sesame"
  | _ => false

theorem eq_of_isSecret {r : Except ClientError Json} (h : isSecret r = true) :
    r = .ok (.array [.string "open sesame"]) := by
  unfold isSecret at h
  split at h
  · rw [eq_of_beq h]
  · cases h

/-- The call gets the secret, and what is shared has seen the other call alone. -/
theorem secret_untouched : ∃ d, Reached vault ∧
    AloneRun vault 1 closure {} [(asking, joined)]
      (.ended (.ok (.array [.string "open sesame"]))) d ∧
    asking.shared = vault.shared ∧ d.shared = joined.shared := by
  have hreached : Reached vault := .new _ _ _
  have hasked : AloneRun vault 1 closure {} [] (.waits call) asking := by
    have hrun : AloneRun vault 1 closure {} _ _ _ :=
      .resolve 0 (fun f hf => absurd hf List.not_mem_nil)
    rwa [resolve_vault] at hrun
  have hjoined := hasked.other (.transition (.enlist [Split.name 30] {}))
  have hstored : AloneRun vault 1 closure {} [(asking, joined)] (.waits call) stored :=
    (((hjoined.poll 0).answer 1 (.ok reply)).poll 0).poll 0
  have hended := hstored.conclude 0 (.ok ())
  have hvalue : isSecret (stored.conclude 0 call (.ok ())).1 = true := by decide +kernel
  rw [eq_of_isSecret hvalue] at hended
  exact ⟨_, hreached, hended, shared_untouched hreached hended⟩

end Vault

end LazyGraph.Client
