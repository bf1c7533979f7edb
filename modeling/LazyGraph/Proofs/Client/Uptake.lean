import LazyGraph.Proofs.Client.Sharing

/-!
What the fetch of a group stores: the answers that it takes up one after the other, each of them
as a whole or not at all. A failure ends the fetch and leaves what was stored before.
-/
namespace LazyGraph.Client

/-- No fetch and no request is under way. -/
structure Idle (c : Client) : Prop where
  fetches : c.fetches = []
  inFlight : c.inFlight = []

/-- The fetch of a group from the moment its window closes, with the answers that came, in any
order. Nobody else uses the client meanwhile. -/
inductive FetchRun (c : Client) (group : Nat) :
    List (Nat × Except TransportError ExecutionResult) → Client → Prop
  | dispatch : FetchRun c group [] (c.dispatch group)
  | poll {answers : List (Nat × Except TransportError ExecutionResult)} {d : Client}
    (run : FetchRun c group answers d) (now : Nat) :
    FetchRun c group answers (d.pollFetch now (.group group)).2
  | answer {answers : List (Nat × Except TransportError ExecutionResult)} {d : Client}
    (run : FetchRun c group answers d) (request : Nat)
    (a : Except TransportError ExecutionResult) :
    FetchRun c group (answers ++ [(request, a)]) (d.answer request a)

/-- An answer that was taken up, and when. -/
structure Uptake where
  now : Nat
  request : Nat
  operation : Operation
  answer : Except TransportError ExecutionResult

namespace Uptake

/-- Whether the answer has an object to store. -/
def isStored (u : Uptake) : Bool := (answerPayload u.operation u.answer).toOption.isSome

/-- The cache once the answer was taken up. -/
def store (cache : Cache) (u : Uptake) : Cache :=
  match storeAnswer cache u.now u.operation u.answer with
  | .ok (cache, _) => cache
  | .error _ => cache

variable {u : Uptake} {cache : Cache}

/-- An answer that is stored has an object. -/
theorem payload_eq {operation : Operation} {a : Except TransportError ExecutionResult}
    {payload : Json} (h : answerPayload operation a = .ok payload) :
    ∃ fs, payload = .object [(operation.text, .object fs)] := by
  cases a with
  | error e => cases h
  | ok result =>
      rw [answerPayload] at h
      cases hdata : result.result with
      | error e =>
          simp only [hdata, bind, Except.bind] at h
          cases h
      | ok data =>
          simp only [hdata, bind, Except.bind] at h
          cases data with
          | object fs => exact ⟨fs, (Except.ok.inj h).symm⟩
          | _ => cases h

/-- Whether an answer can be stored does not depend on the cache. -/
theorem storeAnswer_isOk (u : Uptake) (cache : Cache) :
    (storeAnswer cache u.now u.operation u.answer).toOption.isSome = u.isStored := by
  rw [storeAnswer, isStored]
  cases hpayload : answerPayload u.operation u.answer with
  | error e => rfl
  | ok payload =>
      obtain ⟨fs, rfl⟩ := payload_eq hpayload
      simp only [cache.set_eq u.now (Cache.payloadRoots_fieldPayload u.operation fs) false]
      rfl

theorem store_of_not_isStored (h : u.isStored = false) (cache : Cache) : u.store cache = cache := by
  have hnone := (u.storeAnswer_isOk cache).trans h
  rw [store]
  cases hstored : storeAnswer cache u.now u.operation u.answer with
  | error e => rfl
  | ok stored =>
      rw [hstored] at hnone
      cases hnone

/-- Answers that are not stored leave the cache as it is. -/
theorem foldl_filter_isStored (taken : List Uptake) (cache : Cache) :
    (taken.filter (·.isStored)).foldl store cache = taken.foldl store cache := by
  induction taken generalizing cache with
  | nil => rfl
  | cons u taken ih =>
      cases hu : u.isStored with
      | true => rw [List.filter_cons_of_pos hu, List.foldl_cons, List.foldl_cons, ih]
      | false =>
          rw [List.filter_cons_of_neg (by rw [hu]; decide), List.foldl_cons, ih]
          exact congrArg (taken.foldl store ·) (store_of_not_isStored hu cache).symm

end Uptake

/-- How a request of the group stands to the answers that came and those that were taken up. -/
inductive Request.Stands (answers : List (Nat × Except TransportError ExecutionResult))
    (taken : List Uptake) (r : Request) : Prop
  | unsent (phase : r.phase = .unsent) (fresh : ∀ u ∈ taken, u.request ≠ r.id)
  | sent (phase : r.phase = .sent) (fresh : ∀ u ∈ taken, u.request ≠ r.id)
  | answered {a : Except TransportError ExecutionResult} (phase : r.phase = .answered a)
    (came : (r.id, a) ∈ answers) (fresh : ∀ u ∈ taken, u.request ≠ r.id)
  | finished {result : FetchResult} (phase : r.phase = .finished result) {u : Uptake}
    (up : u ∈ taken) (request : u.request = r.id) (operation : u.operation = r.operation)
    (stored : result = .ok () ↔ u.isStored = true)

/-- A client while a group fetches what it asked for, which are the requests that were not there
before. -/
structure Follows (c : Client) (group : Nat) (asked : List Nat)
    (answers : List (Nat × Except TransportError ExecutionResult)) (taken : List Uptake)
    (d : Client) : Prop where
  ids : (d.requests.map (·.id)).Nodup
  requested : ∀ job ∈ asked, c.requests.length < job ∧ job ∈ d.requests.map (·.id)
  known : ∀ r ∈ d.requests, c.requests.length < r.id →
    r.origin = .group group ∧ r.Stands answers taken
  jobs : ∀ f ∈ d.fetches, f.jobs ⊆ asked
  distinct : (taken.map (·.request)).Nodup
  came : ∀ u ∈ taken, u.request ∈ asked ∧ (u.request, u.answer) ∈ answers
  cache : d.cache = taken.foldl Uptake.store c.cache
  settled : ∀ cause, d.schedule.outcomes.lookup group = some (.error cause) →
    asked = [] ∨ ∃ u ∈ taken, u.isStored = false

variable {c d : Client} {group : Nat} {asked : List Nat}
  {answers answers' : List (Nat × Except TransportError ExecutionResult)} {taken : List Uptake}

namespace Request.Stands

variable {r : Request}

theorem mono (h : r.Stands answers taken) (hs : answers ⊆ answers') : r.Stands answers' taken := by
  cases h with
  | unsent phase fresh => exact .unsent phase fresh
  | sent phase fresh => exact .sent phase fresh
  | answered phase came fresh => exact .answered phase (hs came) fresh
  | finished phase up request operation stored => exact .finished phase up request operation stored

/-- The answer to another request is taken up. -/
theorem concat (h : r.Stands answers taken) {u : Uptake} (hu : u.request ≠ r.id) :
    r.Stands answers (taken ++ [u]) := by
  have hfresh : (∀ v ∈ taken, v.request ≠ r.id) → ∀ v ∈ taken ++ [u], v.request ≠ r.id := by
    intro fresh v hv
    rcases List.mem_append.mp hv with hv | hv
    · exact fresh v hv
    · exact List.mem_singleton.mp hv ▸ hu
  cases h with
  | unsent phase fresh => exact .unsent phase (hfresh fresh)
  | sent phase fresh => exact .sent phase (hfresh fresh)
  | answered phase came fresh => exact .answered phase came (hfresh fresh)
  | finished phase up request operation stored =>
      exact .finished phase (List.mem_append_left _ up) request operation stored

end Request.Stands

/-- A shared answer changes the cache as its uptake tells, and ends well if it was stored. -/
theorem storeShared_uptake (d : Client) (u : Uptake) :
    (d.storeShared u.now u.operation u.answer).2.cache = u.store d.cache ∧
    ((d.storeShared u.now u.operation u.answer).1 = .ok () ↔ u.isStored = true) := by
  have hstored := u.storeAnswer_isOk d.cache
  rw [storeShared, Uptake.store]
  cases ha : storeAnswer d.cache u.now u.operation u.answer with
  | error e =>
      rw [ha] at hstored
      rw [← hstored]
      exact ⟨rfl, ⟨fun h => (by cases h), fun h => (by cases h)⟩⟩
  | ok stored =>
      rw [ha] at hstored
      rw [← hstored]
      exact ⟨rfl, ⟨fun _ => rfl, fun _ => rfl⟩⟩

namespace Follows

/-- One request of the group changes its phase. -/
theorem known_setPhase (h : Follows c group asked answers taken d) {taken' : List Uptake}
    {q : Request} (hq : q ∈ d.requests) (phase : Phase)
    (hself : q.Stands answers taken → Request.Stands answers' taken' { q with phase })
    (hothers : ∀ r : Request, r.id ≠ q.id → r.Stands answers taken → r.Stands answers' taken') :
    ∀ r ∈ (d.setPhase q.id phase).requests, c.requests.length < r.id →
      r.origin = .group group ∧ r.Stands answers' taken' := by
  intro r hr hlt
  obtain ⟨p, hp, rfl⟩ := List.mem_map.mp hr
  by_cases hid : p.id = q.id
  · obtain rfl := List.inj_on_of_nodup_map h.ids hp hq hid
    rw [if_pos (beq_iff_eq.mpr rfl)] at hlt ⊢
    obtain ⟨horigin, hstands⟩ := h.known p hp hlt
    exact ⟨horigin, hself hstands⟩
  · rw [if_neg (fun he => hid (beq_iff_eq.mp he))] at hlt ⊢
    obtain ⟨horigin, hstands⟩ := h.known p hp hlt
    exact ⟨horigin, hothers p hid hstands⟩

theorem mono (h : Follows c group asked answers taken d) (hs : answers ⊆ answers') :
    Follows c group asked answers' taken d :=
  { h with
    known := fun r hr hlt => (h.known r hr hlt).imp_right (·.mono hs)
    came := fun u hu => (h.came u hu).imp_right (hs ·) }

/-- What is known of a request changes, and with it nothing but the answers that came. -/
theorem setPhase (h : Follows c group asked answers taken d) {q : Request} {phase : Phase}
    (hq : q ∈ d.requests) (hs : answers ⊆ answers')
    (hself : q.Stands answers taken → Request.Stands answers' taken { q with phase }) :
    Follows c group asked answers' taken (d.setPhase q.id phase) where
  ids := (ids_setPhase d q.id phase).symm ▸ h.ids
  requested := (ids_setPhase d q.id phase).symm ▸ h.requested
  known := h.known_setPhase hq phase hself fun _ _ hstands => hstands.mono hs
  jobs := h.jobs
  distinct := h.distinct
  came u hu := (h.came u hu).imp_right (hs ·)
  cache := h.cache
  settled := h.settled

/-- The answer to a request of the group is taken up. -/
theorem deliver (h : Follows c group asked answers taken d) (now : Nat) {q : Request}
    (hq : q ∈ d.requests) (hasked : q.id ∈ asked) {a : Except TransportError ExecutionResult}
    (hphase : q.phase = .answered a) :
    ∃ u, Follows c group asked answers (taken ++ [u]) (d.deliver now q a) := by
  let u : Uptake := { now, request := q.id, operation := q.operation, answer := a }
  obtain ⟨horigin, hstands⟩ := h.known q hq (h.requested q.id hasked).1
  obtain ⟨hcame, hfresh⟩ : (q.id, a) ∈ answers ∧ ∀ v ∈ taken, v.request ≠ q.id := by
    cases hstands with
    | answered phase came fresh =>
        rw [hphase] at phase
        obtain rfl := Phase.answered.inj phase
        exact ⟨came, fresh⟩
    | _ phase => exact absurd (hphase.symm.trans phase) (by simp)
  obtain ⟨hcache, hresult⟩ := d.storeShared_uptake u
  have hapart : Apart d (d.storeShared now q.operation a).2 := apart_storeShared now q.operation a
  have hu : u ∈ taken ++ [u] := List.mem_append_right _ List.mem_cons_self
  have hknown := h.known_setPhase hq (.finished (d.storeShared now q.operation a).1)
    (fun _ => .finished rfl hu rfl rfl hresult) fun r hne hstands => hstands.concat (Ne.symm hne)
  refine ⟨u, ?_⟩
  rw [Client.deliver, horigin]
  constructor
  case ids =>
    rw [ids_setPhase, hapart.requests]
    exact h.ids
  case requested =>
    rw [ids_setPhase, hapart.requests]
    exact h.requested
  case known =>
    simp only [Client.setPhase, hapart.requests]
    exact hknown
  case jobs => exact hapart.fetches.symm ▸ h.jobs
  case distinct => exact Schedule.nodup_map_concat h.distinct hfresh
  case came =>
    intro v hv
    rcases List.mem_append.mp hv with hv | hv
    · exact h.came v hv
    · obtain rfl := List.mem_singleton.mp hv
      exact ⟨hasked, hcame⟩
  case cache =>
    rw [List.foldl_append, List.foldl_cons, List.foldl_nil, ← h.cache]
    exact hcache
  case settled =>
    intro cause hsettled
    refine (h.settled cause (hapart.schedule ▸ hsettled)).imp_right ?_
    rintro ⟨v, hv, hno⟩
    exact ⟨v, List.mem_append_left _ hv, hno⟩

/-- Fetches wait for less or end, with a failure only after one of an answer. -/
theorem narrow (h : Follows c group asked answers taken d) {e : Client}
    (hrequests : e.requests = d.requests) (hcache : e.cache = d.cache)
    (hjobs : ∀ f ∈ e.fetches, f.jobs ⊆ asked)
    (hsettled : ∀ cause, e.schedule.outcomes.lookup group = some (.error cause) →
      d.schedule.outcomes.lookup group = some (.error cause) ∨ ∃ u ∈ taken, u.isStored = false) :
    Follows c group asked answers taken e where
  ids := hrequests.symm ▸ h.ids
  requested := hrequests.symm ▸ h.requested
  known := hrequests.symm ▸ h.known
  jobs := hjobs
  distinct := h.distinct
  came := h.came
  cache := hcache.trans h.cache
  settled cause he := (hsettled cause he).elim (h.settled cause) .inr

theorem endFetch (h : Follows c group asked answers taken d) (result : FetchResult)
    (hresult : ∀ cause, result = .error cause → ∃ u ∈ taken, u.isStored = false) :
    Follows c group asked answers taken (d.endFetch (.group group) result) := by
  rw [endFetch_eq]
  refine h.narrow rfl rfl (fun f hf => h.jobs f (List.mem_of_mem_filter hf)) fun cause he => ?_
  simp only [Schedule.settle] at he
  rw [Schedule.lookup_append, if_pos rfl] at he
  rcases Option.or_eq_some_iff.mp he with hbefore | ⟨_, hnow⟩
  · exact .inl hbefore
  · exact .inr (hresult cause (Option.some.inj hnow))

/-- The fetch looks at its requests. It takes up one answer at most. -/
theorem pollJobs (h : Follows c group asked answers taken d) (now : Nat) {waiting jobs : List Nat}
    (hwaiting : waiting ⊆ asked) (hjobs : jobs ⊆ asked) :
    ∃ taken', Follows c group asked answers taken'
      (d.pollJobs now (.group group) waiting jobs).2 := by
  induction jobs generalizing d waiting with
  | nil =>
      rw [Client.pollJobs]
      split
      · exact ⟨taken, h.endFetch _ fun cause he => by cases he⟩
      · exact ⟨taken, h⟩
  | cons job jobs ih =>
      obtain ⟨hjob, hrest⟩ := List.cons_subset.mp hjobs
      obtain ⟨hlt, hmem⟩ := h.requested job hjob
      obtain ⟨q, hq, rfl⟩ := List.mem_map.mp hmem
      obtain ⟨_, hstands⟩ := h.known q hq hlt
      rw [Client.pollJobs, request?_of_mem h.ids hq]
      simp only
      split
      · rename_i hphase
        refine ⟨taken, h.setPhase hq (List.Subset.refl _) fun hstands => ?_⟩
        cases hstands with
        | unsent _ fresh => exact .sent rfl fresh
        | _ phase => exact absurd (hphase.symm.trans phase) (by simp)
      · exact ih h (List.append_subset.mpr ⟨hwaiting, List.cons_subset.mpr ⟨hjob, List.nil_subset _⟩⟩)
          hrest
      · rename_i a hphase
        obtain ⟨u, hu⟩ := h.deliver now hq hjob hphase
        exact ⟨taken ++ [u], hu⟩
      · have hdropped : Follows c group asked answers taken
            ((d.release q.id).setJobs (.group group) (waiting ++ jobs)) := by
          refine h.narrow rfl rfl (fun f hf => ?_) fun cause he => .inl he
          obtain ⟨g, hg, rfl⟩ := List.mem_map.mp hf
          split
          · exact List.append_subset.mpr ⟨hwaiting, hrest⟩
          · exact h.jobs g hg
        exact ih hdropped hwaiting hrest
      · rename_i cause hphase
        refine ⟨taken, h.endFetch _ fun _ _ => ?_⟩
        cases hstands with
        | @finished result phase u up _ _ stored =>
            rw [hphase] at phase
            obtain rfl := Phase.finished.inj phase
            refine ⟨u, up, ?_⟩
            rw [← Bool.not_eq_true, ← stored]
            exact fun he => by cases he
        | _ phase => exact absurd (hphase.symm.trans phase) (by simp)

theorem pollFetch (h : Follows c group asked answers taken d) (now : Nat) :
    ∃ taken', Follows c group asked answers taken' (d.pollFetch now (.group group)).2 := by
  rw [Client.pollFetch]
  split
  · rename_i f hf
    exact h.pollJobs now (List.nil_subset _) (h.jobs f (List.mem_of_find?_eq_some hf))
  · exact ⟨taken, h⟩

theorem answer (h : Follows c group asked answers taken d) (request : Nat)
    (a : Except TransportError ExecutionResult) :
    Follows c group asked (answers ++ [(request, a)]) taken (d.answer request a) := by
  rw [Client.answer]
  split
  · rename_i r hr
    obtain ⟨hmem, rfl⟩ := request?_eq_some hr
    refine h.setPhase hmem (List.subset_append_left _ _) fun hstands => ?_
    cases hstands with
    | sent _ fresh =>
        exact .answered rfl (List.mem_append_right _ List.mem_cons_self) fresh
    | _ phase => cases phase
  · exact h.mono (List.subset_append_left _ _)

end Follows

/-! ### The beginning -/

/-- Requests above a number are asked for, and nobody else is. -/
structure Began (base : Nat) (origin : FetchId) (c d : Client) (jobs : List Nat) : Prop where
  cache : d.cache = c.cache
  length : base ≤ d.requests.length
  entries : ∀ q ∈ d.inFlight, base < q.2
  jobs : ∀ job ∈ jobs, base < job
  fresh : ∀ r ∈ d.requests, r ∈ c.requests ∨ (r.origin = origin ∧ r.phase = .unsent)

section

variable {base : Nat} (hlength : base ≤ c.requests.length) (hentries : ∀ q ∈ c.inFlight, base < q.2)

include hlength hentries

theorem requestFor_began (n : Nat) (document : Document) (extensions : Option (Fields Json)) :
    Began base (.group n) c (c.requestFor (.group n) document extensions).2
      [(c.requestFor (.group n) document extensions).1] := by
  rw [requestFor]
  simp only
  split
  · rename_i id hid
    have hlt : base < id := hentries _ (Schedule.mem_of_lookup hid)
    exact ⟨rfl, hlength, hentries, List.forall_mem_singleton.mpr hlt, fun r hr => .inl hr⟩
  · have hlt : base < c.requests.length + 1 := Nat.lt_succ_of_le hlength
    constructor
    case cache => rfl
    case length => exact Nat.le_trans hlength (List.length_append ▸ Nat.le_add_right _ _)
    case entries =>
      intro q hq
      rcases List.mem_append.mp hq with hq | hq
      · exact hentries q hq
      · exact List.mem_singleton.mp hq ▸ hlt
    case jobs => exact List.forall_mem_singleton.mpr hlt
    case fresh =>
      intro r hr
      refine (List.mem_append.mp hr).imp_right fun hr => ?_
      exact List.mem_singleton.mp hr ▸ ⟨rfl, rfl⟩

theorem requestAll_began (n : Nat) (extensions : Option (Fields Json))
    (documents : List Document) :
    Began base (.group n) c (c.requestAll (.group n) extensions documents).2
      (c.requestAll (.group n) extensions documents).1 := by
  induction documents generalizing c with
  | nil =>
      exact ⟨rfl, hlength, hentries, fun _ h => absurd h List.not_mem_nil, fun r hr => .inl hr⟩
  | cons document rest ih =>
      have hfirst := requestFor_began hlength hentries n document extensions
      have hrest := ih hfirst.length hfirst.entries
      constructor
      case cache => exact hrest.cache.trans hfirst.cache
      case length => exact hrest.length
      case entries => exact hrest.entries
      case jobs =>
        exact List.forall_mem_cons.mpr ⟨hfirst.jobs _ List.mem_cons_self, hrest.jobs⟩
      case fresh =>
        intro r hr
        rcases hrest.fresh r hr with hr | hr
        · exact hfirst.fresh r hr
        · exact .inr hr

end

theorem length_requestAll (c : Client) (origin : FetchId) (extensions : Option (Fields Json))
    (documents : List Document) :
    (c.requestAll origin extensions documents).1.length = documents.length := by
  induction documents generalizing c with
  | nil => rfl
  | cons document rest ih => exact congrArg Nat.succ (ih _)

/-- The window of a group closes whose selections make no documents. Nothing is asked for. -/
theorem follows_refused {lost : List Nat} (h : c.Sharing lost) (hidle : c.Idle) {w : Window}
    (hw : w ∈ c.schedule.windows) {cause : ValidationError} {builder : Document.Builder}
    (hb : c.builder.build w.selections w.key.operationName = (.error cause, builder)) :
    Follows c w.group [] [] [] (c.dispatch w.group) := by
  simp only [dispatch, Schedule.close, h.schedule.find? hw, startFetch, hb, endFetch_eq]
  constructor
  case ids => exact h.ids
  case requested => exact fun _ hjob => absurd hjob List.not_mem_nil
  case known => exact fun r hr hlt => absurd hlt (Nat.not_lt_of_le (h.numbered r hr))
  case jobs =>
    intro f hf
    have hf : f ∈ c.fetches := List.mem_of_mem_filter hf
    exact absurd (hidle.fetches ▸ hf) List.not_mem_nil
  case distinct => exact List.nodup_nil
  case came => exact fun _ hu => absurd hu List.not_mem_nil
  case cache => rfl
  case settled => exact fun _ _ => .inl rfl

/-- The window of a group closes whose selections make documents. A request for each of them is
asked for. -/
theorem follows_asked {lost : List Nat} (h : c.Sharing lost) (hidle : c.Idle) {w : Window}
    (hw : w ∈ c.schedule.windows) {documents : List Document} {builder : Document.Builder}
    (hb : c.builder.build w.selections w.key.operationName = (.ok documents, builder)) :
    ∃ asked, Follows c w.group asked [] [] (c.dispatch w.group) ∧
      asked.length = documents.length := by
  let closed : Client := { c with schedule := (c.schedule.close w.group).2, builder }
  have hclosed : closed.Sharing lost := (h.close w.group).apart ⟨rfl, rfl, rfl, rfl⟩
  have hasked := hclosed.requestAll (.group w.group) w.key.extensions documents
  have hbegan : Began c.requests.length (.group w.group) closed _ _ :=
    requestAll_began (c := closed) (Nat.le_refl _)
      (fun q hq => absurd (hidle.inFlight ▸ hq) List.not_mem_nil) w.group w.key.extensions
      documents
  refine ⟨(closed.requestAll (.group w.group) w.key.extensions documents).1, ?_,
    length_requestAll _ _ _ _⟩
  rw [dispatch_eq_askFor (h.schedule.find? hw) hb, askFor]
  generalize closed.requestAll (.group w.group) w.key.extensions documents = requested at *
  obtain ⟨jobs, d⟩ := requested
  constructor
  case ids => exact hasked.sharing.ids
  case requested =>
    intro job hjob
    obtain ⟨r, hr, hid⟩ := hasked.known job hjob
    exact ⟨hbegan.jobs job hjob, List.mem_map.mpr ⟨r, hr, hid⟩⟩
  case known =>
    intro r hr hlt
    obtain ⟨horigin, hphase⟩ :=
      (hbegan.fresh r hr).resolve_left fun hr => Nat.not_lt_of_le (h.numbered r hr) hlt
    exact ⟨horigin, .unsent hphase fun _ hu => absurd hu List.not_mem_nil⟩
  case jobs =>
    intro f hf
    have hf : f ∈ d.fetches ++ [{ id := .group w.group, jobs := jobs }] := hf
    rw [hasked.same.1] at hf
    rcases List.mem_append.mp hf with hf | hf
    · exact absurd (hidle.fetches ▸ hf) List.not_mem_nil
    · exact List.mem_singleton.mp hf ▸ List.Subset.refl _
  case distinct => exact List.nodup_nil
  case came => exact fun _ hu => absurd hu List.not_mem_nil
  case cache => exact hbegan.cache
  case settled =>
    intro cause he
    have he : d.schedule.outcomes.lookup w.group = some (.error cause) := he
    have hopen : closed.schedule.outcomes.lookup w.group = none := (h.schedule.opened w hw).2
    rw [hasked.same.2, hopen] at he
    cases he

/-- The window of a group closes. A request for each of its documents is asked for, none if there
is no document. -/
theorem follows_dispatch {lost : List Nat} (h : c.Sharing lost) (hidle : c.Idle) {w : Window}
    (hw : w ∈ c.schedule.windows) :
    ∃ asked, Follows c w.group asked [] [] (c.dispatch w.group) ∧
      ∀ documents, (c.builder.build w.selections w.key.operationName).1 = .ok documents →
        asked.length = documents.length := by
  cases hb : c.builder.build w.selections w.key.operationName with
  | mk made builder =>
      cases made with
      | error cause => exact ⟨[], follows_refused h hidle hw hb, fun _ hd => by cases hd⟩
      | ok documents =>
          obtain ⟨asked, hfollows, hlength⟩ := follows_asked h hidle hw hb
          exact ⟨asked, hfollows, fun _ hd => Except.ok.inj hd ▸ hlength⟩

theorem FetchRun.follows {lost : List Nat} (hfetch : FetchRun c group answers d)
    (h : c.Sharing lost) (hidle : c.Idle) {w : Window} (hw : w ∈ c.schedule.windows)
    (hg : w.group = group) :
    ∃ asked taken, Follows c group asked answers taken d ∧
      ∀ documents, (c.builder.build w.selections w.key.operationName).1 = .ok documents →
        asked.length = documents.length := by
  induction hfetch with
  | dispatch =>
      obtain ⟨asked, hfollows, hlength⟩ := follows_dispatch h hidle hw
      exact ⟨asked, [], hg ▸ hfollows, hlength⟩
  | poll _ now ih =>
      obtain ⟨asked, taken, hfollows, hlength⟩ := ih
      obtain ⟨taken', hpolled⟩ := hfollows.pollFetch now
      exact ⟨asked, taken', hpolled, hlength⟩
  | answer _ request a ih =>
      obtain ⟨asked, taken, hfollows, hlength⟩ := ih
      exact ⟨asked, taken, hfollows.answer request a, hlength⟩

namespace Follows

theorem eq_of_request (h : Follows c group asked answers taken d) {u v : Uptake} (hu : u ∈ taken)
    (hv : v ∈ taken) (he : u.request = v.request) : u = v :=
  List.inj_on_of_nodup_map h.distinct hu hv he

/-- What was taken up belongs to a request that has ended, well if it was stored. -/
theorem finished (h : Follows c group asked answers taken d) {u : Uptake} (hu : u ∈ taken) :
    ∃ r ∈ d.requests, c.requests.length < r.id ∧ r.id = u.request ∧ r.operation = u.operation ∧
      ∃ result, r.phase = .finished result ∧ (result = .ok () ↔ u.isStored = true) := by
  obtain ⟨hlt, hmem⟩ := h.requested u.request (h.came u hu).1
  obtain ⟨r, hr, hid⟩ := List.mem_map.mp hmem
  have hnew : c.requests.length < r.id := Nat.lt_of_lt_of_eq hlt hid.symm
  obtain ⟨_, hstands⟩ := h.known r hr hnew
  cases hstands with
  | @finished result phase v up request operation stored =>
      obtain rfl := h.eq_of_request up hu (request.trans hid)
      exact ⟨r, hr, hnew, hid, operation.symm, result, phase, stored⟩
  | unsent _ fresh => exact absurd hid.symm (fresh u hu)
  | sent _ fresh => exact absurd hid.symm (fresh u hu)
  | answered _ _ fresh => exact absurd hid.symm (fresh u hu)

/-- A fetch that asks for one request at most fails without an answer that is stored. -/
theorem stored_eq_nil (h : Follows c group asked answers taken d) {cause : TransportError}
    (hfailed : d.schedule.outcomes.lookup group = some (.error cause)) (hone : asked.length ≤ 1) :
    taken.filter (·.isStored) = [] := by
  refine List.filter_eq_nil_iff.mpr fun v hv => ?_
  have hasked := (h.came v hv).1
  rcases h.settled cause hfailed with rfl | ⟨u, hu, hno⟩
  · exact absurd hasked List.not_mem_nil
  · have hsame : u.request = v.request := by
      obtain ⟨job, rfl⟩ := List.length_eq_one_iff.mp
        (Nat.le_antisymm hone (List.length_pos_of_mem hasked))
      have hu := List.mem_singleton.mp (h.came u hu).1
      exact hu.trans (List.mem_singleton.mp hasked).symm
    rw [← h.eq_of_request hu hv hsame, hno]
    exact Bool.false_ne_true

end Follows

/-- A fetch that nobody disturbs stores the answers that it takes up, also when it fails in the
end: those of the requests that have ended well, each as a whole. It stores none if the group has
one document at most. -/
theorem failed_fetch_stores {lost : List Nat} (hrun : Run c lost) (hidle : c.Idle) {w : Window}
    (hw : w ∈ c.schedule.windows) (hfetch : FetchRun c w.group answers d) {cause : TransportError}
    (hfailed : d.schedule.outcomes.lookup w.group = some (.error cause)) :
    ∃ taken : List Uptake,
      (taken.map (·.request)).Nodup ∧
      (∀ u ∈ taken, u.isStored = true ∧ (u.request, u.answer) ∈ answers ∧
        ∃ r ∈ d.requests, c.requests.length < r.id ∧ r.id = u.request ∧
          r.operation = u.operation ∧ r.phase = .finished (.ok ())) ∧
      (∀ r ∈ d.requests, c.requests.length < r.id → r.phase = .finished (.ok ()) →
        r.id ∈ taken.map (·.request)) ∧
      d.cache = taken.foldl Uptake.store c.cache ∧
      ∀ documents, (c.builder.build w.selections w.key.operationName).1 = .ok documents →
        documents.length ≤ 1 → taken = [] := by
  obtain ⟨asked, taken, h, hlength⟩ := hfetch.follows hrun.sharing hidle hw rfl
  refine ⟨taken.filter (·.isStored), h.distinct.sublist (List.filter_sublist.map _), ?_, ?_, ?_, ?_⟩
  · intro u hu
    obtain ⟨hu, hstored⟩ := List.mem_filter.mp hu
    obtain ⟨r, hr, hlt, hid, hoperation, result, hphase, hresult⟩ := h.finished hu
    obtain rfl := hresult.mpr hstored
    exact ⟨hstored, (h.came u hu).2, r, hr, hlt, hid, hoperation, hphase⟩
  · intro r hr hlt hphase
    cases (h.known r hr hlt).2 with
    | @finished result phase u up request _ stored =>
        rw [hphase] at phase
        have hstored := stored.mp (Phase.finished.inj phase).symm
        exact List.mem_map.mpr ⟨u, List.mem_filter.mpr ⟨up, hstored⟩, request⟩
    | _ phase => exact absurd (hphase.symm.trans phase) (by simp)
  · rw [Uptake.foldl_filter_isStored]
    exact h.cache
  · intro documents hdocuments hone
    exact h.stored_eq_nil hfailed (Nat.le_trans (Nat.le_of_eq (hlength documents hdocuments)) hone)

/-! ### A group that fails in its second document -/

namespace Interrupted

/-- A step of the fetch: an answer comes, or the fetch is moved on. -/
abbrev Step := Option (Nat × Except TransportError ExecutionResult)

def advance (group : Nat) : List Step → Client → Client
  | [], d => d
  | none :: rest, d => advance group rest (d.pollFetch 0 (.group group)).2
  | some (request, a) :: rest, d => advance group rest (d.answer request a)

theorem fetchRun_advance (steps : List Step) (h : FetchRun c group answers d) :
    ∃ more, FetchRun c group more (advance group steps d) := by
  induction steps generalizing answers d with
  | nil => exact ⟨answers, h⟩
  | cons step rest ih =>
      cases step with
      | none => exact ih (h.poll 0)
      | some came => exact ih (h.answer came.1 came.2)

/-- A mutation and a query are asked for in one group. -/
def ready : Client := ((new {} false {}).enlist [Split.rename 10, Split.name 20] {}).2

/-- The query is answered and taken up, then the mutation fails. -/
def steps : List Step :=
  [none, none, some (1, .ok { data := some (.object [("name", .string "a")]) }), none,
    some (2, .error (.network "down")), none, none]

theorem run_ready : Run ready [] ∧ ready.Idle := by
  have hrun : Run ready ([] ++ givenUp (new {} false {}) ready) :=
    (Run.new {} false {}).step (.enlist [Split.rename 10, Split.name 20] {})
  rw [givenUp_eq_nil fun f hf => absurd hf List.not_mem_nil] at hrun
  exact ⟨hrun, rfl, rfl⟩

/-- Whether the group has failed, with its first request ended well and stored. -/
def isInterrupted (d : Client) : Bool :=
  (match d.schedule.outcomes.lookup 1 with
    | some (.error _) => true
    | _ => false) &&
  d.requests.any (fun r => r.id == 1 &&
    match r.phase with
    | .finished (.ok ()) => true
    | _ => false) &&
  d.cache.store.containers.length == 1

theorem steps_interrupted : ∃ w ∈ ready.schedule.windows, ∃ answers d,
    FetchRun ready w.group answers d ∧
    (∃ cause, d.schedule.outcomes.lookup w.group = some (.error cause)) ∧
    (∃ r ∈ d.requests, r.id = 1 ∧ r.phase = .finished (.ok ())) ∧
    d.cache.store.containers.length = 1 := by
  have hplayed : (ready.canCloseSorted && ready.schedule.windows.all (·.group == 1) &&
      isInterrupted (advance 1 steps ready.closeSorted)) = true := by
    decide +kernel
  rw [Bool.and_eq_true, Bool.and_eq_true] at hplayed
  obtain ⟨⟨hclose, hgroups⟩, hinterrupted⟩ := hplayed
  obtain ⟨w, hw, _, hdispatch⟩ := dispatch_eq_closeSorted hclose
  have hgroup : w.group = 1 := eq_of_beq (List.all_eq_true.mp hgroups w hw)
  have hstart : FetchRun ready 1 [] ready.closeSorted := by
    rw [← hdispatch, hgroup]
    exact .dispatch
  obtain ⟨answers, hfetch⟩ := fetchRun_advance steps hstart
  rw [isInterrupted, Bool.and_eq_true, Bool.and_eq_true, List.any_eq_true, beq_iff_eq] at hinterrupted
  obtain ⟨⟨hfailed, r, hr, hended⟩, hlength⟩ := hinterrupted
  rw [Bool.and_eq_true, beq_iff_eq] at hended
  refine ⟨w, hw, answers, _, hgroup ▸ hfetch, ?_, ⟨r, hr, hended.1, ?_⟩, hlength⟩
  · rw [hgroup]
    split at hfailed
    · exact ⟨_, ‹_›⟩
    · cases hfailed
  · have hphase := hended.2
    split at hphase
    · assumption
    · cases hphase

/-- The fetch fails, and has stored the answer to the query. -/
theorem failed_stored : ∃ w ∈ ready.schedule.windows, ∃ answers d, Run ready [] ∧ ready.Idle ∧
    FetchRun ready w.group answers d ∧
    (∃ cause, d.schedule.outcomes.lookup w.group = some (.error cause)) ∧
    ∃ u : Uptake, u.isStored = true ∧ (u.request, u.answer) ∈ answers ∧ u.request = 1 ∧
      ∃ taken : List Uptake, u ∈ taken ∧ d.cache = taken.foldl Uptake.store ready.cache := by
  obtain ⟨hrun, hidle⟩ := run_ready
  obtain ⟨w, hw, answers, d, hfetch, ⟨cause, hfailed⟩, ⟨r, hr, hid, hphase⟩, _⟩ := steps_interrupted
  obtain ⟨taken, _, htaken, hall, hcache, _⟩ := failed_fetch_stores hrun hidle hw hfetch hfailed
  obtain ⟨u, hu, hrequest⟩ := List.mem_map.mp (hall r hr (hid ▸ Nat.zero_lt_one) hphase)
  obtain ⟨hstored, hcame, _⟩ := htaken u hu
  exact ⟨w, hw, answers, d, hrun, hidle, hfetch, ⟨cause, hfailed⟩, u, hstored, hcame,
    hrequest.trans hid, taken, hu, hcache⟩

/-- So the cache is not what it was before the group was dispatched. -/
theorem failed_differs : ∃ w ∈ ready.schedule.windows, ∃ answers d, Run ready [] ∧ ready.Idle ∧
    FetchRun ready w.group answers d ∧
    (∃ cause, d.schedule.outcomes.lookup w.group = some (.error cause)) ∧
    d.cache.store.containers.length ≠ ready.cache.store.containers.length := by
  obtain ⟨hrun, hidle⟩ := run_ready
  obtain ⟨w, hw, answers, d, hfetch, hfailed, _, hlength⟩ := steps_interrupted
  exact ⟨w, hw, answers, d, hrun, hidle, hfetch, hfailed, hlength ▸ Nat.one_ne_zero⟩

end Interrupted

end LazyGraph.Client
