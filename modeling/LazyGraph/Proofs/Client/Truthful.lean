import LazyGraph.Proofs.Client.Arrival
import LazyGraph.Proofs.Client.Trail

/-!
Clients of a server with one fixed tree: what every transition keeps. The cache tells what the
server holds, and covers of each root field what the last reply with it says.
-/
namespace LazyGraph

variable {server : Server}

namespace Client

/-- What a stored reply says of a root field of the query. -/
def replied? (field : String) (notice : Cache.Notice) : Option Json :=
  (notice.payload.member? Operation.query.text).bind (·.member? field)

/-- What the last stored reply with a root field of the query says of it. -/
def lastReply? (c : Client) (field : String) : Option Json :=
  c.notices.reverse.findSome? (replied? field)

theorem replied?_query {field : String} {fs : Fields Json} {notice : Cache.Notice}
    (h : notice.payload = .object [(Operation.query.text, .object fs)]) :
    replied? field notice = Fields.get? fs field := by
  rw [replied?, h]
  rfl

theorem replied?_of_ne {field : String} {root : Operation} {fs : Fields Json}
    {notice : Cache.Notice} (h : notice.payload = .object [(root.text, .object fs)])
    (hroot : root ≠ .query) : replied? field notice = none := by
  rw [replied?, h]
  cases root with
  | query => exact absurd rfl hroot
  | mutation => rfl
  | subscription => rfl

/-- A group asked for it, and an answer is the part of the tree of the server that it asks for. -/
structure Request.Honest (server : Server) (r : Request) : Prop where
  group : ∃ n, r.origin = .group n
  answer : ∀ a, r.phase = .answered a → a = .ok (server.reply r.document)

structure Truthful (server : Server) (options : Options) (schema : Schema) (c : Client) :
    Prop where
  settings : c.cache.options = options.cache
  types : c.schema = schema
  faithful : c.cache.store.Faithful server (server.Carries options.cache.identity)
  covers : ∀ field w, c.lastReply? field = some w → c.cache.store.CoversField field w
  numbered : c.requests.map (·.id) = (List.range c.requests.length).map (· + 1)
  requests : ∀ r ∈ c.requests, r.Honest server

variable {options : Options} {schema : Schema} {c d : Client}

theorem request?_eq_some {r : Request} {n : Nat} (h : c.request? n = some r) :
    r ∈ c.requests ∧ r.id = n := by
  rw [request?] at h
  have hid := List.find?_some h
  exact ⟨List.mem_of_find?_eq_some h, eq_of_beq hid⟩

namespace Truthful

theorem new (server : Server) (options : Options) (schema : Schema) (hasSubscriber : Bool) :
    (Client.new schema hasSubscriber options).Truthful server options schema where
  settings := rfl
  types := rfl
  faithful := Cache.Store.faithful_empty
  covers _ _ h := nomatch h
  numbered := rfl
  requests _ h := absurd h List.not_mem_nil

theorem withRequests (h : c.Truthful server options schema) (hc : d.cache = c.cache)
    (hs : d.schema = c.schema) (hn : d.notices = c.notices)
    (hi : d.requests.map (·.id) = (List.range d.requests.length).map (· + 1))
    (hr : ∀ r ∈ d.requests, r.Honest server) : d.Truthful server options schema where
  settings := hc ▸ h.settings
  types := hs.trans h.types
  faithful := hc ▸ h.faithful
  covers field w hw := by
    rw [lastReply?, hn] at hw
    rw [hc]
    exact h.covers field w hw
  numbered := hi
  requests := hr

/-- Nothing else of a client matters. -/
theorem congr (h : c.Truthful server options schema) (hc : d.cache = c.cache)
    (hs : d.schema = c.schema) (hn : d.notices = c.notices) (hr : d.requests = c.requests) :
    d.Truthful server options schema :=
  h.withRequests hc hs hn (hr ▸ h.numbered) (hr ▸ h.requests)

theorem id_le (h : c.Truthful server options schema) : ∀ r ∈ c.requests, r.id ≤ c.requests.length := by
  intro r hr
  have hid := List.mem_map_of_mem (f := (·.id)) hr
  rw [h.numbered] at hid
  obtain ⟨i, hi, he⟩ := List.mem_map.mp hid
  have hlt := List.mem_range.mp hi
  omega

theorem eq_of_id (h : c.Truthful server options schema) {q r : Request} (hq : q ∈ c.requests)
    (hr : r ∈ c.requests) (he : q.id = r.id) : q = r := by
  have hid : ∀ (i : Nat) (hi : i < c.requests.length), c.requests[i].id = i + 1 := by
    intro i hi
    have hat := congrArg (·[i]?) h.numbered
    simpa [hi] using hat
  obtain ⟨i, hi, rfl⟩ := List.mem_iff_getElem.mp hq
  obtain ⟨j, hj, rfl⟩ := List.mem_iff_getElem.mp hr
  rw [hid i hi, hid j hj] at he
  obtain rfl := Nat.succ.inj he
  rfl

/-! ### Requests and fetches -/

theorem release (h : c.Truthful server options schema) (id : Nat) :
    (c.release id).Truthful server options schema :=
  h.congr rfl rfl rfl rfl

theorem setJobs (h : c.Truthful server options schema) (id : FetchId) (jobs : List Nat) :
    (c.setJobs id jobs).Truthful server options schema :=
  h.congr rfl rfl rfl rfl

theorem setPhase (h : c.Truthful server options schema) (id : Nat) {phase : Phase}
    (hp : ∀ r ∈ c.requests, r.id = id → ∀ a, phase = .answered a →
      a = .ok (server.reply r.document)) :
    (c.setPhase id phase).Truthful server options schema := by
  refine h.withRequests rfl rfl rfl ?_ fun r hr => ?_
  · have hids : (c.setPhase id phase).requests.map (·.id) = c.requests.map (·.id) := by
      rw [Client.setPhase, List.map_map]
      refine List.map_congr_left fun r _ => ?_
      rw [Function.comp_apply]
      split <;> rfl
    rw [hids, h.numbered, Client.setPhase, List.length_map]
  · obtain ⟨q, hq, rfl⟩ := List.mem_map.mp hr
    split
    · rename_i hid
      exact ⟨(h.requests q hq).group, hp q hq (eq_of_beq hid)⟩
    · exact h.requests q hq

theorem endFetch (h : c.Truthful server options schema) (id : FetchId) (result : FetchResult) :
    (c.endFetch id result).Truthful server options schema := by
  have hrelease : ∀ (jobs : List Nat) {c : Client}, c.Truthful server options schema →
      (jobs.foldl Client.release c).Truthful server options schema := by
    intro jobs
    induction jobs with
    | nil => exact fun h => h
    | cons job jobs ih => exact fun h => ih (h.release job)
  cases id with
  | group n =>
      rw [Client.endFetch]
      exact (hrelease _ h).congr rfl rfl rfl rfl
  | call n =>
      rw [Client.endFetch]
      exact (hrelease _ h).congr rfl rfl rfl rfl

theorem requestFor (h : c.Truthful server options schema) (n : Nat) (document : Document)
    (extensions : Option (Fields Json)) :
    (c.requestFor (.group n) document extensions).2.Truthful server options schema := by
  rw [Client.requestFor]
  split
  · exact h
  · refine h.withRequests rfl rfl rfl ?_ fun r hr => ?_
    · rw [newRequest, List.map_append, List.length_append, h.numbered, List.length_singleton,
        List.range_succ, List.map_append]
      rfl
    rcases List.mem_append.mp hr with hr | hr
    · exact h.requests r hr
    · rw [List.mem_singleton.mp hr]
      exact ⟨⟨n, rfl⟩, fun a ha => by cases ha⟩

theorem requestAll (h : c.Truthful server options schema) (n : Nat)
    (extensions : Option (Fields Json)) (documents : List Document) :
    (c.requestAll (.group n) extensions documents).2.Truthful server options schema := by
  induction documents generalizing c with
  | nil => exact h
  | cons document rest ih => exact ih (h.requestFor n document extensions)

theorem startFetch (h : c.Truthful server options schema) (n : Nat) (selections : List Selection)
    (key : BatchKey) :
    (c.startFetch (.group n) selections key).2.Truthful server options schema := by
  rw [Client.startFetch]
  split
  · exact h.congr rfl rfl rfl rfl
  · rename_i documents builder _
    have hall := requestAll (c := { c with builder }) (h.congr rfl rfl rfl rfl) n
      key.extensions documents
    exact hall.congr rfl rfl rfl rfl

theorem dispatch (h : c.Truthful server options schema) (group : Nat) :
    (c.dispatch group).Truthful server options schema := by
  have hclosed : Truthful server options schema { c with schedule := (c.schedule.close group).2 } :=
    h.congr rfl rfl rfl rfl
  have hstarted : ∀ selections key r, Client.startFetch
      { c with schedule := (c.schedule.close group).2 } (.group group) selections key = r →
        r.2.Truthful server options schema := by
    rintro selections key _ rfl
    exact hclosed.startFetch group selections key
  simp only [Client.dispatch]
  split
  · rename_i d hd
    exact hstarted _ _ _ hd
  · rename_i e d hd
    exact (hstarted _ _ _ hd).endFetch _ _

theorem answer (h : c.Truthful server options schema) {r : Request} {n : Nat}
    (hr : c.request? n = some r) :
    (c.answer n (.ok (server.reply r.document))).Truthful server options schema := by
  obtain ⟨hmem, hid⟩ := request?_eq_some hr
  rw [Client.answer, hr]
  split
  · refine h.setPhase n fun q hq hqn a ha => ?_
    cases ha
    rw [h.eq_of_id hq hmem (hqn.trans hid.symm)]
  · exact h

section

variable (hdistinct : server.Distinct options.cache.identity)
  (hresolver : ∀ n, options.cache.normalizer = some n → n.resolver = none)
  (hage : options.cache.maxAge = none)

include hdistinct hresolver hage

/-- The cache takes up an honest answer. -/
theorem storeShared (h : c.Truthful server options schema) (now : Nat) (document : Document) :
    ∃ cache notice, c.storeShared now document.operation (.ok (server.reply document)) =
        (.ok (), { c with cache, notices := c.notices ++ [notice] }) ∧
      notice.payload = .object [(document.operation.text, .object (server.data document))] ∧
      Truthful server options schema { c with cache, notices := c.notices ++ [notice] } := by
  have hpayload : answerPayload document.operation (.ok (server.reply document)) =
      .ok (.object [(document.operation.text, .object (server.data document))]) := rfl
  have hid : ∀ p fs id, server.holding p = .object →
      server.Members (server.Carries options.cache.identity) p fs →
      options.cache.identity fs = some id → server.Carries options.cache.identity id p :=
    fun p fs id hp hm hi => hm.carries hp hi
  obtain ⟨cache, notice, hset, hnotice, hoptions, hfaithful, hcovers, hkept⟩ :=
    Cache.set_covers hdistinct hresolver hid now hage h.settings h.faithful
      (server.data_tells document)
  refine ⟨cache, notice, ?_, hnotice, hoptions, h.types, hfaithful, fun field w hw => ?_,
    h.numbered, h.requests⟩
  · simp only [Client.storeShared, storeAnswer, hpayload, hset]
  have hlast : (replied? field notice).or (c.lastReply? field) = some w := by
    rw [lastReply?, List.reverse_append, List.reverse_singleton, List.singleton_append,
      List.findSome?_cons] at hw
    cases hr : replied? field notice with
    | none =>
        rw [hr] at hw
        exact hw
    | some v =>
        rw [hr] at hw
        exact hw
  by_cases hquery : document.operation = .query
  · rw [hquery] at hnotice
    rw [replied?_query hnotice] at hlast
    cases hg : Fields.get? (server.data document) field with
    | none =>
        rw [hg] at hlast
        exact hkept field w (fun _ => Fields.get?_eq_none_iff.mp hg) (h.covers field w hlast)
    | some v =>
        rw [hg] at hlast
        cases hlast
        exact hcovers hquery (field, w) (Fields.mem_of_get? hg)
  · rw [replied?_of_ne hnotice hquery] at hlast
    exact hkept field w (fun hq => absurd hq hquery) (h.covers field w hlast)

/-- What comes of an answer that is taken up. -/
theorem deliver (h : c.Truthful server options schema) (now : Nat) {r : Request}
    {answer : Except TransportError ExecutionResult} (hr : r ∈ c.requests)
    (ha : r.phase = .answered answer) :
    ∃ cache notice, c.deliver now r answer =
        Client.setPhase { c with cache, notices := c.notices ++ [notice] } r.id (.finished (.ok ())) ∧
      notice.payload = .object [(r.document.operation.text, .object (server.data r.document))] ∧
      (c.deliver now r answer).Truthful server options schema := by
  obtain ⟨⟨n, hgroup⟩, hanswer⟩ := h.requests r hr
  cases hanswer answer ha
  obtain ⟨cache, notice, hstored, hnotice, htruthful⟩ :=
    h.storeShared hdistinct hresolver hage now r.document
  have hdelivered : c.deliver now r (.ok (server.reply r.document)) =
      Client.setPhase { c with cache, notices := c.notices ++ [notice] } r.id (.finished (.ok ())) := by
    simp only [Client.deliver, hgroup, Request.operation, hstored]
  refine ⟨cache, notice, hdelivered, hnotice, ?_⟩
  rw [hdelivered]
  exact htruthful.setPhase r.id fun _ _ _ a ha => by cases ha

theorem pollJobs (h : c.Truthful server options schema) (now : Nat) (id : FetchId)
    (waiting jobs : List Nat) :
    (c.pollJobs now id waiting jobs).2.Truthful server options schema := by
  induction jobs generalizing c waiting with
  | nil =>
      rw [Client.pollJobs]
      split
      · exact h.endFetch id _
      · exact h
  | cons job jobs ih =>
      rw [Client.pollJobs]
      split
      · exact ih h waiting
      · rename_i r hr
        have hmem := (request?_eq_some hr).1
        split
        · exact h.setPhase r.id fun _ _ _ a ha => by cases ha
        · exact ih h _
        · obtain ⟨_, _, _, _, hdelivered⟩ := h.deliver hdistinct hresolver hage now hmem ‹_›
          exact hdelivered
        · exact ih ((h.release job).setJobs id _) waiting
        · exact h.endFetch id _

theorem pollFetch (h : c.Truthful server options schema) (now : Nat) (id : FetchId) :
    (c.pollFetch now id).2.Truthful server options schema := by
  rw [Client.pollFetch]
  split
  · exact h.pollJobs hdistinct hresolver hage now id _ _
  · exact h

end

/-! ### Calls -/

theorem enlist (h : c.Truthful server options schema) (selections : List Selection)
    (key : BatchKey) : (c.enlist selections key).2.Truthful server options schema :=
  h.congr rfl rfl rfl rfl

end Truthful

/-- What a run of the closure of trails gives, and what it leaves. -/
structure Ran (server : Server) (options : Options) (schema : Schema) (c : Client)
    (context : Context) (trails : List (List String)) (values : List Json) (context' : Context)
    (d : Client) : Prop where
  same : ∃ forest cache, d = { c with forest, cache }
  truthful : d.Truthful server options schema
  plain : d.forest.Plain c.roots.query
  known : c.forest.known c.roots.query ⊆ d.forest.known c.roots.query
  touched : context'.selections ⊆ d.forest.known c.roots.query
  roots : context'.roots = context.roots
  asked : ∀ trail ∈ trails, ∃ x ∈ context'.selections, x.Leads trail
  given : List.Forall₂ (fun trail v => v = server.leafAt (Operation.query.text :: trail) ∨
    (v = .null ∧ ¬ c.cache.store.CoversWay (Operation.query.text :: trail))) trails values
  right : context'.freshness.missing = false →
    values = trails.map fun trail => server.leafAt (Operation.query.text :: trail)
  found : (∀ trail ∈ trails, c.cache.store.CoversWay (Operation.query.text :: trail)) →
    context'.freshness.missing = context.freshness.missing

namespace Truthful

section

variable (hdistinct : server.Distinct options.cache.identity) (hage : options.cache.maxAge = none)
  (hnamed : schema.Named)

include hdistinct hage hnamed

theorem perform (h : c.Truthful server options schema) (hplain : c.forest.Plain c.roots.query)
    (now : Nat) {context : Context} (hroots : context.roots.query = c.roots.query)
    (hselections : context.selections = []) {trails : List (List String)}
    (hserves : ∀ trail ∈ trails,
      server.Serves schema Operation.query.text [Operation.query.text] trail) :
    ∃ values context' d, c.perform now context (trailClosure trails) =
        (.ok (.array values), context', d) ∧
      Ran server options schema c context trails values context' d := by
  have hordered : (c.scene now c.cache context).Ordered c.roots.query :=
    ⟨hplain, by
      rw [scene, hselections]
      exact List.nil_subset _⟩
  obtain ⟨vs, s, hrun, hreads, htouched, hvs, hright, hcovered⟩ :=
    Accessor.readTrails_run hdistinct hnamed hserves hordered hroots h.types h.faithful
      (h.settings.symm ▸ hage)
  have hclosure : (trailClosure trails).run (c.scene now c.cache context) = (.ok (.array vs), s) :=
    (Attempt.run_bind_ok hrun).trans rfl
  have hnotices : c.notices ++ s.notices = c.notices := by
    rw [hreads.notices]
    exact List.append_nil _
  have hperform : c.perform now context (trailClosure trails) =
      (.ok (.array vs), s.context, { c with forest := s.forest, cache := s.cache }) := by
    rw [Client.perform, hclosure]
    simp only [hnotices]
  have htruthful : Truthful server options schema
      { c with forest := s.forest, cache := s.cache } :=
    ⟨hreads.cache.options.trans h.settings, h.types, hreads.cache.faithful h.faithful,
      fun field w hw => hreads.cache.covers h.faithful field w (h.covers field w hw), h.numbered,
      h.requests⟩
  exact ⟨vs, s.context, _, hperform, ⟨_, _, rfl⟩, htruthful, hreads.ordered.plain, hreads.known,
    hreads.ordered.known, hreads.roots, htouched, hvs, hright, hcovered⟩

/-- How a call goes on after its first run. Nothing was missing if it ends. -/
theorem resolve_cases (h : c.Truthful server options schema) (hplain : c.forest.Plain c.roots.query)
    (now id : Nat) (key : BatchKey) {trails : List (List String)}
    (hserves : ∀ trail ∈ trails,
      server.Serves schema Operation.query.text [Operation.query.text] trail) :
    ∃ values context d, c.perform now c.context (trailClosure trails) =
        (.ok (.array values), context, d) ∧
      Ran server options schema c c.context trails values context d ∧
      ((∃ e, c.resolve now id (trailClosure trails) .standard key = (.ended (.error e), d)) ∨
      (context.freshness.missing = false ∧
        (c.resolve now id (trailClosure trails) .standard key =
          (.ended (.ok (.array values)), d) ∨
        c.resolve now id (trailClosure trails) .standard key =
          (.ended (.ok (.array values)), (d.enlist context.selections key).2))) ∨
      c.resolve now id (trailClosure trails) .standard key =
        (.waits
          { id
            closure := trailClosure trails
            context
            awaited := .ticket (d.enlist context.selections key).1 },
        (d.enlist context.selections key).2)) := by
  have hroots : c.context.roots.query = c.roots.query := rfl
  obtain ⟨vs, context, d, hperform, hran⟩ :=
    h.perform hdistinct hage hnamed hplain now hroots rfl hserves
  have hrun : c.performFor now id .standard c.context (trailClosure trails) =
      (.ok (.array vs), context, d) := hperform
  refine ⟨vs, context, d, hperform, hran, ?_⟩
  simp only [Client.resolve, hrun, wantsFetch]
  split
  · exact .inl ⟨_, rfl⟩
  · split
    · exact .inr (.inr rfl)
    · rename_i hfetch
      have hmissing : context.freshness.missing = false := by
        rw [Bool.not_eq_true, Context.shouldFetch, Context.needsData, Bool.or_eq_false_iff,
          Bool.or_eq_false_iff] at hfetch
        exact hfetch.1.1
      split
      · exact .inr (.inl ⟨hmissing, .inr rfl⟩)
      · exact .inr (.inl ⟨hmissing, .inl rfl⟩)

/-- The second run of a call. -/
theorem conclude (h : c.Truthful server options schema) (hplain : c.forest.Plain c.roots.query)
    (now : Nat) {call : Call} (hroots : call.context.roots.query = c.roots.query)
    {trails : List (List String)} (hserves : ∀ trail ∈ trails,
      server.Serves schema Operation.query.text [Operation.query.text] trail)
    (hclosure : call.closure = trailClosure trails) {ticket : Ticket}
    (hawaited : call.awaited = .ticket ticket) :
    ∃ values context d, c.conclude now call (.ok ()) = (.ok (.array values), d) ∧
      c.perform now call.context.reset call.closure = (.ok (.array values), context, d) ∧
      Ran server options schema c call.context.reset trails values context d := by
  have hroots : call.context.reset.roots.query = c.roots.query := hroots
  obtain ⟨vs, context, d, hperform, hran⟩ :=
    h.perform hdistinct hage hnamed hplain now hroots rfl hserves
  refine ⟨vs, context, d, ?_, hclosure ▸ hperform, hran⟩
  simp only [Client.conclude, hawaited, hclosure, hperform]
  rfl

end

end Truthful
end Client
end LazyGraph
