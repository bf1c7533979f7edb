import LazyGraph.Proofs.Client.Fetching

/-!
Interleavings: a client and the calls that wait on it, moved on one transition at a time, in any
order.
-/
namespace LazyGraph.Client

/-- A client with the calls that wait, each with the trails that it reads. -/
structure World where
  client : Client
  calls : List (List (List String) × Call) := []

namespace World

/-- A call that reads trails makes its first run. -/
def resolve (w : World) (now id : Nat) (trails : List (List String)) (key : BatchKey) : World :=
  match w.client.resolve now id (trailClosure trails) .standard key with
  | (.ended _, c) => { w with client := c }
  | (.waits call, c) => { client := c, calls := w.calls ++ [(trails, call)] }

/-- The window of a group closes. -/
def dispatch (w : World) (group : Nat) : World := { w with client := w.client.dispatch group }

/-- A fetch is moved on. -/
def poll (w : World) (now : Nat) (id : FetchId) : World :=
  { w with client := (w.client.pollFetch now id).2 }

/-- The answer to a request comes. -/
def answer (w : World) (request : Nat) (a : Except TransportError ExecutionResult) : World :=
  { w with client := w.client.answer request a }

/-- The call at a place makes its second run. -/
def conclude (w : World) (now place : Nat) (call : Call) (result : FetchResult) : World :=
  { client := (w.client.conclude now call result).2
    calls := w.calls.eraseIdx place }

/-- One transition of a client with the schema, where the server answers each request with what it
holds. -/
inductive Step (server : Server) (schema : Schema) : World → World → Prop
  | resolve {w : World} (now id : Nat) {trails : List (List String)} (key : BatchKey)
    (serves : ∀ trail ∈ trails,
      server.Serves schema Operation.query.text [Operation.query.text] trail) :
    Step server schema w (w.resolve now id trails key)
  | dispatch {w : World} {window : Window} (opened : window ∈ w.client.schedule.windows)
    (unambiguous : ∀ documents,
      (w.client.builder.build window.selections window.key.operationName).1 = .ok documents →
        Unambiguous w.client documents) :
    Step server schema w (w.dispatch window.group)
  | poll {w : World} (now : Nat) (id : FetchId) : Step server schema w (w.poll now id)
  | answer {w : World} {r : Request} (asked : w.client.request? r.id = some r) :
    Step server schema w (w.answer r.id (.ok (server.reply r.document)))
  | conclude {w : World} (now : Nat) {place : Nat} {trails : List (List String)} {call : Call}
    {ticket : Ticket} {result : FetchResult} (waits : w.calls[place]? = some (trails, call))
    (awaits : call.awaited = .ticket ticket)
    (settled : w.client.schedule.outcome? ticket = some result) :
    Step server schema w (w.conclude now place call result)

/-- What transitions lead to from a new client. -/
inductive Reachable (server : Server) (options : Options) (schema : Schema) : World → Prop
  | new (hasSubscriber : Bool) :
    Reachable server options schema { client := .new schema hasSubscriber options }
  | step {w w' : World} (before : Reachable server options schema w) (step : Step server schema w w') :
    Reachable server options schema w'

variable {server : Server} {options : Options} {schema : Schema} {w w' : World}

/-- What a call that waits keeps of its first run, and what it is owed. -/
structure Waits (server : Server) (schema : Schema) (c : Client) (trails : List (List String))
    (call : Call) : Prop where
  serves : ∀ trail ∈ trails,
    server.Serves schema Operation.query.text [Operation.query.text] trail
  reads : call.closure = trailClosure trails
  roots : call.context.roots.query = c.roots.query
  due : ∃ ticket, call.awaited = .ticket ticket ∧
    ∀ trail ∈ trails, ∃ group ∈ ticket, c.Due server group trail

theorem serves_ne_nil {type : String} {p trail : List String} (h : server.Serves schema type p trail) :
    trail ≠ [] := by
  rintro rfl
  exact h

theorem Waits.forwards {c d : Client} {trails : List (List String)} {call : Call}
    (h : Waits server schema c trails call) (hf : Forwards server c d) :
    Waits server schema d trails call where
  serves := h.serves
  reads := h.reads
  roots := h.roots.trans (congrArg Roots.query hf.roots.symm)
  due := by
    obtain ⟨ticket, hawaited, hdue⟩ := h.due
    refine ⟨ticket, hawaited, fun trail ht => ?_⟩
    obtain ⟨group, hgroup, hdue⟩ := hdue trail ht
    exact ⟨group, hgroup, hf.due group trail (serves_ne_nil (h.serves trail ht)) hdue⟩

/-- The invariant of all interleavings. -/
structure Sound (server : Server) (options : Options) (schema : Schema) (w : World) : Prop where
  truthful : w.client.Truthful server options schema
  orderly : w.client.Orderly server
  waits : ∀ q ∈ w.calls, Waits server schema w.client q.1 q.2

theorem Sound.move (h : w.Sound server options schema) {c : Client}
    (ht : c.Truthful server options schema) (ho : c.Orderly server ∧ Forwards server w.client c) :
    Sound server options schema { w with client := c } :=
  ⟨ht, ho.1, fun q hq => (h.waits q hq).forwards ho.2⟩

section

variable (hdistinct : server.Distinct options.cache.identity)
  (hresolver : ∀ n, options.cache.normalizer = some n → n.resolver = none)
  (hage : options.cache.maxAge = none) (hnamed : schema.Named)

include hdistinct hage hnamed

/-- The first run of a call. What was touched is due if the call waits. -/
theorem Sound.resolve (h : w.Sound server options schema) (now id : Nat)
    {trails : List (List String)} (key : BatchKey) (hserves : ∀ trail ∈ trails,
      server.Serves schema Operation.query.text [Operation.query.text] trail) :
    (w.resolve now id trails key).Sound server options schema := by
  obtain ⟨vs, context, d, _, hran, hcases⟩ :=
    h.truthful.resolve_cases hdistinct hage hnamed h.orderly.plain now id key hserves
  obtain ⟨⟨forest, cache, rfl⟩, htruthful, hplain, hknown, htouched, hroots, hasked, _⟩ := hran
  obtain ⟨hgrown, hforwards⟩ := h.orderly.grow cache hplain hknown
  obtain ⟨henlisted, hforwards', hdue⟩ := hgrown.enlist htouched key
  have hafter := hforwards.trans hforwards'
  have hticket := htruthful.enlist context.selections key
  obtain ⟨e, he⟩ | ⟨_, he | he⟩ | he := hcases
  · rw [World.resolve, he]
    exact h.move htruthful ⟨hgrown, hforwards⟩
  · rw [World.resolve, he]
    exact h.move htruthful ⟨hgrown, hforwards⟩
  · rw [World.resolve, he]
    exact h.move hticket ⟨henlisted, hafter⟩
  · rw [World.resolve, he]
    refine ⟨hticket, henlisted, fun q hq => ?_⟩
    rcases List.mem_append.mp hq with hq | hq
    · exact (h.waits q hq).forwards hafter
    · rw [List.mem_singleton.mp hq]
      refine ⟨hserves, rfl, congrArg Roots.query hroots, _, rfl, fun trail ht => ?_⟩
      obtain ⟨x, hx, hleads⟩ := hasked trail ht
      exact hdue x hx trail hleads (serves_ne_nil (hserves trail ht))

include hresolver

theorem Sound.step (h : w.Sound server options schema) (hstep : Step server schema w w') :
    w'.Sound server options schema := by
  cases hstep with
  | resolve now id key hserves =>
      exact h.resolve hdistinct hage hnamed now id key hserves
  | dispatch hopened hunambiguous =>
      exact h.move (h.truthful.dispatch _) (h.orderly.dispatch h.truthful.id_le hopened hunambiguous)
  | poll now id =>
      exact h.move (h.truthful.pollFetch hdistinct hresolver hage now id)
        (h.orderly.pollFetch hdistinct hresolver hage h.truthful now id)
  | answer hasked => exact h.move (h.truthful.answer hasked) (h.orderly.answer _ _)
  | @conclude now place trails call ticket result hcall hawaits hsettled =>
      have hcall := h.waits _ (List.mem_of_getElem? hcall)
      have hleft : ∀ q ∈ w.calls.eraseIdx place, q ∈ w.calls :=
        fun q hq => List.mem_of_mem_eraseIdx hq
      cases result with
      | error e => exact ⟨h.truthful, h.orderly, fun q hq => h.waits q (hleft q hq)⟩
      | ok =>
          obtain ⟨vs, context, d, hconclude, _, hran⟩ := h.truthful.conclude hdistinct hage hnamed
            h.orderly.plain now hcall.roots hcall.serves hcall.reads hawaits
          obtain ⟨⟨forest, cache, rfl⟩, htruthful, hplain, hknown, _⟩ := hran
          obtain ⟨hgrown, hforwards⟩ := h.orderly.grow cache hplain hknown
          rw [World.conclude, hconclude]
          exact ⟨htruthful, hgrown, fun q hq => (h.waits q (hleft q hq)).forwards hforwards⟩

theorem Reachable.sound (h : Reachable server options schema w) :
    w.Sound server options schema := by
  induction h with
  | new hasSubscriber =>
      exact ⟨.new server options schema hasSubscriber, orderly_new server schema hasSubscriber options,
        fun _ h => absurd h List.not_mem_nil⟩
  | step _ hstep ih => exact ih.step hdistinct hresolver hage hnamed hstep

end

/-! ### Runs of one window and one request at a time -/

/-- The only window closes, if its selections are in order and compile. -/
def close (w : World) : World :=
  match w.client.schedule.windows with
  | [v] =>
    match Document.ofArranged v.selections v.key.operationName with
    | .ok documents =>
      let builder := w.client.builder.afterBuild v.selections v.key.operationName documents
      { w with client := w.client.askFor v documents builder }
    | .error _ => w
  | _ => w

/-- Whether the only window can close without a sort, and asks for a document that no other request
is compared with. -/
def canClose (w : World) : Bool :=
  match w.client.schedule.windows with
  | [v] =>
    w.client.inFlight.isEmpty &&
    decide (v.selections.Pairwise (·.signature < ·.signature)) &&
    (Recency.peek? w.client.builder.memo
      (v.key.operationName.getD "", v.selections.map (·.id))).isNone &&
    match Document.ofArranged v.selections v.key.operationName with
    | .ok documents => decide (documents.length ≤ 1)
    | .error _ => false
  | _ => false

theorem Reachable.close (h : Reachable server options schema w) (hc : w.canClose = true) :
    Reachable server options schema w.close := by
  rw [canClose] at hc
  split at hc
  · rename_i v hv
    simp only [Bool.and_eq_true, List.isEmpty_iff, decide_eq_true_eq, Option.isNone_iff_eq_none] at hc
    obtain ⟨⟨⟨hflight, hsorted⟩, hnew⟩, hcompiled⟩ := hc
    split at hcompiled
    · rename_i documents hdocuments
      have hbuild := w.client.builder.build_of_sorted hsorted hnew hdocuments
      have hopened : v ∈ w.client.schedule.windows := hv ▸ List.mem_singleton.mpr rfl
      have hfound : w.client.schedule.windows.find? (·.group = v.group) = some v := by
        rw [hv, List.find?_singleton]
        exact if_pos (decide_eq_true rfl)
      have hclosed := h.step (.dispatch hopened fun others hothers => by
        rw [hbuild] at hothers
        cases hothers
        exact unambiguous_of_alone hflight (of_decide_eq_true hcompiled))
      rw [World.dispatch, dispatch_eq_askFor hfound hbuild] at hclosed
      simp only [World.close, hv, hdocuments]
      exact hclosed
    · cases hcompiled
  · cases hc

/-- A fetch sends its request, gets the answer of the server, takes it up and ends. -/
def fetch (w : World) (server : Server) (now group request : Nat) : World :=
  let sent := w.poll now (.group group)
  let answered :=
    match sent.client.request? request with
    | some r => sent.answer r.id (.ok (server.reply r.document))
    | none => sent
  (answered.poll now (.group group)).poll now (.group group)

theorem Reachable.fetch (h : Reachable server options schema w) (now group request : Nat) :
    Reachable server options schema (w.fetch server now group request) := by
  have hsent := h.step (.poll now (.group group))
  rw [World.fetch]
  split
  · rename_i r hr
    obtain ⟨_, rfl⟩ := request?_eq_some hr
    exact ((hsent.step (.answer hr)).step (.poll now (.group group))).step (.poll now (.group group))
  · exact (hsent.step (.poll now (.group group))).step (.poll now (.group group))

end World
end LazyGraph.Client
