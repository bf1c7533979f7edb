import LazyGraph.Proofs.Client.Delivery

/-!
Fetching: windows that close, requests that are shared, and fetches that are moved on. Each keeps
what is due.
-/
namespace LazyGraph.Client

variable {server : Server} {options : Options} {schema : Schema} {c d e : Client}

/-! ### Requests for documents -/

/-- The second client has requests for the documents. -/
structure Requested (documents : List Document) (c d : Client) (jobs : List Nat) : Prop where
  same : ∃ requests inFlight, d = { c with requests, inFlight }
  before : c.requests ⊆ d.requests
  fresh : ∀ r ∈ d.requests, r ∈ c.requests ∨ (r.phase = .unsent ∧ r.document ∈ documents)
  asked : ∀ x ∈ documents, ∃ r ∈ d.requests, r.id ∈ jobs ∧ r.document = x
  known : ∀ job ∈ jobs, ∃ r ∈ d.requests, r.id = job
  shared : ∀ q ∈ d.inFlight, ∃ r ∈ d.requests, r.id = q.2 ∧ r.hash = q.1.1
  joinable : ∀ r ∈ d.requests, (∃ q ∈ d.inFlight, q.2 = r.id) →
    (r ∈ c.requests ∧ ∃ q ∈ c.inFlight, q.2 = r.id) ∨ r.document ∈ documents
  numbered : ∀ r ∈ d.requests, r.id ≤ d.requests.length

theorem Requested.trans {xs ys : List Document} {jobs jobs' : List Nat}
    (h : Requested xs c d jobs) (h' : Requested ys d e jobs') :
    Requested (xs ++ ys) c e (jobs ++ jobs') where
  same := by
    obtain ⟨_, _, he⟩ := h.same
    obtain ⟨requests, inFlight, he'⟩ := h'.same
    exact ⟨requests, inFlight, he'.trans (by rw [he])⟩
  before := List.Subset.trans h.before h'.before
  fresh r hr := by
    rcases h'.fresh r hr with hr | ⟨hphase, hr⟩
    · rcases h.fresh r hr with hr | ⟨hphase, hr⟩
      · exact .inl hr
      · exact .inr ⟨hphase, List.mem_append_left ys hr⟩
    · exact .inr ⟨hphase, List.mem_append_right xs hr⟩
  asked x hx := by
    rcases List.mem_append.mp hx with hx | hx
    · obtain ⟨r, hr, hjob, hd⟩ := h.asked x hx
      exact ⟨r, h'.before hr, List.mem_append_left jobs' hjob, hd⟩
    · obtain ⟨r, hr, hjob, hd⟩ := h'.asked x hx
      exact ⟨r, hr, List.mem_append_right jobs hjob, hd⟩
  known job hjob := by
    rcases List.mem_append.mp hjob with hjob | hjob
    · obtain ⟨r, hr, hid⟩ := h.known job hjob
      exact ⟨r, h'.before hr, hid⟩
    · exact h'.known job hjob
  shared := h'.shared
  joinable r hr hq := by
    rcases h'.joinable r hr hq with ⟨hr, hq⟩ | hr
    · rcases h.joinable r hr hq with hjoin | hr
      · exact .inl hjoin
      · exact .inr (List.mem_append_left ys hr)
    · exact .inr (List.mem_append_right xs hr)
  numbered := h'.numbered

section

variable (hn : ∀ r ∈ c.requests, r.id ≤ c.requests.length)
  (hs : ∀ q ∈ c.inFlight, ∃ r ∈ c.requests, r.id = q.2 ∧ r.hash = q.1.1)

include hn hs

/-- A shared request is one for the same document where no digests collide. -/
theorem requestFor_requested (n : Nat) (document : Document) (extensions : Option (Fields Json))
    (hu : ∀ r ∈ c.requests, (∃ q ∈ c.inFlight, q.2 = r.id) → document.hash = r.hash →
      document = r.document) :
    Requested [document] c (c.requestFor (.group n) document extensions).2
      [(c.requestFor (.group n) document extensions).1] := by
  rw [requestFor]
  split
  · rename_i id hid
    have hin := Schedule.mem_of_lookup hid
    obtain ⟨r, hr, rfl, hhash⟩ := hs _ hin
    refine ⟨⟨_, _, rfl⟩, List.Subset.refl _, fun r hr => .inl hr, ?_, ?_, hs,
      fun r hr hq => .inl ⟨hr, hq⟩, hn⟩
    · refine List.forall_mem_singleton.mpr ⟨r, hr, List.mem_singleton.mpr rfl, ?_⟩
      exact (hu r hr ⟨_, hin, rfl⟩ hhash.symm).symm
    · exact List.forall_mem_singleton.mpr ⟨r, hr, rfl⟩
  · let r : Request :=
      { id := c.requests.length + 1, document, extensions, origin := .group n }
    have hr : r ∈ c.requests ++ [r] := List.mem_append_right _ (List.mem_singleton.mpr rfl)
    refine ⟨⟨_, _, rfl⟩, List.subset_append_left _ _, fun q hq => ?_, ?_, ?_, fun q hq => ?_,
      fun q hq hshared => ?_, fun q hq => ?_⟩
    · rcases List.mem_append.mp hq with hq | hq
      · exact .inl hq
      · rw [List.mem_singleton.mp hq]
        exact .inr ⟨rfl, List.mem_singleton.mpr rfl⟩
    · exact List.forall_mem_singleton.mpr ⟨r, hr, List.mem_singleton.mpr rfl, rfl⟩
    · exact List.forall_mem_singleton.mpr ⟨r, hr, rfl⟩
    · rcases List.mem_append.mp hq with hq | hq
      · obtain ⟨r', hr', rest⟩ := hs q hq
        exact ⟨r', List.mem_append_left _ hr', rest⟩
      · rw [List.mem_singleton.mp hq]
        exact ⟨r, hr, rfl, rfl⟩
    · rcases List.mem_append.mp hq with hq | hq
      · obtain ⟨p, hp, hid⟩ := hshared
        rcases List.mem_append.mp hp with hp | hp
        · exact .inl ⟨hq, p, hp, hid⟩
        · rw [List.mem_singleton.mp hp] at hid
          have hle := hn q hq
          rw [← hid] at hle
          exact absurd hle (Nat.not_succ_le_self _)
      · rw [List.mem_singleton.mp hq]
        exact .inr (List.mem_singleton.mpr rfl)
    · have hlength : (c.requests ++ [r]).length = c.requests.length + 1 := List.length_append
      have hgoal : q.id ≤ (c.requests ++ [r]).length := by
        rw [hlength]
        rcases List.mem_append.mp hq with hq | hq
        · exact Nat.le_succ_of_le (hn q hq)
        · exact Nat.le_of_eq (congrArg Request.id (List.mem_singleton.mp hq))
      exact hgoal

theorem requestAll_requested (n : Nat) (extensions : Option (Fields Json))
    {documents : List Document}
    (hd : ∀ x ∈ documents, ∀ y ∈ documents, x.hash = y.hash → x = y)
    (hu : ∀ x ∈ documents, ∀ r ∈ c.requests, (∃ q ∈ c.inFlight, q.2 = r.id) → x.hash = r.hash →
      x = r.document) :
    Requested documents c (c.requestAll (.group n) extensions documents).2
      (c.requestAll (.group n) extensions documents).1 := by
  induction documents generalizing c with
  | nil =>
      exact ⟨⟨_, _, rfl⟩, List.Subset.refl _, fun r hr => .inl hr, fun _ h => absurd h List.not_mem_nil,
        fun _ h => absurd h List.not_mem_nil, hs, fun r hr hq => .inl ⟨hr, hq⟩, hn⟩
  | cons document rest ih =>
      have hfirst := requestFor_requested hn hs n document extensions
        (hu document List.mem_cons_self)
      have hrest := ih hfirst.numbered hfirst.shared
        (fun x hx y hy => hd x (List.mem_cons_of_mem document hx) y (List.mem_cons_of_mem document hy))
        fun x hx r hr hq he => by
          have hx := List.mem_cons_of_mem document hx
          rcases hfirst.joinable r hr hq with ⟨hr, hq⟩ | hr
          · exact hu x hx r hr hq he
          · refine hd x hx r.document ?_ he
            rw [List.mem_singleton.mp hr]
            exact List.mem_cons_self
      exact hfirst.trans hrest

end

/-- The digests of the documents that a window asks for tell them apart, and from those that are
asked for at the time. -/
structure Unambiguous (c : Client) (documents : List Document) : Prop where
  apart : ∀ x ∈ documents, ∀ y ∈ documents, x.hash = y.hash → x = y
  others : ∀ x ∈ documents, ∀ r ∈ c.requests, (∃ q ∈ c.inFlight, q.2 = r.id) →
    x.hash = r.hash → x = r.document

theorem unambiguous_of_alone {documents : List Document} (hf : c.inFlight = [])
    (hd : documents.length ≤ 1) : Unambiguous c documents := by
  refine ⟨fun x hx y hy _ => ?_, fun x _ r _ ⟨q, hq, _⟩ => ?_⟩
  · cases documents with
    | nil => exact absurd hx List.not_mem_nil
    | cons d rest =>
        obtain rfl : rest = [] := List.length_eq_zero_iff.mp (Nat.le_zero.mp (Nat.le_of_succ_le_succ hd))
        rw [List.mem_singleton.mp hx, List.mem_singleton.mp hy]
  · rw [hf] at hq
    exact absurd hq List.not_mem_nil

/-- The client once the window of a group has closed and its documents are asked for. -/
def askFor (c : Client) (w : Window) (documents : List Document) (builder : Document.Builder) :
    Client :=
  let closed : Client := { c with schedule := (c.schedule.close w.group).2, builder }
  let (jobs, d) := closed.requestAll (.group w.group) w.key.extensions documents
  { d with fetches := d.fetches ++ [{ id := .group w.group, jobs }] }

theorem dispatch_eq_askFor {w : Window}
    (hw : c.schedule.windows.find? (·.group = w.group) = some w) {documents : List Document}
    {builder : Document.Builder}
    (hb : c.builder.build w.selections w.key.operationName = (.ok documents, builder)) :
    c.dispatch w.group = c.askFor w documents builder := by
  simp only [dispatch, Schedule.close, hw, startFetch, hb, askFor]

namespace Orderly

/-- What a window was to bring is brought by the fetch of its group once it has closed. -/
theorem forwards_close (h : c.Orderly server) {w : Window} (hw : w ∈ c.schedule.windows)
    {documents : List Document} (hasks : ∀ x ∈ w.selections, ∀ way, x.Leads way → way ≠ [] →
      ∃ document ∈ documents, document.Asks way) {jobs : List Nat} {requests : List Request}
    (hbefore : c.requests ⊆ requests)
    (hasked : ∀ x ∈ documents, ∃ r ∈ requests, r.id ∈ jobs ∧ r.document = x)
    (builder : Document.Builder) (inFlight : List (ContentKey × Nat)) :
    Forwards server c
      { c with
        schedule := (c.schedule.close w.group).2
        builder
        requests
        inFlight
        fetches := c.fetches ++ [{ id := .group w.group, jobs }] } := by
  refine forwards_of_brings rfl rfl (List.Subset.refl _) fun group way hway _ hb => ?_
  cases hb with
  | window hx hleads =>
      obtain ⟨v, hv, hgroup, hx⟩ := hx
      by_cases he : group = w.group
      · have hsame := List.inj_on_of_nodup_map h.schedule.distinct hv hw (hgroup.trans he)
        rw [hsame] at hx
        obtain ⟨document, hdocument, ha⟩ := hasks _ hx way hleads hway
        obtain ⟨r, hr, hjob, rfl⟩ := hasked document hdocument
        exact .fetch (List.mem_append_right _ (List.mem_singleton.mpr rfl)) (congrArg _ he.symm) hr
          hjob ha
      · refine .window ⟨v, List.mem_filter.mpr ⟨hv, ?_⟩, hgroup, hx⟩ hleads
        exact decide_eq_true (hgroup.symm ▸ he)
  | fetch hf hid hr hjob ha =>
      exact .fetch (List.mem_append_left _ hf) hid (hbefore hr) hjob ha
  | told ht => exact .told ht

/-- A window closes: what it was to bring is asked for. -/
theorem dispatch (h : c.Orderly server) (hn : ∀ r ∈ c.requests, r.id ≤ c.requests.length)
    {w : Window} (hw : w ∈ c.schedule.windows)
    (hu : ∀ documents, (c.builder.build w.selections w.key.operationName).1 = .ok documents →
      Unambiguous c documents) :
    (c.dispatch w.group).Orderly server ∧ Forwards server c (c.dispatch w.group) := by
  obtain ⟨hbuilder, documents, hdocuments, hasks⟩ :=
    h.builder.build h.plain (h.windows w hw) w.key.operationName
  have hunambiguous := hu documents hdocuments
  cases hb : c.builder.build w.selections w.key.operationName with
  | mk result builder =>
      rw [hb] at hbuilder hdocuments
      cases hdocuments
      rw [dispatch_eq_askFor (h.schedule.find? hw) hb, askFor]
      let closed : Client := { c with schedule := (c.schedule.close w.group).2, builder }
      have hrequested : Requested documents closed _ _ :=
        requestAll_requested (c := closed) hn h.shared w.group w.key.extensions hunambiguous.apart
          hunambiguous.others
      generalize closed.requestAll (.group w.group) w.key.extensions documents = requested
        at hrequested ⊢
      obtain ⟨jobs, d⟩ := requested
      obtain ⟨⟨requests, inFlight, rfl⟩, hbefore, hfresh, hasked, hknown, hshared, _⟩ := hrequested
      obtain ⟨hlt, hnone⟩ := h.schedule.opened w hw
      have hforwards := h.forwards_close hw hasks hbefore hasked builder inFlight
      have hfetches : ∀ f ∈ c.fetches ++ [{ id := .group w.group, jobs }],
          f ∈ c.fetches ∨ f = { id := .group w.group, jobs } :=
        fun f hf => (List.mem_append.mp hf).imp_right List.mem_singleton.mp
      refine ⟨⟨h.plain, hbuilder, h.schedule.close w.group,
        fun v hv => h.windows v (List.mem_of_mem_filter hv), ?_, fun f hf => ?_,
        fun f hf job hjob => ?_, hshared, fun r hr hphase => ?_,
        h.pending_forwards hforwards (List.Subset.refl _)⟩, hforwards⟩
      · refine Schedule.nodup_map_concat h.distinct fun f hf => ?_
        obtain ⟨group, hid, _, _, hclosed⟩ := h.running f hf
        rw [hid]
        exact fun e => hclosed w hw (FetchId.group.inj e).symm
      · rcases hfetches f hf with hf | rfl
        · obtain ⟨group, hid, hglt, hgnone, hclosed⟩ := h.running f hf
          exact ⟨group, hid, hglt, hgnone, fun v hv => hclosed v (List.mem_of_mem_filter hv)⟩
        · exact ⟨w.group, rfl, hlt, hnone, fun v hv => of_decide_eq_true (List.mem_filter.mp hv).2⟩
      · rcases hfetches f hf with hf | rfl
        · obtain ⟨r, hr, hid⟩ := h.jobs f hf job hjob
          exact ⟨r, hbefore hr, hid⟩
        · exact hknown job hjob
      · rcases hfresh r hr with hr | ⟨hunsent, _⟩
        · exact h.finished r hr hphase
        · cases hunsent.symm.trans hphase

theorem answer (h : c.Orderly server) (id : Nat) (a : Except TransportError ExecutionResult) :
    (c.answer id a).Orderly server ∧ Forwards server c (c.answer id a) := by
  rw [Client.answer]
  split
  · exact h.setPhase id fun e => by cases e
  · exact ⟨h, .refl c⟩

/-! ### Polling -/

section

variable (hdistinct : server.Distinct options.cache.identity)
  (hresolver : ∀ n, options.cache.normalizer = some n → n.resolver = none)
  (hage : options.cache.maxAge = none)

include hdistinct hresolver hage

theorem deliver (h : c.Orderly server) (ht : c.Truthful server options schema) (now : Nat)
    {r : Request} {answer : Except TransportError ExecutionResult} (hr : r ∈ c.requests)
    (ha : r.phase = .answered answer) :
    (c.deliver now r answer).Orderly server ∧ Forwards server c (c.deliver now r answer) := by
  obtain ⟨cache, notice, hdelivered, hnotice, _⟩ :=
    ht.deliver hdistinct hresolver hage now hr ha
  let stored : Client := { c with cache, notices := c.notices ++ [notice] }
  have hforwards : Forwards server c stored :=
    forwards_of_subset rfl rfl (fun _ _ hx => hx) (List.Subset.refl _)
      (fun r hr => ⟨r, hr, rfl, rfl⟩) (List.subset_append_left _ _)
  have hstored : stored.Orderly server :=
    ⟨h.plain, h.builder, h.schedule, h.windows, h.distinct, h.running, h.jobs, h.shared,
      fun q hq hphase way hasks =>
        (h.finished q hq hphase way hasks).mono (List.subset_append_left _ _),
      h.pending_forwards hforwards (List.Subset.refl _)⟩
  have htold : ∀ q ∈ c.requests, q.id = r.id → ∀ way, q.document.Asks way →
      stored.Told server way := by
    intro q hq hid way hasks
    obtain rfl := ht.eq_of_id hq hr hid
    rw [hasks.operation] at hnotice
    exact ⟨_, hasks, notice, List.mem_append_right _ (List.mem_singleton.mpr rfl), hnotice⟩
  obtain ⟨horderly, hforwards'⟩ := hstored.setPhase r.id fun (_ : .finished (.ok ()) = _) => htold
  rw [hdelivered]
  exact ⟨horderly, hforwards.trans hforwards'⟩

/-- The requests that a fetch has yet to look at, behind those that it waits for. -/
theorem pollJobs (h : c.Orderly server) (ht : c.Truthful server options schema) (now : Nat)
    {id : FetchId} {waiting jobs : List Nat} (hf : ({ id, jobs := waiting ++ jobs } : Fetch) ∈ c.fetches) :
    (c.pollJobs now id waiting jobs).2.Orderly server ∧
      Forwards server c (c.pollJobs now id waiting jobs).2 := by
  induction jobs generalizing c waiting with
  | nil =>
      rw [Client.pollJobs]
      split
      · rename_i hempty
        rw [List.isEmpty_iff.mp hempty] at hf
        exact h.endFetch hf fun _ => rfl
      · exact ⟨h, .refl c⟩
  | cons job jobs ih =>
      obtain ⟨q, hq, hid⟩ := h.jobs _ hf job (List.mem_append_right _ List.mem_cons_self)
      rw [Client.pollJobs]
      split
      · rename_i hnone
        rw [request?, List.find?_eq_none] at hnone
        exact absurd (beq_iff_eq.mpr hid) (hnone q hq)
      · rename_i r hr
        obtain ⟨hmem, hrid⟩ := request?_eq_some hr
        split
        · exact h.setPhase r.id fun e => by cases e
        · exact ih h ht (by rwa [List.append_assoc])
        · exact h.deliver hdistinct hresolver hage ht now hmem ‹_›
        · rename_i hphase
          obtain ⟨inFlight, hreleased, hkept, hforwards⟩ := h.releases [job]
          have hreleased : c.release job = { c with inFlight } := hreleased
          have htold : ∀ way, r.document.Asks way → c.Told server way := h.finished r hmem hphase
          have hleft : ∀ x ∈ waiting ++ job :: jobs, x = job ∨ x ∈ waiting ++ jobs := by
            intro x hx
            rcases List.mem_append.mp hx with hx | hx
            · exact .inr (List.mem_append_left _ hx)
            · exact (List.mem_cons.mp hx).imp_right (List.mem_append_right _)
          have hsub : waiting ++ jobs ⊆ waiting ++ job :: jobs :=
            List.append_subset.mpr ⟨List.subset_append_left _ _, fun x hx =>
              List.mem_append_right _ (List.mem_cons_of_mem job hx)⟩
          obtain ⟨hset, hforwards'⟩ := hkept.setJobs hf hsub fun q hq hjob => by
            rcases hleft q.id hjob with he | hin
            · obtain rfl := ht.eq_of_id hq hmem (he.trans hrid.symm)
              exact .inr htold
            · exact .inl hin
          have htruthful := (ht.release job).setJobs id (waiting ++ jobs)
          rw [hreleased] at htruthful ⊢
          have hin : ({ id, jobs := waiting ++ jobs } : Fetch) ∈
              (Client.setJobs { c with inFlight } id (waiting ++ jobs)).fetches :=
            List.mem_map.mpr ⟨_, hf, if_pos rfl⟩
          obtain ⟨horderly, hforwards''⟩ := ih hset htruthful hin
          exact ⟨horderly, (hforwards.trans hforwards').trans hforwards''⟩
        · exact h.endFetch hf fun e => by cases e

theorem pollFetch (h : c.Orderly server) (ht : c.Truthful server options schema) (now : Nat)
    (id : FetchId) :
    (c.pollFetch now id).2.Orderly server ∧ Forwards server c (c.pollFetch now id).2 := by
  rw [Client.pollFetch]
  split
  · rename_i f hf
    rw [fetch?] at hf
    have hid := List.find?_some hf
    simp only [decide_eq_true_eq] at hid
    have hmem := List.mem_of_find?_eq_some hf
    subst hid
    exact h.pollJobs hdistinct hresolver hage ht now hmem
  · exact ⟨h, .refl c⟩

end

end Orderly
end LazyGraph.Client
