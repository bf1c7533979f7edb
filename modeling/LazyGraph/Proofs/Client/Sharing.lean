import LazyGraph.Proofs.Client.Transition
import LazyGraph.Proofs.Client.Truthful

/-!
Shared requests. A request that groups await can be joined, and is the only one for its content,
as long as no fetch has given it up. The entry of a request that one of its fetches gave up is
gone for the others as well.
-/
namespace LazyGraph.Client

namespace Request

def isFinished (r : Request) : Bool :=
  match r.phase with
  | .finished _ => true
  | _ => false

end Request

/-- What makes two requests for a document the same. -/
def contentKey (d : Document) (extensions : Option (Fields Json)) : ContentKey :=
  (d.hash, extensions.map fun e => Json.canonical (.object e))

def Request.key (r : Request) : ContentKey := contentKey r.document r.extensions

/-- Whether it is known how a request has ended. -/
def isFinished (c : Client) (id : Nat) : Bool := (c.request? id).any (·.isFinished)

/-- Some group waits for the request, which has not ended. -/
structure Awaits (c : Client) (r : Request) : Prop where
  asked : r ∈ c.requests
  unfinished : r.isFinished = false
  held : ∃ f ∈ c.fetches, ∃ group, f.id = .group group ∧ r.id ∈ f.jobs

/-- The requests that a fetch gave up which has ended between two clients. -/
def givenUp (c d : Client) : List Nat :=
  ((c.fetches.filter fun f => !d.fetches.any (·.id = f.id)).flatMap (·.jobs)).filter
    fun id => !d.isFinished id

/-- The clients that come about by transitions, with the requests that were given up on the way. -/
inductive Run : Client → List Nat → Prop
  | new (schema : Schema) (hasSubscriber : Bool) (options : Options) :
    Run (.new schema hasSubscriber options) []
  | step {c d : Client} {lost : List Nat} (run : Run c lost) (transition : Transition c d) :
    Run d (lost ++ givenUp c d)

/-- The bookkeeping of shared requests. -/
structure Sharing (c : Client) (lost : List Nat) : Prop where
  schedule : c.schedule.Orderly
  distinct : (c.fetches.map (·.id)).Nodup
  running : ∀ f ∈ c.fetches, ∀ group, f.id = .group group →
    group < c.schedule.nextGroup ∧ ∀ w ∈ c.schedule.windows, w.group ≠ group
  ids : (c.requests.map (·.id)).Nodup
  numbered : ∀ r ∈ c.requests, r.id ≤ c.requests.length
  jobs : ∀ f ∈ c.fetches, ∀ job ∈ f.jobs, ∃ r ∈ c.requests, r.id = job
  keys : (c.inFlight.map (·.1)).Nodup
  entries : ∀ q ∈ c.inFlight, ∃ r ∈ c.requests, r.id = q.2 ∧ r.key = q.1
  registered : ∀ r, c.Awaits r → r.id ∉ lost → (r.key, r.id) ∈ c.inFlight
  lost : ∀ id ∈ lost, (∃ r ∈ c.requests, r.id = id) ∧ ∀ q ∈ c.inFlight, q.2 ≠ id

variable {c d e : Client} {lost : List Nat}

theorem request?_of_mem (ids : (c.requests.map (·.id)).Nodup) {r : Request} (hr : r ∈ c.requests) :
    c.request? r.id = some r := by
  have hfound := Schedule.find?_of_mem ids hr
  rw [request?]
  refine (congrArg (fun p => c.requests.find? p) (funext fun q => ?_)).trans hfound
  exact Bool.beq_eq_decide_eq q.id r.id

theorem ids_setPhase (c : Client) (id : Nat) (phase : Phase) :
    (c.setPhase id phase).requests.map (·.id) = c.requests.map (·.id) := by
  rw [setPhase, List.map_map]
  refine List.map_congr_left fun r _ => ?_
  simp only [Function.comp_apply]
  split <;> rfl

namespace Sharing

theorem new (schema : Schema) (hasSubscriber : Bool) (options : Options) :
    Sharing (.new schema hasSubscriber options) [] where
  schedule := .empty
  distinct := List.nodup_nil
  running _ h := absurd h List.not_mem_nil
  ids := List.nodup_nil
  numbered _ h := absurd h List.not_mem_nil
  jobs _ h := absurd h List.not_mem_nil
  keys := List.nodup_nil
  entries _ h := absurd h List.not_mem_nil
  registered _ h := absurd h.asked List.not_mem_nil
  lost _ h := absurd h List.not_mem_nil

theorem eq_of_id (h : c.Sharing lost) {q r : Request} (hq : q ∈ c.requests) (hr : r ∈ c.requests)
    (he : q.id = r.id) : q = r :=
  List.inj_on_of_nodup_map h.ids hq hr he

theorem request?_of_mem (h : c.Sharing lost) {r : Request} (hr : r ∈ c.requests) :
    c.request? r.id = some r :=
  Client.request?_of_mem h.ids hr

theorem isFinished_eq (h : c.Sharing lost) {r : Request} (hr : r ∈ c.requests) :
    c.isFinished r.id = r.isFinished := by
  rw [isFinished, h.request?_of_mem hr]
  rfl

theorem congr {lost' : List Nat} (h : c.Sharing lost) (he : ∀ id, id ∈ lost ↔ id ∈ lost') :
    c.Sharing lost' :=
  { h with
    registered := fun r hr hn => h.registered r hr (mt (he r.id).mp hn)
    lost := fun id hid => h.lost id ((he id).mpr hid) }

theorem apart (h : c.Sharing lost) (ha : Apart c d) : d.Sharing lost := by
  constructor
  case schedule => exact ha.schedule ▸ h.schedule
  case distinct => exact ha.fetches ▸ h.distinct
  case running =>
    rw [ha.fetches, ha.schedule]
    exact h.running
  case ids => exact ha.requests ▸ h.ids
  case numbered => exact ha.requests ▸ h.numbered
  case jobs =>
    rw [ha.fetches, ha.requests]
    exact h.jobs
  case keys => exact ha.inFlight ▸ h.keys
  case entries =>
    rw [ha.inFlight, ha.requests]
    exact h.entries
  case registered =>
    intro r hr hn
    rw [ha.inFlight]
    exact h.registered r ⟨ha.requests ▸ hr.asked, hr.unfinished, ha.fetches ▸ hr.held⟩ hn
  case lost =>
    rw [ha.requests, ha.inFlight]
    exact h.lost

theorem enlist (h : c.Sharing lost) (selections : List Selection) (key : BatchKey) :
    (c.enlist selections key).2.Sharing lost := by
  obtain ⟨hadds, _⟩ := Schedule.adds_add h.schedule selections key
  refine
    { h with
      schedule := hadds.orderly
      running := fun f hf group hid => ?_
      registered := fun r hr => h.registered r ⟨hr.asked, hr.unfinished, hr.held⟩ }
  obtain ⟨hlt, hclosed⟩ := h.running f hf group hid
  refine ⟨Nat.lt_of_lt_of_le hlt hadds.nextGroup, fun w hw => ?_⟩
  rcases hadds.windows w hw with ⟨w', hw', he⟩ | hle
  · exact he ▸ hclosed w' hw'
  · exact Nat.ne_of_gt (Nat.lt_of_lt_of_le hlt hle)

/-! ### Requests -/

/-- What is known of a request changes. An ended request stays as it is, or ends again. -/
theorem setPhase (h : c.Sharing lost) (id : Nat) {phase : Phase}
    (hp : (∃ result, phase = .finished result) ∨ c.isFinished id = false) :
    (c.setPhase id phase).Sharing lost := by
  let put (r : Request) : Request := if r.id == id then { r with phase } else r
  have hput : ∀ r, (put r).id = r.id ∧ (put r).key = r.key := by
    intro r
    simp only [put]
    split <;> exact ⟨rfl, rfl⟩
  have hkept : ∀ r ∈ c.requests, put r ∈ (c.setPhase id phase).requests :=
    fun r hr => List.mem_map_of_mem hr
  constructor
  case schedule => exact h.schedule
  case distinct => exact h.distinct
  case running => exact h.running
  case ids => exact (ids_setPhase c id phase).symm ▸ h.ids
  case numbered =>
    intro r hr
    obtain ⟨q, hq, rfl⟩ := List.mem_map.mp hr
    have hle := h.numbered q hq
    rw [Client.setPhase, List.length_map]
    exact Nat.le_trans (Nat.le_of_eq (hput q).1) hle
  case jobs =>
    intro f hf job hj
    obtain ⟨r, hr, rfl⟩ := h.jobs f hf job hj
    exact ⟨put r, hkept r hr, (hput r).1⟩
  case keys => exact h.keys
  case entries =>
    intro q hq
    obtain ⟨r, hr, hid, hkey⟩ := h.entries q hq
    exact ⟨put r, hkept r hr, (hput r).1.trans hid, (hput r).2.trans hkey⟩
  case registered =>
    intro r hr hn
    obtain ⟨q, hq, rfl⟩ := List.mem_map.mp hr.asked
    have hunfinished : q.isFinished = false := by
      have hr := hr.unfinished
      split at hr
      · rename_i hid
        obtain ⟨result, rfl⟩ | hp := hp
        · cases hr
        · rw [← eq_of_beq hid, h.isFinished_eq hq] at hp
          exact hp
      · exact hr
    obtain ⟨f, hf, group, hid, hjob⟩ := hr.held
    have hmem := h.registered q ⟨hq, hunfinished, f, hf, group, hid, (hput q).1 ▸ hjob⟩
      ((hput q).1 ▸ hn)
    exact (hput q).1.symm ▸ (hput q).2.symm ▸ hmem
  case lost =>
    intro i hi
    obtain ⟨⟨r, hr, hid⟩, hfree⟩ := h.lost i hi
    exact ⟨⟨put r, hkept r hr, (hput r).1.trans hid⟩, hfree⟩

/-- A request that is new, which nobody holds yet. -/
theorem newRequest (h : c.Sharing lost) (origin : FetchId) (document : Document)
    (extensions : Option (Fields Json)) :
    (c.newRequest origin document extensions).2.Sharing lost := by
  let r : Request := { id := c.requests.length + 1, document, extensions, origin }
  have hmem : ∀ q ∈ c.requests ++ [r], q ∈ c.requests ∨ q = r :=
    fun q hq => (List.mem_append.mp hq).imp_right List.mem_singleton.mp
  constructor
  case schedule => exact h.schedule
  case distinct => exact h.distinct
  case running => exact h.running
  case ids =>
    refine Schedule.nodup_map_concat h.ids fun q hq => ?_
    exact Nat.ne_of_lt (Nat.lt_succ_of_le (h.numbered q hq))
  case numbered =>
    have hlength : (c.requests ++ [r]).length = c.requests.length + 1 := List.length_append
    intro q hq
    refine Nat.le_trans ?_ (Nat.le_of_eq hlength.symm)
    rcases hmem q hq with hq | rfl
    · exact Nat.le_succ_of_le (h.numbered q hq)
    · exact Nat.le_refl _
  case jobs =>
    intro f hf job hj
    obtain ⟨q, hq, hid⟩ := h.jobs f hf job hj
    exact ⟨q, List.mem_append_left _ hq, hid⟩
  case keys => exact h.keys
  case entries =>
    intro q hq
    obtain ⟨p, hp, hid⟩ := h.entries q hq
    exact ⟨p, List.mem_append_left _ hp, hid⟩
  case registered =>
    intro q hq hn
    rcases hmem q hq.asked with hold | rfl
    · exact h.registered q ⟨hold, hq.unfinished, hq.held⟩ hn
    · obtain ⟨f, hf, _, _, hjob⟩ := hq.held
      obtain ⟨p, hp, hid⟩ := h.jobs f hf _ hjob
      exact absurd (h.numbered p hp) (hid ▸ Nat.not_succ_le_self _)
  case lost =>
    intro id hid
    obtain ⟨⟨q, hq, he⟩, hfree⟩ := h.lost id hid
    exact ⟨⟨q, List.mem_append_left _ hq, he⟩, hfree⟩

/-- The requests that documents are asked for with are known, and registered if a group asks. -/
structure Asked (c d : Client) (lost : List Nat) (origin : FetchId) (jobs : List Nat) : Prop where
  sharing : d.Sharing lost
  same : d.fetches = c.fetches ∧ d.schedule = c.schedule
  before : c.requests ⊆ d.requests
  registry : c.inFlight ⊆ d.inFlight
  known : ∀ job ∈ jobs, ∃ r ∈ d.requests, r.id = job
  shared : ∀ group, origin = .group group → ∀ job ∈ jobs, ∃ q ∈ d.inFlight, q.2 = job

theorem requestFor (h : c.Sharing lost) (origin : FetchId) (document : Document)
    (extensions : Option (Fields Json)) :
    Asked c (c.requestFor origin document extensions).2 lost origin
      [(c.requestFor origin document extensions).1] := by
  let r : Request := { id := c.requests.length + 1, document, extensions, origin }
  have hnew := h.newRequest origin document extensions
  have hr : r ∈ (c.newRequest origin document extensions).2.requests :=
    List.mem_append_right _ List.mem_cons_self
  cases origin with
  | call n =>
      rw [Client.requestFor]
      refine ⟨hnew, ⟨rfl, rfl⟩, List.subset_append_left _ _, List.Subset.refl _,
        List.forall_mem_singleton.mpr ⟨r, hr, rfl⟩, ?_⟩
      intro group he
      cases he
  | group n =>
      rw [Client.requestFor]
      split
      · rename_i id hid
        have hin := Schedule.mem_of_lookup hid
        obtain ⟨q, hq, hqid, _⟩ := h.entries _ hin
        exact ⟨h, ⟨rfl, rfl⟩, List.Subset.refl _, List.Subset.refl _,
          List.forall_mem_singleton.mpr ⟨q, hq, hqid⟩,
          fun _ _ => List.forall_mem_singleton.mpr ⟨_, hin, rfl⟩⟩
      · rename_i hnone
        have hmem : ∀ q ∈ c.inFlight ++ [(contentKey document extensions, r.id)],
            q ∈ c.inFlight ∨ q = (contentKey document extensions, r.id) :=
          fun q hq => (List.mem_append.mp hq).imp_right List.mem_singleton.mp
        refine ⟨?_, ⟨rfl, rfl⟩, List.subset_append_left _ _, List.subset_append_left _ _,
          List.forall_mem_singleton.mpr ⟨r, hr, rfl⟩, fun _ _ => List.forall_mem_singleton.mpr
            ⟨_, List.mem_append_right _ List.mem_cons_self, rfl⟩⟩
        refine
          { hnew with
            keys := ?_
            entries := fun q hq => ?_
            registered := fun q hq hn => ?_
            lost := fun id hid => ?_ }
        · refine Schedule.nodup_map_concat h.keys fun q hq he => ?_
          exact absurd hq (Schedule.not_mem_of_lookup (he ▸ hnone))
        · rcases hmem q hq with hq | rfl
          · exact hnew.entries q hq
          · exact ⟨r, hr, rfl, rfl⟩
        · have hold := hnew.registered q ⟨hq.asked, hq.unfinished, hq.held⟩ hn
          exact List.mem_append_left _ hold
        · obtain ⟨hknown, hfree⟩ := hnew.lost id hid
          refine ⟨hknown, fun q hq => ?_⟩
          rcases hmem q hq with hq | rfl
          · exact hfree q hq
          · obtain ⟨⟨p, hp, rfl⟩, _⟩ := h.lost id hid
            exact Nat.ne_of_gt (Nat.lt_succ_of_le (h.numbered p hp))

theorem requestAll (h : c.Sharing lost) (origin : FetchId) (extensions : Option (Fields Json))
    (documents : List Document) :
    Asked c (c.requestAll origin extensions documents).2 lost origin
      (c.requestAll origin extensions documents).1 := by
  induction documents generalizing c with
  | nil =>
      exact ⟨h, ⟨rfl, rfl⟩, List.Subset.refl _, List.Subset.refl _, fun _ h => absurd h List.not_mem_nil,
        fun _ _ _ h => absurd h List.not_mem_nil⟩
  | cons document rest ih =>
      rw [Client.requestAll]
      have hfirst := h.requestFor origin document extensions
      generalize c.requestFor origin document extensions = first at hfirst ⊢
      obtain ⟨job, d⟩ := first
      have hrest := ih hfirst.sharing
      simp only
      generalize d.requestAll origin extensions rest = others at hrest ⊢
      obtain ⟨jobs, e⟩ := others
      constructor
      case sharing => exact hrest.sharing
      case same =>
        exact ⟨hrest.same.1.trans hfirst.same.1, hrest.same.2.trans hfirst.same.2⟩
      case before => exact List.Subset.trans hfirst.before hrest.before
      case registry => exact List.Subset.trans hfirst.registry hrest.registry
      case known =>
        refine List.forall_mem_cons.mpr ⟨?_, hrest.known⟩
        obtain ⟨r, hr, hid⟩ := hfirst.known job List.mem_cons_self
        exact ⟨r, hrest.before hr, hid⟩
      case shared =>
        intro group he
        refine List.forall_mem_cons.mpr ⟨?_, hrest.shared group he⟩
        obtain ⟨q, hq, hid⟩ := hfirst.shared group he job List.mem_cons_self
        exact ⟨q, hrest.registry hq, hid⟩

/-! ### Fetches -/

theorem startFetch (h : c.Sharing lost) {id : FetchId} (hfresh : ∀ f ∈ c.fetches, f.id ≠ id)
    (hgroup : ∀ group, id = .group group →
      group < c.schedule.nextGroup ∧ ∀ w ∈ c.schedule.windows, w.group ≠ group)
    (selections : List Selection) (key : BatchKey) :
    (c.startFetch id selections key).2.Sharing lost ∧
      c.fetches ⊆ (c.startFetch id selections key).2.fetches := by
  rw [Client.startFetch]
  split
  · exact ⟨h.apart ⟨rfl, rfl, rfl, rfl⟩, List.Subset.refl _⟩
  · rename_i documents builder _
    have hbuilt : Sharing { c with builder } lost := h.apart ⟨rfl, rfl, rfl, rfl⟩
    have hasked := hbuilt.requestAll id key.extensions documents
    generalize Client.requestAll { c with builder } id key.extensions documents = asked at hasked ⊢
    obtain ⟨jobs, d⟩ := asked
    obtain ⟨hd, ⟨hfetches, hschedule⟩, _, _, hknown, hshared⟩ := hasked
    simp only at hfetches hschedule hknown hshared
    have hmem : ∀ f ∈ d.fetches ++ [{ id := id, jobs := jobs }],
        f ∈ d.fetches ∨ f = { id := id, jobs := jobs } :=
      fun f hf => (List.mem_append.mp hf).imp_right List.mem_singleton.mp
    refine ⟨?_, hfetches ▸ List.subset_append_left _ _⟩
    refine
      { hd with
        distinct := ?_
        running := fun f hf group hid => ?_
        jobs := fun f hf job hj => ?_
        registered := fun r hr hn => ?_ }
    · exact Schedule.nodup_map_concat hd.distinct fun f hf => hfresh f (hfetches ▸ hf)
    · rcases hmem f hf with hf | rfl
      · exact hd.running f hf group hid
      · exact hschedule.symm ▸ hgroup group hid
    · rcases hmem f hf with hf | rfl
      · exact hd.jobs f hf job hj
      · exact hknown job hj
    · obtain ⟨f, hf, group, hid, hjob⟩ := hr.held
      rcases hmem f hf with hf | rfl
      · exact hd.registered r ⟨hr.asked, hr.unfinished, f, hf, group, hid, hjob⟩ hn
      · obtain ⟨q, hq, he⟩ := hshared group hid r.id hjob
        obtain ⟨p, hp, hpid, hkey⟩ := hd.entries q hq
        obtain rfl := hd.eq_of_id hp hr.asked (hpid.trans he)
        have hentry : q = (p.key, p.id) := Prod.ext hkey.symm he
        exact hentry ▸ hq

/-- Fetches end or wait for less, and entries go. An entry that goes belongs to a request that has
ended, or is one of those given up. -/
theorem narrow (h : c.Sharing lost) {fetches : List Fetch} {inFlight : List (ContentKey × Nat)}
    {more : List Nat} (hdistinct : (fetches.map (·.id)).Nodup)
    (hfetches : ∀ g ∈ fetches, ∃ f ∈ c.fetches, g.id = f.id ∧ g.jobs ⊆ f.jobs)
    (hsub : inFlight.Sublist c.inFlight)
    (hkept : ∀ r ∈ c.requests, r.isFinished = false → r.id ∉ more → (r.key, r.id) ∈ c.inFlight →
      (r.key, r.id) ∈ inFlight)
    (hmore : ∀ id ∈ more, (∃ r ∈ c.requests, r.id = id) ∧ ∀ q ∈ inFlight, q.2 ≠ id) :
    Sharing { c with fetches, inFlight } (lost ++ more) where
  schedule := h.schedule
  distinct := hdistinct
  running f hf group hid := by
    obtain ⟨g, hg, he, _⟩ := hfetches f hf
    exact h.running g hg group (he ▸ hid)
  ids := h.ids
  numbered := h.numbered
  jobs f hf job hj := by
    obtain ⟨g, hg, _, hs⟩ := hfetches f hf
    exact h.jobs g hg job (hs hj)
  keys := h.keys.sublist (hsub.map _)
  entries q hq := h.entries q (hsub.subset hq)
  registered r hr hn := by
    obtain ⟨hold, hnew⟩ := not_or.mp (mt List.mem_append.mpr hn)
    obtain ⟨f, hf, group, hid, hjob⟩ := hr.held
    obtain ⟨g, hg, he, hs⟩ := hfetches f hf
    have hawaits : c.Awaits r := ⟨hr.asked, hr.unfinished, g, hg, group, he ▸ hid, hs hjob⟩
    exact hkept r hr.asked hr.unfinished hnew (h.registered r hawaits hold)
  lost id hid := by
    rcases List.mem_append.mp hid with hid | hid
    · obtain ⟨hknown, hfree⟩ := h.lost id hid
      exact ⟨hknown, fun q hq => hfree q (hsub.subset hq)⟩
    · exact hmore id hid

theorem settle (h : c.Sharing lost) {group : Nat} (hlt : group < c.schedule.nextGroup)
    (result : FetchResult) :
    Sharing { c with schedule := c.schedule.settle group result } lost :=
  { h with
    schedule := h.schedule.settle hlt
    running := fun f hf other hid => by
      obtain ⟨hlt, hclosed⟩ := h.running f hf other hid
      exact ⟨hlt, fun w hw => hclosed w (List.mem_of_mem_filter hw)⟩
    registered := fun r hr => h.registered r ⟨hr.asked, hr.unfinished, hr.held⟩ }

end Sharing

theorem foldl_release (c : Client) (jobs : List Nat) :
    jobs.foldl release c = { c with inFlight := c.inFlight.filter fun q => !jobs.contains q.2 } := by
  induction jobs generalizing c with
  | nil =>
      have hall : c.inFlight.filter (fun q => !([] : List Nat).contains q.2) = c.inFlight :=
        List.filter_eq_self.mpr fun _ _ => rfl
      rw [hall]
      rfl
  | cons job jobs ih =>
      rw [List.foldl_cons, ih, release]
      simp only [List.filter_filter, List.contains_cons]
      congr 1
      refine List.filter_congr fun q _ => ?_
      by_cases hq : q.2 = job
      · simp [hq]
      · simp [hq]

/-- The requests that a fetch waits for. -/
def jobsOf (c : Client) (id : FetchId) : List Nat :=
  match c.fetch? id with
  | some f => f.jobs
  | none => []

/-- The client without a fetch and without the entries of its requests. -/
def without (c : Client) (id : FetchId) : Client :=
  { c with
    fetches := c.fetches.filter (·.id ≠ id)
    inFlight := c.inFlight.filter fun q => !(c.jobsOf id).contains q.2 }

theorem endFetch_eq (c : Client) (id : FetchId) (result : FetchResult) :
    c.endFetch id result = match id with
      | .group n => { c.without id with schedule := c.schedule.settle n result }
      | .call _ => c.without id := by
  cases id with
  | group n =>
      rw [endFetch, foldl_release]
      rfl
  | call n =>
      rw [endFetch, foldl_release]
      rfl

theorem mem_givenUp {id : Nat} : id ∈ givenUp c d ↔
    (∃ f ∈ c.fetches, (∀ g ∈ d.fetches, g.id ≠ f.id) ∧ id ∈ f.jobs) ∧ d.isFinished id = false := by
  rw [givenUp, List.mem_filter, List.mem_flatMap, Bool.not_eq_true']
  refine and_congr_left fun _ => exists_congr fun f => ?_
  rw [List.mem_filter, Bool.not_eq_true', and_assoc]
  refine and_congr_right fun _ => and_congr_left fun _ => ?_
  simp

/-- Nothing is given up where all fetches go on. -/
theorem givenUp_eq_nil (h : ∀ f ∈ c.fetches, ∃ g ∈ d.fetches, g.id = f.id) : givenUp c d = [] := by
  refine List.eq_nil_iff_forall_not_mem.mpr fun id hid => ?_
  obtain ⟨⟨f, hf, hgone, _⟩, _⟩ := mem_givenUp.mp hid
  obtain ⟨g, hg, he⟩ := h f hf
  exact hgone g hg he

/-- The requests that a fetch waits for and whose end is not known. -/
def pendingOf (c : Client) (id : FetchId) : List Nat :=
  (c.jobsOf id).filter fun job => !c.isFinished job

namespace Sharing

theorem mem_jobsOf (h : c.Sharing lost) {id : FetchId} {job : Nat} :
    job ∈ c.jobsOf id ↔ ∃ f ∈ c.fetches, f.id = id ∧ job ∈ f.jobs := by
  rw [jobsOf]
  split
  · rename_i f hf
    have hid := List.find?_some hf
    simp only [decide_eq_true_eq] at hid
    have hmem := List.mem_of_find?_eq_some hf
    refine ⟨fun hj => ⟨f, hmem, hid, hj⟩, ?_⟩
    rintro ⟨g, hg, hgid, hj⟩
    exact List.inj_on_of_nodup_map h.distinct hg hmem (hgid.trans hid.symm) ▸ hj
  · rename_i hnone
    refine ⟨fun hj => absurd hj List.not_mem_nil, ?_⟩
    rintro ⟨g, hg, hgid, _⟩
    exact absurd (decide_eq_true hgid) (List.find?_eq_none.mp hnone g hg)

/-- A fetch goes with the entries of its requests. -/
theorem without (h : c.Sharing lost) (id : FetchId) :
    (c.without id).Sharing (lost ++ c.pendingOf id) := by
  refine h.narrow (h.distinct.sublist (List.filter_sublist.map _)) (fun g hg =>
    ⟨g, List.mem_of_mem_filter hg, rfl, List.Subset.refl _⟩) List.filter_sublist ?_ ?_
  · intro r hr hunfinished hnot hin
    refine List.mem_filter.mpr ⟨hin, ?_⟩
    cases hheld : (c.jobsOf id).contains r.id with
    | false => rfl
    | true =>
        refine absurd (List.mem_filter.mpr ⟨List.contains_iff_mem.mp hheld, ?_⟩) hnot
        rw [h.isFinished_eq hr, hunfinished]
        rfl
  · intro job hjob
    obtain ⟨hjob, _⟩ := List.mem_filter.mp hjob
    obtain ⟨f, hf, _, hin⟩ := h.mem_jobsOf.mp hjob
    refine ⟨h.jobs f hf job hin, fun q hq he => ?_⟩
    have hout := (List.mem_filter.mp hq).2
    rw [he, List.contains_iff_mem.mpr hjob] at hout
    cases hout

theorem mem_givenUp_endFetch (h : c.Sharing lost) (id : FetchId) (result : FetchResult) {job : Nat} :
    job ∈ givenUp c (c.endFetch id result) ↔ job ∈ c.pendingOf id := by
  have hfetches : (c.endFetch id result).fetches = (c.without id).fetches := by
    rw [endFetch_eq]
    cases id <;> rfl
  have hfinished : (c.endFetch id result).isFinished job = c.isFinished job := by
    rw [endFetch_eq]
    cases id <;> rfl
  rw [mem_givenUp, pendingOf, List.mem_filter, h.mem_jobsOf, hfetches, hfinished, Bool.not_eq_true']
  refine and_congr ⟨?_, ?_⟩ Iff.rfl
  · rintro ⟨f, hf, hgone, hj⟩
    refine ⟨f, hf, ?_, hj⟩
    by_contra hne
    exact hgone f (List.mem_filter.mpr ⟨hf, decide_eq_true hne⟩) rfl
  · rintro ⟨f, hf, rfl, hj⟩
    exact ⟨f, hf, fun g hg => of_decide_eq_true (List.mem_filter.mp hg).2, hj⟩

/-- A fetch ends. What it still waited for is given up. -/
theorem endFetch (h : c.Sharing lost) (id : FetchId) (result : FetchResult)
    (hgroup : ∀ group, id = .group group → group < c.schedule.nextGroup) :
    (c.endFetch id result).Sharing (lost ++ givenUp c (c.endFetch id result)) := by
  have hlost : (c.without id).Sharing (lost ++ givenUp c (c.endFetch id result)) :=
    (h.without id).congr fun job => by
      rw [List.mem_append, List.mem_append, h.mem_givenUp_endFetch]
  generalize givenUp c (c.endFetch id result) = more at hlost
  rw [endFetch_eq]
  cases id with
  | call n => exact hlost
  | group n => exact hlost.settle (hgroup n rfl) result

/-! ### Polling -/

/-- A fetch no longer waits for a request that has ended. -/
theorem dropJob (h : c.Sharing lost) {f : Fetch} (hf : f ∈ c.fetches) {job : Nat} {jobs : List Nat}
    (hsub : jobs ⊆ f.jobs) (hfinished : c.isFinished job = true) :
    ((c.release job).setJobs f.id jobs).Sharing lost := by
  have hids : ((c.release job).setJobs f.id jobs).fetches.map (·.id) = c.fetches.map (·.id) := by
    rw [Client.setJobs, List.map_map]
    refine List.map_congr_left fun g _ => ?_
    simp only [Function.comp_apply]
    split <;> rfl
  have hnarrow : Sharing ((c.release job).setJobs f.id jobs) (lost ++ []) :=
    h.narrow (hids ▸ h.distinct) ?_ List.filter_sublist ?_ fun _ hid => absurd hid List.not_mem_nil
  · rw [List.append_nil] at hnarrow
    exact hnarrow
  · intro g hg
    obtain ⟨g', hg', rfl⟩ := List.mem_map.mp hg
    split
    · rename_i he
      exact ⟨f, hf, he, hsub⟩
    · exact ⟨g', hg', rfl, List.Subset.refl _⟩
  · intro r hr hunfinished _ hin
    refine List.mem_filter.mpr ⟨hin, decide_eq_true ?_⟩
    rintro rfl
    rw [h.isFinished_eq hr, hunfinished] at hfinished
    cases hfinished

theorem deliver (h : c.Sharing lost) (now : Nat) {r : Request}
    (a : Except TransportError ExecutionResult) : (c.deliver now r a).Sharing lost := by
  rw [Client.deliver]
  cases r.origin with
  | group n => exact (h.apart (apart_storeShared now r.operation a)).setPhase r.id (.inl ⟨_, rfl⟩)
  | call n => exact (h.apart (apart_storeAlone now n r.operation a)).setPhase r.id (.inl ⟨_, rfl⟩)

end Sharing

theorem request?_setPhase (c : Client) (id : Nat) (phase : Phase) (job : Nat) :
    (c.setPhase id phase).request? job =
      (c.request? job).map fun r => if job = id then { r with phase } else r := by
  have hsame : (fun r : Request => r.id == job) ∘
      (fun r => if r.id == id then { r with phase } else r) = fun r => r.id == job := by
    funext r
    simp only [Function.comp_apply]
    split <;> rfl
  rw [request?, setPhase, List.find?_map, hsame, request?]
  cases hr : c.requests.find? (·.id == job) with
  | none => rfl
  | some r =>
      have hid : r.id = job := by
        have hfound := List.find?_some hr
        exact eq_of_beq hfound
      subst hid
      simp only [Option.map_some, beq_iff_eq]

/-- Requests that have ended stay so, also when another one changes or they end again. -/
theorem isFinished_setPhase {id : Nat} {phase : Phase}
    (hp : (∃ result, phase = .finished result) ∨ c.isFinished id = false) {job : Nat}
    (h : c.isFinished job = true) : (c.setPhase id phase).isFinished job = true := by
  rw [isFinished, request?_setPhase]
  rw [isFinished, Option.any_eq_true] at h
  obtain ⟨r, hr, hfinished⟩ := h
  rw [hr, Option.map_some, Option.any_some]
  split
  · rename_i he
    subst he
    obtain ⟨result, rfl⟩ | hp := hp
    · rfl
    · rw [isFinished, hr, Option.any_some, hfinished] at hp
      cases hp
  · exact hfinished

theorem isFinished_deliver (now : Nat) {r : Request} (a : Except TransportError ExecutionResult)
    {job : Nat} (h : c.isFinished job = true) : (c.deliver now r a).isFinished job = true := by
  have hapart : ∀ {d : Client}, Apart c d → d.isFinished job = true := by
    intro d hd
    rw [isFinished, request?, hd.requests]
    exact h
  rw [deliver]
  cases r.origin with
  | group n => exact isFinished_setPhase (.inl ⟨_, rfl⟩) (hapart (apart_storeShared now _ a))
  | call n => exact isFinished_setPhase (.inl ⟨_, rfl⟩) (hapart (apart_storeAlone now n _ a))

theorem isFinished_endFetch (id : FetchId) (result : FetchResult) (job : Nat) :
    (c.endFetch id result).isFinished job = c.isFinished job := by
  rw [endFetch_eq]
  cases id <;> rfl

/-- Nothing is given up where the fetches are the same. -/
theorem Sharing.goesOn (h : d.Sharing lost) (he : d.fetches = c.fetches) :
    d.Sharing (lost ++ givenUp c d) := by
  rw [givenUp_eq_nil fun f hf => ⟨f, he ▸ hf, rfl⟩, List.append_nil]
  exact h

/-- A request that ended before is not given up when its fetch ends. -/
theorem givenUp_dropJob (h : c.Sharing lost) {f : Fetch} (hf : f ∈ c.fetches) {job : Nat}
    {waiting jobs : List Nat} (hjobs : f.jobs = waiting ++ job :: jobs)
    (hfinished : d.isFinished job = true) (x : Nat) : x ∈ givenUp c d ↔
      x ∈ givenUp ((c.release job).setJobs f.id (waiting ++ jobs)) d := by
  rw [mem_givenUp, mem_givenUp]
  refine and_congr_left fun hopen => ?_
  have hleft : ∀ x, x ≠ job → (x ∈ f.jobs ↔ x ∈ waiting ++ jobs) := by
    intro x hne
    rw [hjobs, List.mem_append, List.mem_append, List.mem_cons, or_iff_right hne]
  have hne : x ≠ job := by
    rintro rfl
    rw [hfinished] at hopen
    cases hopen
  constructor
  · rintro ⟨g, hg, hgone, hx⟩
    refine ⟨_, List.mem_map_of_mem hg, ?_⟩
    split
    · rename_i he
      obtain rfl := List.inj_on_of_nodup_map h.distinct hg hf he
      exact ⟨hgone, (hleft x hne).mp hx⟩
    · exact ⟨hgone, hx⟩
  · rintro ⟨g, hg, hgone, hx⟩
    obtain ⟨g', hg', rfl⟩ := List.mem_map.mp hg
    by_cases he : g'.id = f.id
    · rw [if_pos he] at hgone hx
      exact ⟨f, hf, fun g hg => he ▸ hgone g hg, (hleft x hne).mpr hx⟩
    · rw [if_neg he] at hgone hx
      exact ⟨g', hg', hgone, hx⟩

/-- A fetch looks at its requests. It may end, with those given up that it still waits for. -/
theorem Sharing.pollJobs (h : c.Sharing lost) (now : Nat) {f : Fetch} (hf : f ∈ c.fetches)
    {waiting jobs : List Nat} (hjobs : f.jobs = waiting ++ jobs) :
    (∀ job, c.isFinished job = true → (c.pollJobs now f.id waiting jobs).2.isFinished job = true) ∧
    (c.pollJobs now f.id waiting jobs).2.Sharing
      (lost ++ givenUp c (c.pollJobs now f.id waiting jobs).2) := by
  induction jobs generalizing c waiting f with
  | nil =>
      rw [Client.pollJobs]
      split
      · exact ⟨fun job hj => (isFinished_endFetch f.id _ job).trans hj,
          h.endFetch f.id _ fun group he => (h.running f hf group he).1⟩
      · exact ⟨fun _ hj => hj, h.goesOn rfl⟩
  | cons job jobs ih =>
      obtain ⟨q, hq, hid⟩ := h.jobs f hf job (hjobs ▸ List.mem_append_right _ List.mem_cons_self)
      subst hid
      rw [Client.pollJobs, h.request?_of_mem hq]
      simp only
      have hended : c.isFinished q.id = q.isFinished := h.isFinished_eq hq
      split
      · rename_i hphase
        have hopen : c.isFinished q.id = false := by
          rw [hended, Request.isFinished, hphase]
        exact ⟨fun _ hj => isFinished_setPhase (.inr hopen) hj,
          (h.setPhase q.id (.inr hopen)).goesOn rfl⟩
      · refine ih h hf ?_
        rw [hjobs, List.append_assoc, List.singleton_append]
      · rename_i a hphase
        have hfetches : (c.deliver now q a).fetches = c.fetches := by
          rw [Client.deliver]
          cases q.origin with
          | group n => exact (apart_storeShared now q.operation a).fetches
          | call n => exact (apart_storeAlone now n q.operation a).fetches
        exact ⟨fun _ hj => isFinished_deliver now a hj, (h.deliver now a).goesOn hfetches⟩
      · rename_i hphase
        have hfinished : c.isFinished q.id = true := by
          rw [hended, Request.isFinished, hphase]
        let next := (c.release q.id).setJobs f.id (waiting ++ jobs)
        have hsub : waiting ++ jobs ⊆ f.jobs := by
          rw [hjobs]
          exact List.append_subset.mpr ⟨List.subset_append_left _ _, fun x hx =>
            List.mem_append_right _ (List.mem_cons_of_mem _ hx)⟩
        have hnext : next.Sharing lost := h.dropJob hf hsub hfinished
        have hin : { id := f.id, jobs := waiting ++ jobs } ∈ next.fetches :=
          List.mem_map.mpr ⟨f, hf, if_pos rfl⟩
        obtain ⟨hlater, hshared⟩ := ih hnext hin rfl
        refine ⟨hlater, hshared.congr fun x => ?_⟩
        rw [List.mem_append, List.mem_append]
        refine or_congr_right (givenUp_dropJob h hf hjobs (hlater _ hfinished) x).symm
      · exact ⟨fun job hj => (isFinished_endFetch f.id _ job).trans hj,
          h.endFetch f.id _ fun group he => (h.running f hf group he).1⟩

/-! ### Runs -/

theorem startFetch_cases (c : Client) (id : FetchId) (selections : List Selection) (key : BatchKey) :
    (∃ d, c.startFetch id selections key = (.ok (), d)) ∨
      ∃ cause builder, c.startFetch id selections key = (.error cause, { c with builder }) := by
  rw [startFetch]
  split
  · exact .inr ⟨_, _, rfl⟩
  · exact .inl ⟨_, rfl⟩

theorem Sharing.close (h : c.Sharing lost) (group : Nat) :
    Sharing { c with schedule := (c.schedule.close group).2 } lost :=
  { h with
    schedule := h.schedule.close group
    running := fun f hf other hid => by
      obtain ⟨hlt, hapart⟩ := h.running f hf other hid
      exact ⟨hlt, fun v hv => hapart v (List.mem_of_mem_filter hv)⟩
    registered := fun r hr => h.registered r ⟨hr.asked, hr.unfinished, hr.held⟩ }

theorem Sharing.dispatch (h : c.Sharing lost) {w : Window} (hw : w ∈ c.schedule.windows) :
    (c.dispatch w.group).Sharing (lost ++ givenUp c (c.dispatch w.group)) := by
  have hclosed := h.close w.group
  have hlt : w.group < c.schedule.nextGroup := (h.schedule.opened w hw).1
  have hfresh : ∀ f ∈ c.fetches, f.id ≠ .group w.group :=
    fun f hf he => (h.running f hf w.group he).2 w hw rfl
  have hclose : c.schedule.close w.group = (some w, (c.schedule.close w.group).2) := by
    rw [Schedule.close, h.schedule.find? hw]
  obtain ⟨hstarted, hsub⟩ := hclosed.startFetch hfresh (fun group he => by
    obtain rfl := FetchId.group.inj he
    exact ⟨hlt, fun v hv => of_decide_eq_true (List.mem_filter.mp hv).2⟩) w.selections w.key
  obtain ⟨d, he⟩ | ⟨cause, builder, he⟩ := startFetch_cases
    { c with schedule := (c.schedule.close w.group).2 } (.group w.group) w.selections w.key
  · have hdispatch : c.dispatch w.group = d := by
      rw [Client.dispatch, hclose]
      simp only [he]
    rw [he] at hstarted hsub
    have hnone : givenUp c d = [] := givenUp_eq_nil fun f hf => ⟨f, hsub hf, rfl⟩
    rw [hdispatch, hnone, List.append_nil]
    exact hstarted
  · have hdispatch : c.dispatch w.group = Client.endFetch
        { c with schedule := (c.schedule.close w.group).2, builder } (.group w.group)
          (.error cause) := by
      rw [Client.dispatch, hclose]
      simp only [he]
    rw [he] at hstarted
    have hended := hstarted.endFetch (.group w.group) (.error cause) fun group hid => by
      obtain rfl := FetchId.group.inj hid
      exact hlt
    have hgone : ∀ {b : Client}, b.fetches = c.fetches → givenUp b (Client.endFetch
        { c with schedule := (c.schedule.close w.group).2, builder } (.group w.group)
          (.error cause)) = [] := by
      intro b hb
      refine givenUp_eq_nil fun f hf => ⟨f, List.mem_filter.mpr ⟨hb ▸ hf, ?_⟩, rfl⟩
      exact decide_eq_true (hfresh f (hb ▸ hf))
    rw [@hgone { c with schedule := (c.schedule.close w.group).2, builder } rfl,
      List.append_nil] at hended
    rw [hdispatch, @hgone c rfl, List.append_nil]
    exact hended

theorem Sharing.enlists (h : c.Sharing lost) (he : Enlists c d) :
    d.Sharing (lost ++ givenUp c d) := by
  cases he with
  | apart ha => exact (h.apart ha).goesOn ha.fetches
  | enlist ha selections key => exact ((h.apart ha).enlist selections key).goesOn ha.fetches

theorem Sharing.resolve (h : c.Sharing lost) (now : Nat) {id : Nat} (closure : Closure)
    (policy : FetchPolicy) (key : BatchKey) (hfresh : ∀ f ∈ c.fetches, f.id ≠ .call id) :
    (c.resolve now id closure policy key).2.Sharing
      (lost ++ givenUp c (c.resolve now id closure policy key).2) := by
  have hopens := opens_resolve (c := c) now id closure policy key
  generalize (c.resolve now id closure policy key).2 = d at hopens
  cases hopens with
  | enlists h' => exact h.enlists h'
  | @own e hapart selections key =>
      obtain ⟨hstarted, hsub⟩ := (h.apart hapart).startFetch
        (fun f hf => hfresh f (hapart.fetches ▸ hf)) (fun _ he => by cases he) selections key
      rw [givenUp_eq_nil fun f hf => ⟨f, hsub (hapart.fetches ▸ hf), rfl⟩, List.append_nil]
      exact hstarted

theorem Sharing.transition (h : c.Sharing lost) (ht : Transition c d) :
    d.Sharing (lost ++ givenUp c d) := by
  cases ht with
  | resolve now id closure policy key fresh => exact h.resolve now closure policy key fresh
  | conclude now call result => exact h.enlists (.apart (apart_conclude now call result))
  | enlist selections key => exact h.enlists (.enlist (.refl c) selections key)
  | dispatch opened => exact h.dispatch opened
  | poll now id =>
      rw [pollFetch]
      split
      · rename_i f hf
        have hid := List.find?_some hf
        simp only [decide_eq_true_eq] at hid
        subst hid
        exact (h.pollJobs now (List.mem_of_find?_eq_some hf) (List.nil_append _).symm).2
      · exact h.enlists (.apart (.refl c))
  | answer request a =>
      rw [answer]
      split
      · rename_i r hr
        refine (h.setPhase request (.inr ?_)).goesOn rfl
        rw [isFinished, hr]
        rfl
      · exact h.enlists (.apart (.refl c))
  | @giveUp f running cause =>
      exact h.endFetch f.id _ fun group he => (h.running f running group he).1
  | perform now context action => exact h.enlists (.apart (apart_perform now context action))
  | useCache cache => exact h.enlists (.apart ⟨rfl, rfl, rfl, rfl⟩)
  | feed now operation a => exact h.enlists (.apart (apart_storeShared now operation a))
  | startWatch w now => exact h.enlists (w.enlists_start now)
  | loadedWatch w now result => exact h.enlists (.apart (w.apart_loaded now result))
  | refreshWatch w now => exact h.enlists (w.enlists_refresh now)
  | refuseWatch w cause => exact h.enlists (.apart (w.apart_refused cause))
  | finishWatch w => exact h.enlists (.apart w.apart_finish)

/-- What moves lead to, with the requests that are given up on the way. -/
def play : List Move → Client → List Nat → Option (Client × List Nat)
  | [], c, lost => some (c, lost)
  | m :: rest, c, lost =>
    match m.after? c with
    | some d => play rest d (lost ++ givenUp c d)
    | none => none

theorem Run.play {moves : List Move} {more : List Nat} (h : Run c lost)
    (hp : play moves c lost = some (d, more)) : Run d more := by
  induction moves generalizing c lost with
  | nil =>
      obtain ⟨rfl, rfl⟩ := Prod.mk.inj (Option.some.inj hp)
      exact h
  | cons m rest ih =>
      rw [Client.play] at hp
      split at hp
      · rename_i he
        exact ih (h.step (Move.transition he)) hp
      · cases hp

theorem Run.sharing (h : Run c lost) : c.Sharing lost := by
  induction h with
  | new schema hasSubscriber options => exact .new schema hasSubscriber options
  | step _ transition ih => exact ih.transition transition

/-- In every run, two requests that groups await are one if they ask for the same, and a group that
asks for the same joins it and starts no other: exactly as long as no fetch has given the request
up before it ended. -/
theorem awaited_joined (h : Run c lost) :
    (∀ r s, c.Awaits r → c.Awaits s → r.key = s.key → r.id ∉ lost → s.id ∉ lost → r = s) ∧
    ∀ r, c.Awaits r → ∀ group document extensions, contentKey document extensions = r.key →
      (c.requestFor (.group group) document extensions = (r.id, c) ↔ r.id ∉ lost) := by
  have hsharing := h.sharing
  constructor
  · intro r s hr hs hkey hrn hsn
    have hrin := hsharing.registered r hr hrn
    have hsin := hsharing.registered s hs hsn
    have hsame := List.inj_on_of_nodup_map hsharing.keys hrin hsin hkey
    exact hsharing.eq_of_id hr.asked hs.asked (Prod.mk.inj hsame).2
  · intro r hr group document extensions hkey
    constructor
    · intro hjoined hgone
      obtain ⟨_, hfree⟩ := hsharing.lost r.id hgone
      rw [Client.requestFor] at hjoined
      split at hjoined
      · rename_i id hid
        exact hfree _ (Schedule.mem_of_lookup hid) (Prod.mk.inj hjoined).1
      · have hid : c.requests.length + 1 = r.id := (Prod.mk.inj hjoined).1
        exact absurd (hsharing.numbered r hr.asked) (hid ▸ Nat.not_succ_le_self _)
    · intro hn
      have hlookup : c.inFlight.lookup (contentKey document extensions) = some r.id :=
        (Schedule.lookup_eq_some_iff hsharing.keys).mpr (hkey ▸ hsharing.registered r hr hn)
      rw [Client.requestFor]
      simp only
      rw [contentKey] at hlookup
      rw [hlookup]

/-! ### Three groups that ask for one name -/

namespace Split

/-- The field `name` of the query, below a root of its own. -/
def name (root : Nat) : Selection where
  node := { id := root + 1, key := .field "name" }
  above := [{ id := root, key := .field "query" }]

/-- The field `rename` of the mutation. -/
def rename (root : Nat) : Selection where
  node := { id := root + 1, key := .field "rename" }
  above := [{ id := root, key := .field "mutation" }]

/-- Whether a request was sent and a group waits for it. -/
def isLive (c : Client) (id : Nat) : Bool :=
  (c.request? id).any (fun r =>
    match r.phase with
    | .sent => true
    | _ => false) && c.fetches.any fun f =>
    (match f.id with
    | .group _ => true
    | .call _ => false) && f.jobs.contains id

theorem exists_awaits {id : Nat} (h : isLive c id = true) :
    ∃ r, c.request? id = some r ∧ r.id = id ∧ r.phase = .sent ∧ c.Awaits r := by
  rw [isLive, Bool.and_eq_true, Option.any_eq_true, List.any_eq_true] at h
  obtain ⟨⟨r, hr, hsent⟩, f, hf, hheld⟩ := h
  rw [Bool.and_eq_true, List.contains_iff_mem] at hheld
  obtain ⟨hmem, rfl⟩ := request?_eq_some hr
  split at hsent
  · rename_i hphase
    refine ⟨r, hr, rfl, hphase, hmem, ?_, f, hf, ?_⟩
    · rw [Request.isFinished, hphase]
    · cases hid : f.id with
      | group n => exact ⟨n, rfl, hheld.2⟩
      | call n =>
          rw [hid] at hheld
          cases hheld.1
  · cases hsent

/-- The second group joins the request that the first one has sent. -/
def together : List Move :=
  [.enlist [rename 10, name 20] {}, .close, .poll 0 (.group 1), .poll 0 (.group 1),
    .enlist [name 30] {}, .close]

/-- Both groups await one request for the name, and a third one would join it. -/
theorem together_joins : ∃ c r, Run c [] ∧ c.fetches.length = 2 ∧ c.Awaits r ∧
    (∀ s, c.Awaits s → r.key = s.key → r = s) ∧
    c.requestFor (.group 3) r.document r.extensions = (r.id, c) := by
  have hplayed : (play together (.new {} false {}) []).any (fun q =>
      q.2 == [] && q.1.fetches.length == 2 && isLive q.1 1) = true := by
    decide +kernel
  obtain ⟨⟨c, lost⟩, hplay, hlive⟩ := Option.any_eq_true _ _ |>.mp hplayed
  simp only [Bool.and_eq_true, beq_iff_eq] at hlive
  obtain ⟨⟨rfl, hfetches⟩, hlive⟩ := hlive
  have hrun : Run c [] := (Run.new {} false {}).play hplay
  obtain ⟨r, _, _, _, hawaits⟩ := exists_awaits hlive
  obtain ⟨hone, hjoined⟩ := awaited_joined hrun
  refine ⟨c, r, hrun, hfetches, hawaits, fun s hs hkey => ?_, ?_⟩
  · exact hone r s hawaits hs hkey List.not_mem_nil List.not_mem_nil
  · exact (hjoined r hawaits 3 r.document r.extensions rfl).mpr List.not_mem_nil

/-- The mutation of the first group fails, and a third group asks for the name. -/
def apart : List Move :=
  together ++ [.answer 2 (.error (.network "down")), .poll 0 (.group 1), .poll 0 (.group 1),
    .enlist [name 40] {}, .close, .poll 0 (.group 3)]

/-- The third group does not join the request that the second one still awaits: two calls for the
same are under way. -/
theorem apart_splits : ∃ c r s, Run c [1] ∧ c.Awaits r ∧ c.Awaits s ∧ r.key = s.key ∧
    r.phase = .sent ∧ s.phase = .sent ∧ r ≠ s := by
  have hplayed : (play apart (.new {} false {}) []).any (fun q =>
      q.2 == [1] && isLive q.1 1 && isLive q.1 3 &&
      decide ((q.1.request? 1).map Request.key = (q.1.request? 3).map Request.key)) = true := by
    decide +kernel
  obtain ⟨⟨c, lost⟩, hplay, hlive⟩ := Option.any_eq_true _ _ |>.mp hplayed
  simp only [Bool.and_eq_true, beq_iff_eq, decide_eq_true_eq] at hlive
  obtain ⟨⟨⟨rfl, hfirst⟩, hthird⟩, hkeys⟩ := hlive
  obtain ⟨r, hr, hrid, hrsent, hrawaits⟩ := exists_awaits hfirst
  obtain ⟨s, hs, hsid, hssent, hsawaits⟩ := exists_awaits hthird
  rw [hr, hs] at hkeys
  refine ⟨c, r, s, (Run.new {} false {}).play hplay, hrawaits, hsawaits, Option.some.inj hkeys,
    hrsent, hssent, ?_⟩
  rintro rfl
  exact absurd (hrid.symm.trans hsid) (by decide)

end Split

end LazyGraph.Client
