import LazyGraph.Proofs.Client.Reading
import LazyGraph.Proofs.Client.Uptake
import LazyGraph.Proofs.Document.Response
import LazyGraph.Proofs.Schedule.Attachment

/-!
Fetches that have the client to themselves: from the first run of a closure to the second one,
which reads what the server answered.
-/
namespace LazyGraph

/-- A selection below the root of the query belongs to its document. -/
theorem Selection.Forest.Regular.documentKey? {f : Forest} {roots : List Selection}
    (h : f.Regular roots) {x : Selection} (hx : x ∈ f.handed roots)
    (hop : x.operation? = some .query) (habove : x.above ≠ []) :
    x.documentKey? = some (.query, "") := by
  have hsome : x.operation? ≠ none := by
    rw [hop]
    exact Option.some_ne_none _
  obtain ⟨root, _, nodes, hnodes, _⟩ := h.grown.sound.exists_root hx
  have hkeys := Document.Sound.cacheKeys_tail h.grown.sound hx hsome
  rw [hnodes, List.tail_cons] at hkeys
  cases nodes with
  | nil =>
      have hlength := congrArg List.length hnodes
      rw [ancestry, List.length_reverse, List.length_cons] at hlength
      exact absurd (List.length_eq_zero_iff.mp (Nat.succ.inj hlength)) habove
  | cons first rest =>
      have hplace : first.isPlace = true := h.top x hx first (by rw [hnodes]; rfl)
      rw [Document.placeKeys_cons, if_pos hplace] at hkeys
      rw [Selection.documentKey?, hop, hkeys]

theorem Document.Builder.Used.mono {xs ys : List Selection} {b : Builder} (h : b.Used xs)
    (hs : xs ⊆ ys) : b.Used ys := by
  induction h with
  | new capacity => exact .new capacity
  | build _ known operationName ih => exact ih.build (List.Subset.trans known hs) operationName

namespace Client

/-- No group, no fetch and no request is under way. The forest is regular, and the builder has
compiled nothing else. -/
structure Rested (c : Client) : Prop extends Idle c where
  query : c.roots.query.operation? = some .query
  forest : c.forest.Regular c.roots.all
  builder : c.builder.Used (c.forest.handed c.roots.all)
  schedule : c.schedule.Orderly
  windows : c.schedule.windows = []
  pending : c.schedule.pending = []
  ids : (c.requests.map (·.id)).Nodup
  numbered : ∀ r ∈ c.requests, r.id ≤ c.requests.length

theorem rested_new (schema : Schema) (hasSubscriber : Bool) (options : Options) (cache : Cache) :
    Rested { new schema hasSubscriber options with cache } where
  fetches := rfl
  inFlight := rfl
  query := rfl
  forest := Roots.regular_plant options.aliasLength
  builder := .new _
  schedule := .empty
  windows := rfl
  pending := rfl
  ids := List.nodup_nil
  numbered _ hr := absurd hr List.not_mem_nil

variable {c : Client}

/-! ### The only fetch -/

/-- The client with one fetch, which waits for one request of a group. -/
def sole (c : Client) (group : Nat) (r : Request) : Client :=
  { c with
    requests := c.requests ++ [r]
    inFlight := [(r.key, r.id)]
    fetches := [{ id := .group group, jobs := [r.id] }] }

/-- The client once that fetch has ended well. -/
def served (c : Client) (group : Nat) (r : Request) : Client :=
  { c with
    requests := c.requests ++ [r]
    inFlight := []
    fetches := []
    schedule := c.schedule.settle group (.ok ()) }

section Sole

variable {group : Nat} {r : Request}

theorem pollFetch_sole (now : Nat) : (c.sole group r).pollFetch now (.group group) =
    (c.sole group r).pollJobs now (.group group) [] [r.id] := by
  have hfound : (c.sole group r).fetch? (.group group) =
      some { id := .group group, jobs := [r.id] } :=
    List.find?_cons_of_pos (decide_eq_true rfl)
  rw [pollFetch, hfound]

variable (hnew : ∀ q ∈ c.requests, q.id ≠ r.id)

include hnew

theorem request?_sole : (c.sole group r).request? r.id = some r := by
  have hnone : c.requests.find? (·.id == r.id) = none :=
    List.find?_eq_none.mpr fun q hq he => hnew q hq (eq_of_beq he)
  rw [request?, sole, List.find?_append, hnone, Option.none_or, List.find?_cons, beq_self_eq_true]

theorem setPhase_sole (phase : Phase) :
    (c.sole group r).setPhase r.id phase = c.sole group { r with phase } := by
  have hsame : c.requests.map (fun q => if q.id == r.id then { q with phase } else q) =
      c.requests := by
    refine (List.map_congr_left fun q hq => ?_).trans (List.map_id c.requests)
    rw [if_neg (fun he => hnew q hq (eq_of_beq he)), id]
  simp only [setPhase, sole, List.map_append, hsame, List.map_cons, List.map_nil, beq_self_eq_true,
    if_true]
  rfl

theorem poll_unsent (hphase : r.phase = .unsent) (now : Nat) :
    (c.sole group r).pollFetch now (.group group) =
      (.send r, c.sole group { r with phase := .sent }) := by
  rw [pollFetch_sole, pollJobs, request?_sole hnew]
  simp only [hphase]
  rw [setPhase_sole hnew]

theorem poll_sent (hphase : r.phase = .sent) (now : Nat) :
    (c.sole group r).pollFetch now (.group group) = (.waiting, c.sole group r) := by
  rw [pollFetch_sole, pollJobs, request?_sole hnew]
  simp only [hphase]
  rfl

theorem answer_sole (hphase : r.phase = .sent) (a : Except TransportError ExecutionResult) :
    (c.sole group r).answer r.id a = c.sole group { r with phase := .answered a } := by
  rw [answer, request?_sole hnew]
  obtain ⟨id, document, extensions, origin, phase⟩ := r
  obtain rfl : phase = .sent := hphase
  exact setPhase_sole hnew _

theorem poll_answered {a : Except TransportError ExecutionResult} (hphase : r.phase = .answered a)
    (horigin : r.origin = .group group) {now : Nat} {cache : Cache} {notice : Cache.Notice}
    (hstored : storeAnswer c.cache now r.operation a = .ok (cache, notice)) :
    (c.sole group r).pollFetch now (.group group) =
      (.delivered, { c with cache, notices := c.notices ++ [notice] }.sole group
        { r with phase := .finished (.ok ()) }) := by
  let d : Client := { c with cache, notices := c.notices ++ [notice] }
  have hshared : (c.sole group r).storeShared now r.operation a = (.ok (), d.sole group r) := by
    have hstored : storeAnswer (c.sole group r).cache now r.operation a = .ok (cache, notice) :=
      hstored
    rw [storeShared, hstored]
    rfl
  have hdelivered : (c.sole group r).deliver now r a =
      (d.sole group r).setPhase r.id (.finished (.ok ())) := by
    simp only [deliver, horigin, hshared]
  rw [pollFetch_sole, pollJobs, request?_sole hnew]
  simp only [hphase, hdelivered]
  exact congrArg (Progress.delivered, ·) (setPhase_sole (c := d) hnew _)

theorem poll_finished (hphase : r.phase = .finished (.ok ())) (now : Nat) :
    (c.sole group r).pollFetch now (.group group) = (.ended (.ok ()), c.served group r) := by
  rw [pollFetch_sole, pollJobs, request?_sole hnew]
  simp only [hphase]
  simp [sole, served, release, setJobs, pollJobs, endFetch, fetch?]

end Sole

/-! ### Runs of the closure -/

/-- What a run of the closure of paths gives, and what it leaves. -/
structure PathsRun (c : Client) (paths : List (List Hop)) (values : List Json) (context : Context)
    (d : Client) : Prop where
  same : ∃ forest cache notices, d = { c with forest, cache, notices }
  options : d.cache.options = c.cache.options
  forest : d.forest.Regular c.roots.all
  handed : c.forest.handed c.roots.all ⊆ d.forest.handed c.roots.all
  roots : context.roots = c.roots
  below : ∀ x ∈ context.selections, x ∈ d.forest.handed c.roots.all ∧
    x.rootNode = c.roots.query.node ∧ x.above ≠ []
  some : paths ≠ [] → context.selections ≠ []
  given : ∀ fs leaves, c.cache.Shows fs →
    List.Forall₂ (LeafAt c.roots.query.aliasLength fs) paths leaves → values = leaves

variable {d : Client} {paths : List (List Hop)} {values : List Json} {context : Context}

theorem perform_paths (hf : c.forest.Regular c.roots.all) (hn : c.schema.HasGraphNames)
    (hpaths : ∀ path ∈ paths, c.schema.Declares Operation.query.text path) (now : Nat)
    (hroots : context.roots = c.roots) (hselections : context.selections = []) :
    ∃ values context' d,
      c.perform now context (pathClosure paths) = (.ok (.array values), context', d) ∧
      PathsRun c paths values context' d := by
  have hquery : (c.scene now c.cache context).context.roots.query = c.roots.query :=
    congrArg Roots.query hroots
  have htidy : (c.scene now c.cache context).Tidy c.roots.all c.roots.query := by
    refine ⟨hf, c.roots.query_mem_all, fun x hx => ?_⟩
    exact absurd (hselections ▸ hx) List.not_mem_nil
  obtain ⟨values, s, hrun, hwalks, hne, hgiven⟩ :=
    pathClosure_run (s := c.scene now c.cache context) hn hpaths (hquery.symm ▸ htidy)
  rw [hquery] at hwalks hgiven
  refine ⟨values, s.context, { c with
    forest := s.forest, cache := s.cache, notices := c.notices ++ s.notices }, ?_, ?_⟩
  · rw [perform, hrun]
  · exact ⟨⟨_, _, _, rfl⟩, hwalks.options, hwalks.tidy.forest, hwalks.handed,
      hwalks.planted.trans hroots, hwalks.tidy.selected, hne, hgiven⟩

namespace Rested

theorem run (h : c.Rested) (hrun : PathsRun c paths values context d) : d.Rested := by
  obtain ⟨forest, cache, notices, rfl⟩ := hrun.same
  exact { h with
    forest := hrun.forest
    builder := h.builder.mono hrun.handed }

theorem operation (h : c.Rested) {x : Selection} (hx : x.rootNode = c.roots.query.node) :
    x.operation? = some .query := by
  have hroot := h.forest.grown.sound.tops c.roots.query c.roots.query_mem_all
  have hquery := h.query
  rw [Selection.operation?, Selection.rootNode_of_isRoot hroot] at hquery
  rw [Selection.operation?, hx, hquery]

/-- A call that always fetches adds what its first run has touched. -/
theorem resolve_paths (h : c.Rested) {now : Nat}
    (hperform : c.perform now c.context (pathClosure paths) = (.ok (.array values), context, d))
    (hrun : PathsRun c paths values context d) (hne : paths ≠ []) (id : Nat) (key : BatchKey) :
    c.resolve now id (pathClosure paths) .noCache key =
      (.waits
        { id
          closure := pathClosure paths
          context
          awaited := .ticket (d.enlist context.selections key).1 },
      (d.enlist context.selections key).2) := by
  have hsubscriptions : context.hasSubscriptions = false := by
    refine List.any_eq_false.mpr fun x hx => ?_
    rw [h.operation (hrun.below x hx).2.1]
    decide
  have hwants : wantsFetch .noCache context = true := by
    rw [wantsFetch, Bool.not_eq_true', List.isEmpty_eq_false_iff]
    exact hrun.some hne
  have hfor : c.performFor now id .noCache c.context (pathClosure paths) =
      (.ok (.array values), context, d) := hperform
  simp only [resolve, hfor, hsubscriptions, hwants, openCall, Bool.false_and, if_true,
    Bool.false_eq_true, if_false]

/-- Selections below the root of the query have one key, and so one document. -/
theorem build (h : c.Rested) {ss : List Selection}
    (hss : ∀ x ∈ ss, x ∈ c.forest.handed c.roots.all ∧ x.rootNode = c.roots.query.node ∧
      x.above ≠ []) (hne : ss ≠ []) (operationName : Option String) :
    ∃ document builder, c.builder.build ss operationName = (.ok [document], builder) ∧
      document.operation = .query ∧ builder.Used (c.forest.handed c.roots.all) := by
  have hknown : ss ⊆ c.forest.handed c.roots.all := fun x hx => (hss x hx).1
  have hgathered : Selection.Gathered ss := by
    constructor
    case operation =>
      intro x hx
      rw [h.operation (hss x hx).2.1]
      exact Option.some_ne_none _
    case tree =>
      intro x hx y hy _
      rw [(hss x hx).2.1, (hss y hy).2.1]
    case legal => exact fun x hx => h.forest.legal x (hknown hx)
    case top => exact fun x hx => h.forest.top x (hknown hx)
  obtain ⟨documents, keys, hbuild, hnodup, hkeys, hall⟩ :=
    Document.build_responds h.forest.grown h.builder hknown hgathered operationName
  have hkey : ∀ x ∈ ss, x.documentKey? = some (.query, "") := by
    intro x hx
    obtain ⟨hmem, htree, habove⟩ := hss x hx
    exact h.forest.documentKey? hmem (h.operation htree) habove
  have hone : keys = [(.query, "")] := by
    refine List.perm_singleton.mp ((List.perm_ext_iff_of_nodup hnodup
      (List.nodup_singleton _)).mpr fun key => ?_)
    rw [hkeys, List.mem_singleton]
    constructor
    · rintro ⟨x, hx, he⟩
      exact (Option.some.inj ((hkey x hx).symm.trans he)).symm
    · rintro rfl
      obtain ⟨x, hx⟩ := List.exists_mem_of_ne_nil ss hne
      exact ⟨x, hx, hkey x hx⟩
  subst hone
  obtain _ | ⟨hresponds, hrest⟩ := hall
  cases hrest
  refine ⟨_, (c.builder.build ss operationName).2, ?_, hresponds.operation, ?_⟩
  · rw [← hbuild]
  · exact h.builder.build hknown operationName

/-- A new request has an id of its own. -/
theorem id_ne (h : c.Rested) {id : Nat} (hid : id = c.requests.length + 1) :
    ∀ q ∈ c.requests, q.id ≠ id := by
  rintro q hq rfl
  exact absurd (hid ▸ h.numbered q hq) (Nat.not_succ_le_self _)

/-- Once its only fetch has ended, the client rests again, whatever its cache holds now. -/
theorem served (h : c.Rested) {schedule : Schedule} (horderly : schedule.Orderly) {group : Nat}
    (hgroup : group < schedule.nextGroup) (hwindows : schedule.windows = [])
    (hpending : ∀ q ∈ schedule.pending, q.2 = group) {builder : Document.Builder}
    (hused : builder.Used (c.forest.handed c.roots.all)) {r : Request}
    (hid : r.id = c.requests.length + 1) (cache : Cache) (notices : List Cache.Notice) :
    ({ c with builder, schedule, cache, notices }.served group r).Rested := by
  constructor
  case toIdle => exact ⟨rfl, rfl⟩
  case query => exact h.query
  case forest => exact h.forest
  case builder => exact hused
  case schedule => exact horderly.settle hgroup
  case windows => exact congrArg (List.filter (·.group ≠ group)) hwindows
  case pending =>
    exact List.filter_eq_nil_iff.mpr fun q hq => by simp [hpending q hq]
  case ids => exact Schedule.nodup_map_concat h.ids (h.id_ne hid)
  case numbered =>
    intro q hq
    rw [Client.served, List.length_append, List.length_singleton]
    rcases List.mem_append.mp hq with hq | hq
    · exact Nat.le_succ_of_le (h.numbered q hq)
    · exact Nat.le_of_eq (List.mem_singleton.mp hq ▸ hid)

/-- The window of a first addition closes, and its one document is asked for. -/
theorem dispatch (h : c.Rested) {ss : List Selection}
    (hss : ∀ x ∈ ss, x ∈ c.forest.handed c.roots.all ∧ x.rootNode = c.roots.query.node ∧
      x.above ≠ []) (hne : ss ≠ []) (key : BatchKey) :
    ∃ group builder schedule r, (c.enlist ss key).1 = [group] ∧
      (c.enlist ss key).2.dispatch group = { c with builder, schedule }.sole group r ∧
      r.operation = .query ∧ r.phase = .unsent ∧ r.origin = .group group ∧
      r.id = c.requests.length + 1 ∧
      (schedule.settle group (.ok ())).outcome? [group] = some (.ok ()) ∧
      ∀ phase cache notices,
        ({ c with builder, schedule, cache, notices }.served group { r with phase }).Rested := by
  obtain ⟨xs, hxs, hnil, hadd⟩ := Schedule.add_of_rest h.windows h.pending hne key
  obtain ⟨document, builder, hbuild, hquery, hused⟩ :=
    h.build (fun x hx => hss x (hxs hx)) hnil key.operationName
  let w : Window := { key, group := c.schedule.nextGroup, selections := xs }
  let opened : Schedule :=
    { c.schedule with
      nextGroup := c.schedule.nextGroup + 1
      windows := [w]
      pending := xs.map fun x => (x.id, w.group) }
  have horderly : opened.Orderly := by
    have horderly := (Schedule.adds_add h.schedule ss key).1.orderly
    rwa [hadd] at horderly
  have henlist : c.enlist ss key = ([w.group], { c with schedule := opened }) := by
    rw [enlist, hadd]
  let closed : Schedule := (opened.close w.group).2
  have hclosed : closed.windows = [] :=
    List.filter_eq_nil_iff.mpr (List.forall_mem_singleton.mpr (by simp [w]))
  have hpending : ∀ q ∈ closed.pending, q.2 = w.group := by
    intro q hq
    obtain ⟨x, _, rfl⟩ := List.mem_map.mp hq
    rfl
  let r : Request :=
    { id := c.requests.length + 1, document, extensions := key.extensions, origin := .group w.group }
  have hasked : { c with schedule := opened }.dispatch w.group =
      { c with builder, schedule := closed }.sole w.group r := by
    have hfound : opened.windows.find? (·.group = w.group) = some w :=
      List.find?_cons_of_pos (decide_eq_true rfl)
    rw [dispatch_eq_askFor (c := { c with schedule := opened }) hfound hbuild, askFor]
    simp only [requestAll, requestFor, h.inFlight, List.lookup_nil, newRequest, h.fetches]
    rfl
  have houtcome : (closed.settle w.group (.ok ())).outcomes.lookup w.group = some (.ok ()) := by
    have hnone : closed.outcomes.lookup w.group = none := h.schedule.lookup_nextGroup
    rw [Schedule.settle, Schedule.lookup_append, hnone, if_pos rfl]
    rfl
  refine ⟨w.group, builder, closed, r, congrArg Prod.fst henlist, ?_, hquery, rfl, rfl, rfl, ?_, ?_⟩
  · rw [henlist]
    exact hasked
  · rw [Schedule.outcome?, houtcome]
    rfl
  · intro phase cache notices
    exact h.served (horderly.close w.group) (Nat.lt_succ_self _) hclosed hpending hused rfl cache
      notices

end Rested

/-- A response without errors and references, in which each identity has one position. -/
structure Storable (options : Cache.Options) (a : ExecutionResult) (fs : Fields Json) : Prop where
  result : a.result = .ok (.object fs)
  plain : Json.Plain (.object fs)
  ascending : Json.Everywhere Fields.Ascending (.object fs)
  distinct : (fs.flatMap fun q => options.identities q.2).Nodup

/-- A cache without expiry stores such a response, and shows it. -/
theorem Storable.store {cache : Cache} {a : ExecutionResult} {fs : Fields Json}
    (h : Storable cache.options a fs) (hage : cache.options.maxAge = none)
    (hresolver : ∀ n, cache.options.normalizer = some n → n.resolver = none) (now : Nat) :
    ∃ stored notice, storeAnswer cache now .query (.ok a) = .ok (stored, notice) ∧
      stored.Shows fs := by
  obtain ⟨stored, notice, hset, _, hpresents⟩ :=
    Cache.set_presents hresolver hage now h.plain h.ascending h.distinct
  have hpayload : answerPayload .query (.ok a) =
      .ok (.object [(Operation.query.text, .object fs)]) := by
    simp only [answerPayload, bind, Except.bind, h.result]
    rfl
  refine ⟨stored, notice, ?_, Cache.shows_of_presents hpresents⟩
  simp only [storeAnswer, hpayload, hset]

/-- A closure of paths that always fetches, with the client to itself, asks for one query. Once the
server has answered with a leaf for each of the paths, the closure reads these leaves. -/
theorem lone_fetch (h : c.Rested) (hn : c.schema.HasGraphNames)
    (hage : c.cache.options.maxAge = none)
    (hresolver : ∀ n, c.cache.options.normalizer = some n → n.resolver = none)
    (hne : paths ≠ []) (hpaths : ∀ path ∈ paths, c.schema.Declares Operation.query.text path)
    (now id : Nat) (key : BatchKey) :
    ∃ call opened group sent r,
      c.resolve now id (pathClosure paths) .noCache key = (.waits call, opened) ∧
      call.awaited = .ticket [group] ∧
      (∀ now, (opened.dispatch group).pollFetch now (.group group) = (.send r, sent)) ∧
      r.operation = .query ∧
      (∀ now, sent.pollFetch now (.group group) = (.waiting, sent)) ∧
      ∀ a fs leaves, Storable c.cache.options a fs →
        List.Forall₂ (LeafAt c.roots.query.aliasLength fs) paths leaves →
        ∀ now₁ now₂ now₃, ∃ stored ended concluded,
          (sent.answer r.id (.ok a)).pollFetch now₁ (.group group) = (.delivered, stored) ∧
          stored.pollFetch now₂ (.group group) = (.ended (.ok ()), ended) ∧
          ended.schedule.outcome? [group] = some (.ok ()) ∧
          ended.conclude now₃ call (.ok ()) = (.ok (.array leaves), concluded) ∧
          concluded.requests = c.requests ++ [{ r with phase := .finished (.ok ()) }] ∧
          concluded.Rested := by
  obtain ⟨values, context, ran, hperform, hrun⟩ :=
    perform_paths h.forest hn hpaths now (rfl : c.context.roots = c.roots) rfl
  have hran := h.run hrun
  have hoptions := hrun.options
  obtain ⟨forest, cache, notices, rfl⟩ := hrun.same
  obtain ⟨group, builder, schedule, r, hticket, hdispatch, hquery, hphase, horigin, hid, houtcome,
    hserved⟩ := hran.dispatch hrun.below (hrun.some hne) key
  let ran : Client := { c with forest, cache, notices, builder, schedule }
  have hnew : ∀ q ∈ ran.requests, q.id ≠ r.id := h.id_ne hid
  have hresolve := h.resolve_paths hperform hrun hne id key
  rw [hticket] at hresolve
  let asking (phase : Phase) : Request := { r with phase }
  refine ⟨_, _, group, ran.sole group (asking .sent), r, hresolve, rfl, fun now => ?_, hquery,
    fun now => poll_sent (r := asking .sent) hnew rfl now, ?_⟩
  · rw [hdispatch]
    exact poll_unsent hnew hphase now
  intro a fs leaves hstorable hleaves now₁ now₂ now₃
  obtain ⟨stored, notice, hstore, hshows⟩ :=
    Storable.store (hoptions.symm ▸ hstorable) (hoptions.symm ▸ hage) (hoptions.symm ▸ hresolver)
      now₁
  let told : Client := { ran with cache := stored, notices := ran.notices ++ [notice] }
  let ended : Client := told.served group (asking (.finished (.ok ())))
  have hended : ended.Rested := hserved _ _ _
  have hreset : context.reset.roots = ended.roots := hrun.roots
  obtain ⟨values, last, concluded, hagain, hlast⟩ :=
    perform_paths hended.forest hn hpaths now₃ hreset rfl
  obtain rfl := hlast.given fs leaves hshows hleaves
  refine ⟨told.sole group (asking (.finished (.ok ()))), ended, concluded, ?_,
    poll_finished (c := told) (r := asking (.finished (.ok ()))) hnew rfl now₂, houtcome, ?_, ?_,
    hended.run hlast⟩
  · have hanswered : (ran.sole group (asking .sent)).answer r.id (.ok a) =
        ran.sole group (asking (.answered (.ok a))) :=
      answer_sole (r := asking .sent) hnew rfl (.ok a)
    rw [hanswered]
    exact poll_answered (r := asking (.answered (.ok a))) hnew rfl horigin (hquery.symm ▸ hstore)
  · simp only [conclude, hagain]
    rfl
  · obtain ⟨_, _, _, rfl⟩ := hlast.same
    rfl

/-! ### A user and a version -/

namespace Lone

def schema : Schema :=
  { types := [("User", [("id", { type := "ID!" }), ("name", { type := "String" })]),
      ("query", [("user", { type := "User!", arguments := [("id", "ID!")] }),
        ("version", { type := "Int" })])] }

def user : Hop := { name := "user", arguments := [("id", .string "7")] }

def asked : List (List Hop) := [[user, { name := "name" }], [{ name := "version" }]]

def fields : Fields Json :=
  [(user.responseKey 6, .object [("__typename", .string "User"), ("id", .string "7"),
    ("name", .string "Ann")]), ("version", .int 2)]

def reply : ExecutionResult := { data := some (.object fields) }

theorem storable : Storable {} reply fields where
  result := rfl
  plain := by decide +kernel
  ascending := by decide +kernel
  distinct := by decide +kernel

theorem declares : ∀ path ∈ asked, schema.Declares Operation.query.text path := by
  refine List.forall_mem_cons.mpr ⟨?_, List.forall_mem_singleton.mpr ?_⟩
  · exact .object rfl rfl rfl rfl (.scalar rfl rfl rfl rfl)
  · exact .scalar rfl rfl rfl rfl

theorem leaves : List.Forall₂ (LeafAt 6 fields) asked [.string "Ann", .int 2] := by
  have hother : user.responseKey 6 ≠ "version" := by decide +kernel
  have hname : Hop.responseKey { name := "name" } 6 = "name" := rfl
  have hversion : Hop.responseKey { name := "version" } 6 = "version" := rfl
  refine .cons ⟨?_, rfl⟩ (.cons ⟨?_, rfl⟩ .nil)
  · simp [Json.memberAt?, Json.member?, fields, Fields.get?_cons, hname]
  · simp [Json.memberAt?, Json.member?, fields, Fields.get?_cons, hversion, hother]

/-- The closure reads what the server has answered. -/
theorem lone_fetch_reads : ∃ call opened group sent r stored ended concluded,
    (new schema false {}).resolve 0 1 (pathClosure asked) .noCache {} = (.waits call, opened) ∧
    (opened.dispatch group).pollFetch 5 (.group group) = (.send r, sent) ∧
    (sent.answer r.id (.ok reply)).pollFetch 10 (.group group) = (.delivered, stored) ∧
    stored.pollFetch 10 (.group group) = (.ended (.ok ()), ended) ∧
    ended.conclude 15 call (.ok ()) = (.ok (.array [.string "Ann", .int 2]), concluded) := by
  have hnames : ∀ q ∈ schema.types, ∀ r ∈ q.2, Selection.isGraphName r.1 = true := by
    decide
  obtain ⟨call, opened, group, sent, r, hresolve, _, hsend, _, _, hdeliver⟩ :=
    lone_fetch (rested_new schema false {} (.new {})) hnames rfl
      (fun n hn => by obtain rfl := Option.some.inj hn; rfl) (by decide) declares 0 1 {}
  obtain ⟨stored, ended, concluded, hstored, hended, _, hread, _⟩ :=
    hdeliver reply fields _ storable leaves 10 10 15
  exact ⟨call, opened, group, sent, r, stored, ended, concluded, hresolve, hsend 5, hstored, hended,
    hread⟩

end Lone

end Client
end LazyGraph
