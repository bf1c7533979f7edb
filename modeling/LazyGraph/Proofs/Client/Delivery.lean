import LazyGraph.Proofs.Document
import LazyGraph.Proofs.Schedule
import LazyGraph.Proofs.Client.Truthful

/-!
Delivery: what is waited for is in an open window, or asked for by a request, or stored, as long as
the fetch of its group has not failed. Every transition keeps it so.
-/
namespace LazyGraph.Client

open Schedule (Holds)

variable {server : Server} {options : Options} {schema : Schema} {c d e : Client}
  {way : List String} {group : Nat}

/-- The data for a document that asks for the way was stored. -/
def Told (server : Server) (c : Client) (way : List String) : Prop :=
  ∃ document : Document, document.Asks way ∧ ∃ notice ∈ c.notices,
    notice.payload = .object [(Operation.query.text, .object (server.data document))]

/-- The fetch of a group brings what lies at the end of a way, or it is there. -/
inductive Brings (server : Server) (c : Client) (group : Nat) (way : List String) : Prop
  | window {x : Selection} (holds : c.schedule.Holds group x) (leads : x.Leads way)
  | fetch {f : Fetch} {r : Request} (running : f ∈ c.fetches) (id : f.id = .group group)
    (asked : r ∈ c.requests) (job : r.id ∈ f.jobs) (asks : r.document.Asks way)
  | told (told : c.Told server way)

/-- What the fetch of a group owes to those who wait for it. -/
inductive Due (server : Server) (c : Client) (group : Nat) (way : List String) : Prop
  | waiting (unsettled : c.schedule.outcomes.lookup group = none)
    (brings : c.Brings server group way)
  | failed {cause : TransportError} (settled : c.schedule.outcomes.lookup group = some (.error cause))
  | told (told : c.Told server way)

/-- What is due stays due. -/
structure Forwards (server : Server) (c d : Client) : Prop where
  roots : d.roots = c.roots
  due : ∀ group way, way ≠ [] → c.Due server group way → d.Due server group way

theorem Forwards.refl (c : Client) : Forwards server c c := ⟨rfl, fun _ _ _ h => h⟩

theorem Forwards.trans (h : Forwards server c d) (h' : Forwards server d e) :
    Forwards server c e :=
  ⟨h'.roots.trans h.roots, fun group way hn hdue => h'.due group way hn (h.due group way hn hdue)⟩

theorem Told.mono (h : c.Told server way) (hn : c.notices ⊆ d.notices) : d.Told server way := by
  obtain ⟨document, hasks, notice, hm, hpayload⟩ := h
  exact ⟨document, hasks, notice, hn hm, hpayload⟩

theorem Brings.mono (h : c.Brings server group way)
    (hw : ∀ x, c.schedule.Holds group x → d.schedule.Holds group x) (hf : c.fetches ⊆ d.fetches)
    (hr : ∀ r ∈ c.requests, ∃ q ∈ d.requests, q.id = r.id ∧ q.document = r.document)
    (hn : c.notices ⊆ d.notices) : d.Brings server group way := by
  cases h with
  | window hx hway => exact .window (hw _ hx) hway
  | fetch hrunning hid hasked hj ha =>
      obtain ⟨q, hq, he, hd⟩ := hr _ hasked
      exact .fetch (hf hrunning) hid hq (he ▸ hj) (hd ▸ ha)
  | told ht => exact .told (ht.mono hn)

/-- A group that settled well has brought what is due. -/
theorem Due.told_of_settled (h : c.Due server group way)
    (hs : c.schedule.outcomes.lookup group = some (.ok ())) : c.Told server way := by
  cases h with
  | waiting hn => cases hn.symm.trans hs
  | failed hf => cases hf.symm.trans hs
  | told ht => exact ht

/-- Where the outcomes stay, it is enough that what fetches bring is kept. -/
theorem forwards_of_brings (hroots : d.roots = c.roots) (ho : d.schedule.outcomes = c.schedule.outcomes)
    (hn : c.notices ⊆ d.notices)
    (hb : ∀ group way, way ≠ [] → c.schedule.outcomes.lookup group = none →
      c.Brings server group way → d.Brings server group way) : Forwards server c d := by
  refine ⟨hroots, fun group way hway hdue => ?_⟩
  cases hdue with
  | waiting hopen hbrings => exact .waiting (ho ▸ hopen) (hb group way hway hopen hbrings)
  | failed hf => exact .failed (ho ▸ hf)
  | told ht => exact .told (ht.mono hn)

theorem forwards_of_subset (hroots : d.roots = c.roots) (ho : d.schedule.outcomes = c.schedule.outcomes)
    (hw : ∀ group x, c.schedule.Holds group x → d.schedule.Holds group x)
    (hf : c.fetches ⊆ d.fetches)
    (hr : ∀ r ∈ c.requests, ∃ q ∈ d.requests, q.id = r.id ∧ q.document = r.document)
    (hn : c.notices ⊆ d.notices) : Forwards server c d :=
  forwards_of_brings hroots ho hn fun group _ _ _ hb => hb.mono (hw group) hf hr hn

/-- The bookkeeping of a client. -/
structure Orderly (server : Server) (c : Client) : Prop where
  plain : c.forest.Plain c.roots.query
  builder : c.builder.Remembers c.forest c.roots.query
  schedule : c.schedule.Orderly
  windows : ∀ w ∈ c.schedule.windows, w.selections ⊆ c.forest.known c.roots.query
  distinct : (c.fetches.map (·.id)).Nodup
  running : ∀ f ∈ c.fetches, ∃ group, f.id = .group group ∧ group < c.schedule.nextGroup ∧
    c.schedule.outcomes.lookup group = none ∧ ∀ w ∈ c.schedule.windows, w.group ≠ group
  jobs : ∀ f ∈ c.fetches, ∀ job ∈ f.jobs, ∃ r ∈ c.requests, r.id = job
  shared : ∀ q ∈ c.inFlight, ∃ r ∈ c.requests, r.id = q.2 ∧ r.hash = q.1.1
  finished : ∀ r ∈ c.requests, r.phase = .finished (.ok ()) → ∀ way, r.document.Asks way →
    c.Told server way
  pending : ∀ q ∈ c.schedule.pending, ∃ x ∈ c.forest.known c.roots.query, x.id = q.1 ∧
    ∀ way, x.Leads way → way ≠ [] → c.Due server q.2 way

theorem orderly_new (server : Server) (schema : Schema) (hasSubscriber : Bool) (options : Options) :
    (Client.new schema hasSubscriber options).Orderly server where
  plain :=
    { rooted := ⟨_, [], rfl, rfl, rfl, .nil⟩
      grown _ h := absurd h List.not_mem_nil
      ids := List.nodup_singleton _
      earlier x hx := by
        rw [List.mem_singleton.mp hx]
        exact (by decide : 1 < 4) }
  builder _ h := absurd h List.not_mem_nil
  schedule := .empty
  windows _ h := absurd h List.not_mem_nil
  distinct := List.nodup_nil
  running _ h := absurd h List.not_mem_nil
  jobs _ h := absurd h List.not_mem_nil
  shared _ h := absurd h List.not_mem_nil
  finished _ h := absurd h List.not_mem_nil
  pending _ h := absurd h List.not_mem_nil

namespace Orderly

/-- What is due of pending selections stays so while others change. -/
theorem pending_forwards (h : c.Orderly server) (hf : Forwards server c d)
    (hk : c.forest.known c.roots.query ⊆ d.forest.known d.roots.query) :
    ∀ q ∈ c.schedule.pending, ∃ x ∈ d.forest.known d.roots.query, x.id = q.1 ∧
      ∀ way, x.Leads way → way ≠ [] → d.Due server q.2 way := by
  intro q hq
  obtain ⟨x, hx, hid, hdue⟩ := h.pending q hq
  exact ⟨x, hk hx, hid, fun way hway hn => hf.due q.2 way hn (hdue way hway hn)⟩

theorem fetch?_eq_some (h : c.Orderly server) {f : Fetch} (hf : f ∈ c.fetches) :
    c.fetch? f.id = some f :=
  Schedule.find?_of_mem h.distinct hf

/-! ### Runs and tickets -/

theorem grow (h : c.Orderly server) {forest : Selection.Forest} (cache : Cache)
    (hplain : forest.Plain c.roots.query)
    (hk : c.forest.known c.roots.query ⊆ forest.known c.roots.query) :
    Orderly server { c with forest, cache } ∧ Forwards server c { c with forest, cache } := by
  have hforwards : Forwards server c { c with forest, cache } :=
    forwards_of_subset rfl rfl (fun _ _ hx => hx) (List.Subset.refl _)
      (fun r hr => ⟨r, hr, rfl, rfl⟩) (List.Subset.refl _)
  refine ⟨⟨hplain, h.builder.mono hk, h.schedule, fun w hw => ?_, h.distinct, h.running, h.jobs,
    h.shared, h.finished, h.pending_forwards hforwards hk⟩, hforwards⟩
  exact List.Subset.trans (h.windows w hw) hk

/-- Known selections are due from the groups of their ticket. -/
theorem enlist (h : c.Orderly server) {ss : List Selection} (hss : ss ⊆ c.forest.known c.roots.query)
    (key : BatchKey) :
    (c.enlist ss key).2.Orderly server ∧ Forwards server c (c.enlist ss key).2 ∧
      ∀ x ∈ ss, ∀ way, x.Leads way → way ≠ [] → ∃ group ∈ (c.enlist ss key).1,
        (c.enlist ss key).2.Due server group way := by
  obtain ⟨hadds, hticket⟩ := Schedule.adds_add h.schedule ss key
  have hforwards : Forwards server c (c.enlist ss key).2 :=
    forwards_of_subset rfl hadds.outcomes hadds.holds (List.Subset.refl _)
      (fun r hr => ⟨r, hr, rfl, rfl⟩) (List.Subset.refl _)
  have hpending : ∀ q ∈ (c.enlist ss key).2.schedule.pending,
      ∃ x ∈ c.forest.known c.roots.query, x.id = q.1 ∧
        ∀ way, x.Leads way → way ≠ [] → (c.enlist ss key).2.Due server q.2 way := by
    intro q hq
    rcases hadds.pending q hq with hold | ⟨x, hx, hid, hholds⟩
    · exact h.pending_forwards hforwards (List.Subset.refl _) q hold
    · exact ⟨x, hss hx, hid, fun way hway _ =>
        .waiting (hadds.orderly.pending q hq) (.window hholds hway)⟩
  refine ⟨⟨h.plain, h.builder, hadds.orderly, fun w hw x hx => ?_, h.distinct, fun f hf => ?_,
    h.jobs, h.shared, h.finished, hpending⟩, hforwards, fun x hx way hway hn => ?_⟩
  · rcases hadds.selections w hw x hx with hx | ⟨w', hw', hx⟩
    · exact hss hx
    · exact h.windows w' hw' hx
  · obtain ⟨group, hid, hlt, hnone, hclosed⟩ := h.running f hf
    refine ⟨group, hid, Nat.lt_of_lt_of_le hlt hadds.nextGroup, ?_, fun w hw => ?_⟩
    · exact hadds.outcomes ▸ hnone
    · rcases hadds.windows w hw with ⟨w', hw', he⟩ | hle
      · exact he ▸ hclosed w' hw'
      · exact Nat.ne_of_gt (Nat.lt_of_lt_of_le hlt hle)
  · obtain ⟨group, hgroup, hin⟩ := hticket x hx
    obtain ⟨y, hy, hid, hdue⟩ := hpending _ hin
    obtain rfl := h.plain.eq_of_id hy (hss hx) hid
    exact ⟨group, hgroup, hdue way hway hn⟩

/-! ### Requests -/

/-- A request learns what became of it. -/
theorem setPhase (h : c.Orderly server) (id : Nat) {phase : Phase}
    (hp : phase = .finished (.ok ()) → ∀ r ∈ c.requests, r.id = id →
      ∀ way, r.document.Asks way → c.Told server way) :
    (c.setPhase id phase).Orderly server ∧ Forwards server c (c.setPhase id phase) := by
  let put (r : Request) : Request := if r.id == id then { r with phase } else r
  have hput : ∀ r, (put r).id = r.id ∧ (put r).document = r.document := by
    intro r
    simp only [put]
    split <;> exact ⟨rfl, rfl⟩
  have hkept : ∀ r ∈ c.requests, put r ∈ (c.setPhase id phase).requests :=
    fun r hr => List.mem_map_of_mem hr
  have hforwards : Forwards server c (c.setPhase id phase) :=
    forwards_of_subset rfl rfl (fun _ _ hx => hx) (List.Subset.refl _)
      (fun r hr => ⟨put r, hkept r hr, hput r⟩) (List.Subset.refl _)
  refine ⟨⟨h.plain, h.builder, h.schedule, h.windows, h.distinct, h.running, fun f hf job hj => ?_,
    fun q hq => ?_, fun r hr hphase way ha => ?_,
    h.pending_forwards hforwards (List.Subset.refl _)⟩, hforwards⟩
  · obtain ⟨r, hr, rfl⟩ := h.jobs f hf job hj
    exact ⟨put r, hkept r hr, (hput r).1⟩
  · obtain ⟨r, hr, hid, hhash⟩ := h.shared q hq
    refine ⟨put r, hkept r hr, (hput r).1.trans hid, ?_⟩
    rw [Request.hash, (hput r).2]
    exact hhash
  · obtain ⟨q, hq, rfl⟩ := List.mem_map.mp hr
    split at hphase
    · rename_i hid
      rw [if_pos hid] at ha
      exact hp hphase q hq (eq_of_beq hid) way ha
    · rename_i hid
      rw [if_neg hid] at ha
      exact h.finished q hq hphase way ha

/-- Requests are no longer shared. -/
theorem releases (h : c.Orderly server) (jobs : List Nat) :
    ∃ inFlight, jobs.foldl Client.release c = { c with inFlight } ∧
      Orderly server { c with inFlight } ∧ Forwards server c { c with inFlight } := by
  have hfold : ∀ (jobs : List Nat) (c : Client), ∃ inFlight,
      jobs.foldl Client.release c = { c with inFlight } ∧ inFlight ⊆ c.inFlight := by
    intro jobs
    induction jobs with
    | nil => exact fun c => ⟨_, rfl, List.Subset.refl _⟩
    | cons job jobs ih =>
        intro c
        obtain ⟨inFlight, he, hs⟩ := ih (c.release job)
        exact ⟨inFlight, he, List.Subset.trans hs List.filter_sublist.subset⟩
  obtain ⟨inFlight, he, hs⟩ := hfold jobs c
  have hforwards : Forwards server c { c with inFlight } :=
    forwards_of_subset rfl rfl (fun _ _ hx => hx) (List.Subset.refl _)
      (fun r hr => ⟨r, hr, rfl, rfl⟩) (List.Subset.refl _)
  exact ⟨inFlight, he, ⟨h.plain, h.builder, h.schedule, h.windows, h.distinct, h.running, h.jobs,
    fun q hq => h.shared q (hs hq), h.finished,
    h.pending_forwards hforwards (List.Subset.refl _)⟩, hforwards⟩

/-! ### Fetches -/

/-- A fetch no longer waits for a request whose answer was stored. -/
theorem setJobs (h : c.Orderly server) {f : Fetch} (hf : f ∈ c.fetches) {jobs : List Nat}
    (hj : jobs ⊆ f.jobs)
    (hd : ∀ r ∈ c.requests, r.id ∈ f.jobs → r.id ∈ jobs ∨
      ∀ way, r.document.Asks way → c.Told server way) :
    (c.setJobs f.id jobs).Orderly server ∧ Forwards server c (c.setJobs f.id jobs) := by
  let put (g : Fetch) : Fetch := if g.id = f.id then { g with jobs } else g
  have hid : ∀ g, (put g).id = g.id := by
    intro g
    simp only [put]
    split <;> rfl
  have hjobs : ∀ g ∈ c.fetches, (put g = g) ∨ (g = f ∧ (put g).jobs = jobs) := by
    intro g hg
    simp only [put]
    split
    · rename_i he
      exact .inr ⟨List.inj_on_of_nodup_map h.distinct hg hf he, rfl⟩
    · exact .inl rfl
  have hforwards : Forwards server c (c.setJobs f.id jobs) :=
    forwards_of_brings rfl rfl (List.Subset.refl _) fun group way _ _ hb => by
      cases hb with
      | window hx hway => exact .window hx hway
      | @fetch g r hg hgroup hr hjob ha =>
          have hin : put g ∈ (c.setJobs f.id jobs).fetches := List.mem_map_of_mem hg
          have hgroup' : (put g).id = .group group := (hid g).trans hgroup
          rcases hjobs g hg with he | ⟨rfl, he⟩
          · exact .fetch hin hgroup' hr (he.symm ▸ hjob) ha
          · rcases hd r hr hjob with hleft | htold
            · exact .fetch hin hgroup' hr (he.symm ▸ hleft) ha
            · exact .told (htold way ha)
      | told ht => exact .told ht
  refine ⟨⟨h.plain, h.builder, h.schedule, h.windows, ?_, fun g hg => ?_, fun g hg job hjob => ?_,
    h.shared, h.finished, h.pending_forwards hforwards (List.Subset.refl _)⟩, hforwards⟩
  · have hids : (c.setJobs f.id jobs).fetches.map (·.id) = c.fetches.map (·.id) := by
      rw [Client.setJobs, List.map_map]
      exact List.map_congr_left fun g _ => hid g
    rw [hids]
    exact h.distinct
  · obtain ⟨g', hg', rfl⟩ := List.mem_map.mp hg
    obtain ⟨group, hgroup, rest⟩ := h.running g' hg'
    exact ⟨group, (hid g').trans hgroup, rest⟩
  · obtain ⟨g', hg', rfl⟩ := List.mem_map.mp hg
    have hjob : job ∈ (put g').jobs := hjob
    rcases hjobs g' hg' with he | ⟨rfl, he⟩
    · exact h.jobs g' hg' job (he ▸ hjob)
    · exact h.jobs g' hf job (hj (he ▸ hjob))

/-- A fetch without requests has brought what it was to bring. -/
theorem told_of_brings (h : c.Orderly server) {f : Fetch} (hf : f ∈ c.fetches)
    (hid : f.id = .group group) (hj : f.jobs = []) (hb : c.Brings server group way) :
    c.Told server way := by
  obtain ⟨n, hgroup, _, _, hclosed⟩ := h.running f hf
  obtain rfl : group = n := FetchId.group.inj (hid.symm.trans hgroup)
  cases hb with
  | window hx =>
      obtain ⟨w, hw, hg, _⟩ := hx
      exact absurd hg (hclosed w hw)
  | fetch hg hgid hq hjob =>
      have hsame := List.inj_on_of_nodup_map h.distinct hg hf (hgid.trans hid.symm)
      rw [hsame, hj] at hjob
      exact absurd hjob List.not_mem_nil
  | told ht => exact ht

/-- The client once the fetch of a group has ended. -/
def ended (c : Client) (inFlight : List (ContentKey × Nat)) (group : Nat) (result : FetchResult) :
    Client :=
  { c with
    inFlight
    fetches := c.fetches.filter (·.id ≠ .group group)
    schedule := c.schedule.settle group result }

section

variable {inFlight : List (ContentKey × Nat)} {n : Nat} {result : FetchResult}

theorem lookup_ended : (ended c inFlight n result).schedule.outcomes.lookup group =
    (c.schedule.outcomes.lookup group).or (if group = n then some result else none) :=
  Schedule.lookup_append _ _ _

theorem brings_ended (hb : c.Brings server group way) (he : group ≠ n) :
    (ended c inFlight n result).Brings server group way := by
  cases hb with
  | window hx hleads =>
      obtain ⟨w, hw, hg, hx⟩ := hx
      refine .window ⟨w, List.mem_filter.mpr ⟨hw, ?_⟩, hg, hx⟩ hleads
      exact decide_eq_true (hg.symm ▸ he)
  | fetch hg hgid hq hjob ha =>
      refine .fetch (List.mem_filter.mpr ⟨hg, decide_eq_true ?_⟩) hgid hq hjob ha
      rw [hgid]
      exact fun e => he (FetchId.group.inj e)
  | told ht => exact .told ht

/-- What is due stays due where a fetch that ends well has nothing left to wait for. -/
theorem forwards_ended (h : c.Orderly server) {f : Fetch} (hf : f ∈ c.fetches)
    (hid : f.id = .group n) (hr : result = .ok () → f.jobs = []) :
    Forwards server c (ended c inFlight n result) := by
  refine ⟨rfl, fun group way hway hdue => ?_⟩
  cases hdue with
  | waiting hopen hbrings =>
      by_cases he : group = n
      · subst he
        cases result with
        | error e =>
            have hfailed : (ended c inFlight group (.error e)).schedule.outcomes.lookup group =
                some (.error e) := by
              rw [lookup_ended, hopen, if_pos rfl]
              rfl
            exact .failed hfailed
        | ok => exact .told (h.told_of_brings hf hid (hr rfl) hbrings)
      · refine .waiting ?_ (brings_ended hbrings he)
        rw [lookup_ended, hopen, if_neg he]
        rfl
  | @failed cause hfailed =>
      have hstill : (ended c inFlight n result).schedule.outcomes.lookup group =
          some (.error cause) := by
        rw [lookup_ended, hfailed]
        rfl
      exact .failed hstill
  | told ht => exact .told ht

end

theorem endFetch (h : c.Orderly server) {f : Fetch} (hf : f ∈ c.fetches) {result : FetchResult}
    (hr : result = .ok () → f.jobs = []) :
    (c.endFetch f.id result).Orderly server ∧ Forwards server c (c.endFetch f.id result) := by
  obtain ⟨n, hid, hlt, hnone, hclosed⟩ := h.running f hf
  obtain ⟨inFlight, hreleased, hkept, hsame⟩ := h.releases f.jobs
  have hended : c.endFetch f.id result = ended c inFlight n result := by
    simp only [Client.endFetch, h.fetch?_eq_some hf, hreleased]
    rw [hid]
    rfl
  have hforwards : Forwards server c (ended c inFlight n result) := h.forwards_ended hf hid hr
  rw [hended]
  refine ⟨⟨h.plain, h.builder, h.schedule.settle hlt, fun w hw => ?_, ?_, fun g hg => ?_,
    fun g hg => h.jobs g (List.mem_of_mem_filter hg), hkept.shared, h.finished, fun q hq => ?_⟩,
    hforwards⟩
  · exact h.windows w (List.mem_of_mem_filter hw)
  · exact h.distinct.sublist (List.filter_sublist.map _)
  · obtain ⟨hg, hne⟩ := List.mem_filter.mp hg
    obtain ⟨group, hgid, hglt, hgnone, hgclosed⟩ := h.running g hg
    refine ⟨group, hgid, hglt, ?_, fun w hw => hgclosed w (List.mem_of_mem_filter hw)⟩
    have hgroup : group ≠ n := by
      rintro rfl
      exact of_decide_eq_true hne hgid
    rw [lookup_ended, hgnone, if_neg hgroup]
    rfl
  · exact h.pending_forwards hforwards (List.Subset.refl _) q (List.mem_of_mem_filter hq)

end Orderly
end LazyGraph.Client
