import LazyGraph.Proofs.Cache.Dependence
import LazyGraph.Proofs.Cache.Invariant

/-!
Sweeping. What is past its time goes, and then what nothing leads to any more; all else stays, and
with it the data at every path. In every run the placeholders stand in values that are stored, so a
collection that drops no object drops no placeholder.
-/
namespace LazyGraph

/-- Data that may be dropped, and whose stale window is over. -/
def Lifetime.Over (l : Lifetime) (time : Nat) : Prop :=
  l.isWeak = true ∧ ∃ staleUntil ∈ l.staleUntil?, staleUntil ≤ time

theorem Lifetime.isReclaimable_iff {l : Lifetime} {time : Nat} :
    l.isReclaimable time = true ↔ l.Over time := by
  cases l <;> simp [isReclaimable, Over, isWeak, staleUntil?]

instance (l : Lifetime) (time : Nat) : Decidable (l.Over time) :=
  decidable_of_iff _ Lifetime.isReclaimable_iff

namespace Cache

namespace Store

variable {options : Options} {now : Nat} {s t : Store}

/-! ### What is left -/

theorem containers_dropContainers (s : Store) (keys : List ContainerKey) :
    (keys.foldl dropContainer s).containers = s.containers.filter (·.1 ∉ keys) := by
  induction keys generalizing s with
  | nil => exact (List.filter_eq_self.mpr fun p _ => by simp).symm
  | cons key keys ih =>
      rw [List.foldl_cons, ih, dropContainer, Recency.erase, List.filter_filter]
      exact List.filter_congr fun p _ => by simp [Bool.and_comm]

theorem containers_sweep (s : Store) (nodup : (Recency.keys s.containers).Nodup) (now : Nat) :
    (s.sweep now).containers = s.containers.filter (!·.2.lifetime.isReclaimable now) := by
  have hdropped : (s.sweep now).containers = s.containers.filter (·.1 ∉ s.reclaimable now) := by
    rw [sweep, containers_collectObjects, containers_dropContainers]
  rw [hdropped]
  refine List.filter_congr fun p hp => ?_
  have hkey : p.1 ∈ s.reclaimable now ↔ p.2.lifetime.isReclaimable now = true := by
    constructor
    · intro h
      obtain ⟨q, hq, hpq⟩ := List.mem_map.mp h
      obtain ⟨hq, hold⟩ := List.mem_filter.mp hq
      have hq' : (p.1, q.2) ∈ s.containers := by
        rw [← hpq]
        exact hq
      have hsame : p.2 = q.2 :=
        Option.some.inj ((Recency.peek?_of_mem nodup hp).symm.trans (Recency.peek?_of_mem nodup hq'))
      rw [hsame]
      exact hold
    · intro h
      exact List.mem_map_of_mem (List.mem_filter.mpr ⟨hp, h⟩)
  rw [Bool.eq_iff_iff]
  simp [hkey]

theorem placeholders_dropContainers (s : Store) (keys : List ContainerKey) :
    (keys.foldl dropContainer s).placeholders =
      s.placeholders.filter (·.owner ∉ keys.map Owner.container) := by
  induction keys generalizing s with
  | nil => exact (List.filter_eq_self.mpr fun mark _ => by simp).symm
  | cons key keys ih =>
      rw [List.foldl_cons, ih, dropContainer, List.filter_filter]
      exact List.filter_congr fun mark _ => by simp [Bool.and_comm]

theorem ascending_sweep (h : Fields.Ascending s.objects) (now : Nat) :
    Fields.Ascending (s.sweep now).objects := by
  rw [← (shrinks_dropContainers s (s.reclaimable now)).objects] at h
  rw [sweep, objects_collectObjects]
  exact h.filter _

/-- The objects that a sweep leaves are those that the containers it leaves lead to. -/
theorem get?_sweep_eq_some_iff {id : String} {v : Json} :
    Fields.get? (s.sweep now).objects id = some v ↔
      (∃ p ∈ (s.sweep now).containers, Json.Leads s.objects p.2.data id) ∧
        Fields.get? s.objects id = some v := by
  let left := (s.reclaimable now).foldl dropContainer s
  have hobjects : left.objects = s.objects := (shrinks_dropContainers s _).objects
  have hkept : Fields.get? (s.sweep now).objects id =
      if id ∈ left.reachable then Fields.get? left.objects id else none := by
    rw [sweep, objects_collectObjects, get?_alive]
  have halive : id ∈ left.reachable ↔
      ∃ p ∈ (s.sweep now).containers, Json.Leads left.objects p.2.data id := by
    rw [sweep, containers_collectObjects, reachable, Json.mem_reach_iff]
    constructor
    · rintro ⟨v, hv, hl⟩
      obtain ⟨p, hp, rfl⟩ := List.mem_map.mp hv
      exact ⟨p, hp, hl⟩
    · rintro ⟨p, hp, hl⟩
      exact ⟨p.2.data, List.mem_map_of_mem hp, hl⟩
  rw [hkept, Option.ite_none_right_eq_some, halive, hobjects]

/-- A container that a sweep leaves is what it was. -/
theorem peek?_sweep (nodup : (Recency.keys s.containers).Nodup) {time : Nat} {key : ContainerKey}
    (h : key ∈ Recency.keys (s.sweep time).containers) :
    Recency.peek? (s.sweep time).containers key = Recency.peek? s.containers key := by
  have hsub := s.containers_sweep_sublist time
  obtain ⟨p, hp, rfl⟩ := List.mem_map.mp h
  exact (Recency.peek?_of_mem (nodup.sublist (hsub.map _)) hp).trans
    (Recency.peek?_of_mem nodup (hsub.subset hp)).symm

/-- What a container holds that a sweep leaves, the sweep leaves too. -/
theorem data?_sweep (nodup : (Recency.keys s.containers).Nodup) {time : Nat} {path : CachePath}
    (h : keyOf path ∈ Recency.keys (s.sweep time).containers) :
    (s.sweep time).data? path = s.data? path := by
  let left := (s.reclaimable time).foldl dropContainer s
  have hcontainer : Recency.peek? left.containers (keyOf path) =
      Recency.peek? s.containers (keyOf path) := by
    rw [← peek?_sweep nodup h, sweep, containers_collectObjects]
  have hobjects : left.objects = s.objects := (shrinks_dropContainers s _).objects
  calc (s.sweep time).data? path = left.data? path := left.data?_collectObjects path
    _ = s.data? path := by
      apply data?_congr
      · rw [ownerValue?, hcontainer]
        rfl
      · intro id _
        rw [hobjects]

/-! ### Placeholders and their owners -/

/-- The placeholders stand in values that are stored. -/
def Owned (s : Store) : Prop :=
  ∀ slot ∈ s.placeholders, (s.ownerValue? slot.owner).isSome = true

theorem owned_empty : ({} : Store).Owned := fun _ h => absurd h List.not_mem_nil

namespace Owned

/-- Where every value stays, or is replaced by another one, no placeholder loses its owner. -/
theorem kept (h : s.Owned) (marks : t.placeholders ⊆ s.placeholders)
    (owners : ∀ owner, (s.ownerValue? owner).isSome = true → (t.ownerValue? owner).isSome = true) :
    t.Owned :=
  fun slot hs => owners slot.owner (h slot (marks hs))

theorem withObjects (h : s.Owned) {table : ObjectTable}
    (hk : Fields.keys s.objects ⊆ Fields.keys table) : Owned { s with objects := table } := by
  refine h.kept (List.Subset.refl _) fun owner ho => ?_
  cases owner with
  | container key => exact ho
  | object id => exact Fields.get?_isSome_iff.mpr (hk (Fields.get?_isSome_iff.mp ho))

theorem dropContainer (h : s.Owned) (key : ContainerKey) : (s.dropContainer key).Owned := by
  intro slot hs
  obtain ⟨hs, hne⟩ := List.mem_filter.mp hs
  have howned := h slot hs
  cases ho : slot.owner with
  | container other =>
      rw [ho] at howned hne
      have hother : other ≠ key := fun e => by simp [e] at hne
      rw [Store.dropContainer, ownerValue?, Recency.peek?_erase, if_neg hother]
      exact howned
  | object id =>
      rw [ho] at howned
      exact howned

theorem dropContainers (h : s.Owned) (keys : List ContainerKey) :
    (keys.foldl Store.dropContainer s).Owned :=
  List.foldlRecOn keys _ h fun _ ht key _ => ht.dropContainer key

theorem enforceCapacity (h : s.Owned) (maxEntries : Nat) : (s.enforceCapacity maxEntries).Owned :=
  enforceCapacity_induction h (fun _ key _ ht _ _ => ht.dropContainer key) maxEntries

/-- A collection keeps the placeholders of what is left, also where it finds no garbage. -/
theorem placeholders_collectObjects (h : s.Owned) : s.collectObjects.placeholders =
    s.placeholders.filter (keepsOwner s.collectObjects.objects ·.owner) := by
  rcases s.collectObjects_cases with ⟨hsame, _⟩ | hdropped
  · rw [hsame]
    refine (List.filter_eq_self.mpr fun slot hs => ?_).symm
    have howned := h slot hs
    cases ho : slot.owner with
    | container key => rfl
    | object id =>
        rw [ho] at howned
        exact howned
  · rw [hdropped]

theorem collectObjects (h : s.Owned) : s.collectObjects.Owned := by
  intro slot hs
  rw [h.placeholders_collectObjects] at hs
  obtain ⟨hs, hkept⟩ := List.mem_filter.mp hs
  have howned := h slot hs
  cases ho : slot.owner with
  | container key =>
      rw [ho, ownerValue?] at howned
      rw [ownerValue?, containers_collectObjects]
      exact howned
  | object id =>
      rw [ho] at hkept
      exact hkept

theorem sweep (h : s.Owned) (time : Nat) : (s.sweep time).Owned :=
  (h.dropContainers _).collectObjects

theorem placeholders_sweep (h : s.Owned) (time : Nat) :
    (s.sweep time).placeholders =
      (s.placeholders.filter (·.owner ∉ (s.reclaimable time).map Owner.container)).filter
        (keepsOwner (s.sweep time).objects ·.owner) := by
  rw [← s.placeholders_dropContainers]
  exact (h.dropContainers _).placeholders_collectObjects

theorem putContainer (h : s.Owned) (key : ContainerKey) (c : Container) :
    (s.putContainer key c).Owned := by
  intro slot hs
  rw [ownerValue?_putContainer]
  split
  · rfl
  · exact h slot (List.mem_filter.mp hs).1

theorem put (h : s.Owned) (key : ContainerKey) (c : Container) :
    let t : Store := { s with containers := Recency.put s.containers key c }
    t.Owned ∧ (t.ownerValue? (.container key)).isSome = true := by
  have hvalue : ∀ owner, Store.ownerValue? { s with containers := Recency.put s.containers key c }
      owner = (s.putContainer key c).ownerValue? owner := fun _ => rfl
  constructor
  · refine h.kept (List.Subset.refl _) fun owner ho => ?_
    rw [hvalue, ownerValue?_putContainer]
    split
    · rfl
    · exact ho
  · rw [hvalue, ownerValue?_putContainer, if_pos rfl]
    rfl

theorem fillContainers (h : s.Owned) (fields : List (Operation × String × Json)) :
    (fillContainers options now s fields).Owned :=
  List.foldlRecOn fields _ h fun _ ht _ _ => ht.putContainer _ _

theorem markPlaceholder (h : s.Owned) {slot : Slot}
    (howned : (s.ownerValue? slot.owner).isSome = true) : (s.markPlaceholder slot).Owned := by
  intro mark hm
  rw [ownerValue?_markPlaceholder]
  rcases mem_markPlaceholder hm with rfl | hm
  · exact howned
  · exact h mark hm

theorem withOwnerValue (h : s.Owned) {owner : Owner} {u : Json} (hu : s.ownerValue? owner = some u)
    (v : Json) : (s.withOwnerValue owner v).Owned := by
  refine h.kept (by simp) fun other ho => ?_
  rw [ownerValue?_withOwnerValue hu]
  split
  · rfl
  · exact ho

theorem dropReplacedPlaceholders (h : s.Owned) (touched : Touched) :
    (s.dropReplacedPlaceholders touched).Owned :=
  h.kept List.filter_sublist.subset fun owner ho => by
    rwa [ownerValue?_dropReplacedPlaceholders]

theorem dropPlaceholdersIn (h : s.Owned) (slot : Slot) : (s.dropPlaceholdersIn slot).Owned :=
  fun mark hm => h mark (List.mem_filter.mp hm).1

theorem writeSlot? (h : s.Owned) {slot : Slot} {v : Json} (hw : s.writeSlot? slot v = some t) :
    t.Owned ∧ (t.ownerValue? slot.owner).isSome = true := by
  obtain ⟨u, hu, hw⟩ := Option.bind_eq_some_iff.mp hw
  obtain ⟨w, _, ht⟩ := Option.bind_eq_some_iff.mp hw
  obtain rfl := Option.some.inj ht
  refine ⟨h.withOwnerValue hu w, ?_⟩
  rw [ownerValue?_withOwnerValue hu, if_pos rfl]
  rfl

theorem normalized (h : s.Owned) (touched : Touched) (v : Json) :
    Owned { s with objects := (normalized options s.objects touched v).2.table } := by
  refine h.withObjects ?_
  rw [Cache.normalized]
  split
  · exact Normalizer.keys_subset_normalizeWithin _ _ { table := s.objects, touched } v
  · exact List.Subset.refl _

theorem storeFields (h : s.Owned) (fields : List (Operation × String × Json)) :
    (storeFields options now s fields).1.Owned := by
  rw [Cache.storeFields]
  exact List.foldlRecOn (motive := fun acc : Store × Touched => acc.1.Owned) fields _ h
    fun acc hacc x _ => (hacc.normalized acc.2 x.2.2).putContainer _ _

theorem setStore (h : s.Owned) (fields : List (Operation × String × Json)) :
    (setStore options now s fields).Owned :=
  (((h.storeFields fields).dropReplacedPlaceholders _).sweep now).enforceCapacity _

end Owned

/-- A sweep leaves the placeholders whose owners it leaves. -/
theorem Owned.mem_placeholders_sweep (h : s.Owned) {time : Nat} {slot : Slot} :
    slot ∈ (s.sweep time).placeholders ↔
      slot ∈ s.placeholders ∧ ((s.sweep time).ownerValue? slot.owner).isSome = true := by
  constructor
  · intro hs
    have hbefore := hs
    rw [h.placeholders_sweep, List.mem_filter, List.mem_filter] at hbefore
    exact ⟨hbefore.1.1, h.sweep time slot hs⟩
  · rintro ⟨hs, howned⟩
    rw [h.placeholders_sweep, List.mem_filter, List.mem_filter, decide_eq_true_eq]
    cases ho : slot.owner with
    | container key =>
        rw [ho] at howned
        refine ⟨⟨hs, fun hdropped => ?_⟩, rfl⟩
        obtain ⟨other, hold, he⟩ := List.mem_map.mp hdropped
        obtain rfl := Owner.container.inj he
        obtain ⟨v, hv⟩ := Option.isSome_iff_exists.mp howned
        obtain ⟨c, hc, _⟩ := Option.map_eq_some_iff.mp hv
        have hleft : (other, c) ∈ s.containers.filter (·.1 ∉ s.reclaimable time) := by
          rw [← containers_dropContainers, ← containers_collectObjects]
          exact Recency.mem_of_peek? hc
        have hstays := (List.mem_filter.mp hleft).2
        rw [decide_eq_true_eq] at hstays
        exact hstays hold
    | object id =>
        rw [ho] at howned
        exact ⟨⟨hs, by simp⟩, howned⟩

end Store

theorem step_owned {options : Options} {now : Nat} {s t : Store} {e : Event} (h : s.Owned)
    (step : Step options now s e t) : t.Owned := by
  cases step with
  | unchanged e => exact h
  | missed e metrics => exact h
  | used e key metrics =>
      refine h.kept (List.Subset.refl _) fun owner ho => ?_
      cases owner with
      | container other =>
          rw [Store.ownerValue?, Recency.peek?_touch]
          exact ho
      | object id => exact ho
  | set read skipNotify => exact h.setStore _
  | writtenRoot value root => exact h.setStore _
  | merged value below found => exact h.normalized [] value
  | written below found placed touched =>
      have hplaced := (h.normalized [] _).writeSlot? placed
      exact (hplaced.1.dropPlaceholdersIn _).dropReplacedPlaceholders touched
  | @seededRoot path value root absent =>
      obtain ⟨hput, howned⟩ := h.put (keyOf path) { data := value, lifetime := _ }
      exact (hput.markPlaceholder howned).enforceCapacity _
  | seeded below found placed =>
      obtain ⟨hplaced, howned⟩ := h.writeSlot? placed
      exact hplaced.markPlaceholder howned
  | evictedRoot parsed => exact h.dropContainer _
  | evicted parsed below found owned removed => exact (h.withOwnerValue owned _).dropPlaceholdersIn _
  | swept => exact h.sweep now
  | cleared => exact Store.owned_empty
  | @restored snapshot valid =>
      have htable : Fields.keys s.objects ⊆
          Fields.keys (restoreObjects s.objects (snapshot.objects.getD [])).1 := by
        intro id hid
        rw [restoreObjects_table]
        exact Fields.mem_keys_overlay.mpr (.inr hid)
      exact (((h.withObjects htable).fillContainers _).dropReplacedPlaceholders _).enforceCapacity _

/-- In every run the placeholders stand in values that are stored. -/
theorem Reachable.owned {options : Options} {now : Nat} {c : Cache}
    (run : Reachable options now c) : c.store.Owned := by
  induction run with
  | new now => exact Store.owned_empty
  | @act now later c run passed e ih => exact step_owned ih (c.act_step later e).2

/-- A sweep drops the containers that are over, and counts them. Of the objects it leaves those
that the containers left lead to, and of the placeholders those whose owner is left. The data of
the containers left is what it was. -/
theorem sweep_exact {options : Options} {now : Nat} {c : Cache} (run : Reachable options now c)
    (time : Nat) :
    let d := (c.sweep time).2
    d.store.containers = c.store.containers.filter (¬ ·.2.lifetime.Over time) ∧
    (c.sweep time).1 = c.store.containers.countP (·.2.lifetime.Over time) ∧
    (∀ id v, Fields.get? d.store.objects id = some v ↔
      (∃ p ∈ d.store.containers, Json.Leads c.store.objects p.2.data id) ∧
        Fields.get? c.store.objects id = some v) ∧
    (∀ slot, slot ∈ d.store.placeholders ↔
      slot ∈ c.store.placeholders ∧ (d.store.ownerValue? slot.owner).isSome = true) ∧
    ∀ path, keyOf path ∈ Recency.keys d.store.containers → ∀ later includeExpired,
      (d.get later path includeExpired).1 = (c.get later path includeExpired).1 := by
  have nodup := run.sound.2.1.nodup
  have hleft := c.store.containers_sweep nodup time
  refine ⟨?containers, ?count, fun id v => Store.get?_sweep_eq_some_iff, fun slot => ?marks,
    fun path hpath later includeExpired => ?gets⟩
  case containers =>
    exact hleft.trans (List.filter_congr fun p _ => by simp [← Lifetime.isReclaimable_iff])
  case count =>
    have hcount : (c.store.reclaimable time).length =
        c.store.containers.countP (·.2.lifetime.isReclaimable time) := by
      rw [List.countP_eq_length_filter, Store.reclaimable, List.length_map]
    exact hcount.trans (List.countP_congr fun p _ => by simp [← Lifetime.isReclaimable_iff])
  case marks => exact run.owned.mem_placeholders_sweep
  case gets =>
    exact get_congr (Store.peek?_sweep nodup hpath) (Store.data?_sweep nodup hpath) later
      includeExpired

/-- A cache with a user and a friend, who lead to each other. The results of two mutations are there
as well: the user once more, and a note that leads to itself. Placeholders stand in the user and in
the note. -/
def littered : Cache :=
  (new {}).after 0
    [.set (.object [
        ("mutation", .object [
          ("add", .object [("__typename", .string "N"), ("id", .int 9),
            ("self", .object [("__typename", .string "N"), ("id", .int 9)])]),
          ("rename", .object [("__typename", .string "U"), ("id", .int 1), ("name", .string "b")])]),
        ("query", .object [("user", .object [("__typename", .string "U"),
          ("friend", .object [("__typename", .string "F"),
            ("friend", .object [("__typename", .string "U"), ("id", .int 1)]), ("id", .int 2)]),
          ("id", .int 1)])])]) false,
      .seed { root := .mutation, field := "add", rest := ["text"] } .null,
      .seed { root := .query, field := "user", rest := ["age"] } .null]

/-- When the results of the mutations are over, the note goes with its placeholder, and the user and
the friend stay. -/
theorem sweep_exact_littered :
    Reachable {} 0 littered ∧ (littered.sweep 100).1 = 2 ∧
    (littered.sweep 100).2.store.containers.map (·.1) = [{ root := .query, field := "user" }] ∧
    Fields.get? (littered.sweep 100).2.store.objects "N:9" = none ∧
    (∀ id ∈ ["U:1", "F:2"], ∃ v, Fields.get? (littered.sweep 100).2.store.objects id = some v) ∧
    { owner := .object "N:9", path := ["text"] } ∈ littered.store.placeholders ∧
    { owner := .object "N:9", path := ["text"] } ∉ (littered.sweep 100).2.store.placeholders ∧
    { owner := .object "U:1", path := ["age"] } ∈ (littered.sweep 100).2.store.placeholders := by
  have run : Reachable {} 0 littered := .after (.new 0) _
  obtain ⟨hcontainers, hcount, hobjects, hmarks, -⟩ := sweep_exact run 100
  have hleft : (littered.sweep 100).2.store.containers.map (·.1) =
      [{ root := .query, field := "user" }] := by
    rw [hcontainers]
    decide
  have hroot : ∀ p ∈ (littered.sweep 100).2.store.containers,
      p.2.data.references ⊆ ["U:1", "F:2"] := by
    rw [hcontainers]
    decide
  have hclosed : ∀ p ∈ littered.store.objects, p.1 ∈ ["U:1", "F:2"] →
      p.2.references ⊆ ["U:1", "F:2"] := by decide
  have hnote : Fields.get? (littered.sweep 100).2.store.objects "N:9" = none := by
    cases hv : Fields.get? (littered.sweep 100).2.store.objects "N:9" with
    | none => rfl
    | some v =>
        obtain ⟨⟨p, hp, hl⟩, _⟩ := (hobjects _ _).mp hv
        exact absurd (hl.mem_of_closed (hroot p hp) hclosed) (by decide)
  have huser : ∃ p ∈ (littered.sweep 100).2.store.containers, "U:1" ∈ p.2.data.references := by
    rw [hcontainers]
    decide
  have hstays : ∀ id ∈ ["U:1", "F:2"],
      ∃ v, Fields.get? (littered.sweep 100).2.store.objects id = some v := by
    intro id hid
    have hthere : ∀ id ∈ ["U:1", "F:2"], (Fields.get? littered.store.objects id).isSome = true := by
      decide
    have hfriend : ∀ p ∈ littered.store.objects, p.1 = "U:1" → "F:2" ∈ p.2.references := by decide
    obtain ⟨u, hu⟩ := Option.isSome_iff_exists.mp (hthere "U:1" List.mem_cons_self)
    obtain ⟨v, hv⟩ := Option.isSome_iff_exists.mp (hthere id hid)
    obtain ⟨p, hp, hr⟩ := huser
    refine ⟨v, (hobjects id v).mpr ⟨⟨p, hp, ?_⟩, hv⟩⟩
    rcases List.mem_cons.mp hid with rfl | hid
    · exact .here hr
    · obtain rfl := List.mem_singleton.mp hid
      exact .through (.here hr) hu (hfriend _ (Fields.mem_of_get? hu) rfl)
  refine ⟨run, ?count, hleft, hnote, hstays, by decide, fun hm => ?note, ?user⟩
  case count =>
    rw [hcount]
    decide
  case note =>
    have howned := ((hmarks _).mp hm).2
    rw [Store.ownerValue?, hnote] at howned
    cases howned
  case user =>
    obtain ⟨v, hv⟩ := hstays "U:1" List.mem_cons_self
    exact (hmarks _).mpr ⟨by decide, Option.isSome_iff_exists.mpr ⟨v, hv⟩⟩

end Cache
end LazyGraph
