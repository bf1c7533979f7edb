import LazyGraph.Proofs.Cache.Dependence
import LazyGraph.Proofs.Cache.Invariant
import Mathlib

/-!
Restoring a valid snapshot of a cache into an empty one: the snapshot survives its JSON form, the
restored cache has the same snapshot, and it holds the same data if there are no placeholders.
-/
namespace LazyGraph

/-! ### The JSON form of a snapshot -/

theorem Json.optionalMember?_eq {α : Type} (read? : Json → Option α) (wrap : α → Json)
    (hread : ∀ a, read? (wrap a) = some a) (hnull : ∀ a, wrap a ≠ .null) {fs : Fields Json}
    {name : String} {o : Option α} (h : Fields.get? fs name = o.map wrap) :
    optionalMember? read? fs name = some o := by
  rw [optionalMember?, h]
  cases o with
  | none => rfl
  | some a =>
      simp only [Option.map_some]
      split
      · contradiction
      · rename_i he
        exact absurd (Option.some.inj he) (hnull a)
      · rename_i v _ he
        rw [← Option.some.inj he, hread a]
        rfl

namespace Snapshot

/-- The members of a record that an optional part of a snapshot makes. -/
def part (name : String) (fs : Option (Fields Json)) : List (String × Json) :=
  (fs.map fun fs => (name, Json.object fs)).toList

/-- The members of the record of a snapshot. -/
def parts (s : Snapshot) : List (String × Json) :=
  part "query" s.query ++ part "mutation" s.mutation ++ part "subscription" s.subscription
    ++ part "normalized" s.objects ++ (s.version.map fun v => ("version", Json.string v)).toList

theorem nodup_keys_parts (s : Snapshot) : (Fields.keys s.parts).Nodup := by
  have hpart : ∀ name fs, (Fields.keys (part name fs)).Sublist [name] := by
    intro name fs
    cases fs with
    | none => exact List.nil_sublist _
    | some fs => exact List.Sublist.refl _
  have hversion : (Fields.keys (s.version.map fun v => ("version", Json.string v)).toList).Sublist
      ["version"] := by
    cases s.version with
    | none => exact List.nil_sublist _
    | some v => exact List.Sublist.refl _
  have hall : (Fields.keys s.parts).Sublist
      ["query", "mutation", "subscription", "normalized", "version"] := by
    simp only [Fields.keys, parts, List.map_append] at hpart hversion ⊢
    exact ((((hpart "query" s.query).append (hpart "mutation" s.mutation)).append
      (hpart "subscription" s.subscription)).append (hpart "normalized" s.objects)).append hversion
  exact List.Nodup.sublist hall (by decide)

theorem ofJson_toJson (s : Snapshot) : ofJson s.toJson = .ok s := by
  have hget : ∀ name v, Fields.get? (Fields.ofList s.parts) name = some v ↔ (name, v) ∈ s.parts :=
    fun name v => Fields.get?_ofList_eq_some_iff s.nodup_keys_parts
  have hobject : ∀ name fs, (∀ v, (name, v) ∈ s.parts ↔ fs.map Json.object = some v) →
      Json.optionalMember? Json.asObject? (Fields.ofList s.parts) name = some fs := by
    intro name fs h
    refine Json.optionalMember?_eq _ .object (fun _ => rfl) (fun _ => nofun) ?_
    exact Option.ext fun v => by rw [hget, h]
  have hversion : Json.optionalMember? Json.asString? (Fields.ofList s.parts) "version" =
      some s.version := by
    refine Json.optionalMember?_eq _ .string (fun _ => rfl) (fun _ => nofun) ?_
    refine Option.ext fun v => ?_
    rw [hget]
    simp [parts, part]
  have hform : s.toJson = .object (Fields.ofList s.parts) := rfl
  rw [ofJson, hform]
  simp only [Json.recordMembers?, Option.bind_eq_bind, Option.bind_some, hversion,
    hobject "query" s.query (by simp [parts, part]),
    hobject "mutation" s.mutation (by simp [parts, part]),
    hobject "subscription" s.subscription (by simp [parts, part]),
    hobject "normalized" s.objects (by simp [parts, part])]

end Snapshot
/-! ### Lifetimes -/

/-- Data that has not expired is fresh for as long again when it arrives anew. -/
theorem Lifetime.isExpired_ofRoot {root : Operation} {maxAge : Option Nat} {window t now : Nat}
    (ht : t ≤ now) (h : (ofRoot root maxAge window t).isExpired now = false) :
    (ofRoot root maxAge window now).isExpired now = false := by
  cases root with
  | query =>
      cases maxAge with
      | none => rfl
      | some age =>
          simp only [ofRoot, isExpired, decide_eq_false_iff_not] at h ⊢
          omega
  | mutation => simp [ofRoot, isExpired, operationResult]
  | subscription => simp [ofRoot, isExpired, operationResult]

theorem Lifetime.isWeak_ofRoot (root : Operation) (maxAge : Option Nat) (window t t' : Nat) :
    (ofRoot root maxAge window t).isWeak = (ofRoot root maxAge window t').isWeak := by
  cases root with
  | query => cases maxAge <;> rfl
  | mutation => rfl
  | subscription => rfl

namespace Cache

/-! ### The data of a snapshot, key by key -/

namespace Store

theorem rootFields_ascending (s : Store) (now : Nat) (op : Operation) :
    Fields.Ascending (s.rootFields now op) := Fields.ofList_ascending _

theorem strippedObjects_ascending {s : Store} (h : Fields.Ascending s.objects) :
    Fields.Ascending s.strippedObjects := by
  refine List.Pairwise.filterMap _ (fun p q hpq r hr r' hr' => ?_) h
  obtain ⟨v, _, rfl⟩ := Option.map_eq_some_iff.mp hr
  obtain ⟨w, _, rfl⟩ := Option.map_eq_some_iff.mp hr'
  exact hpq

/-- A snapshot has the unexpired containers that are not placeholders as a whole. -/
theorem get?_rootFields_eq_some_iff {s : Store} (hn : (Recency.keys s.containers).Nodup)
    {now : Nat} {op : Operation} {field : String} {v : Json} :
    Fields.get? (s.rootFields now op) field = some v ↔
      ∃ c, ({ root := op, field }, c) ∈ s.containers ∧ c.lifetime.isExpired now = false ∧
        s.stripped? (.container { root := op, field }) = some v := by
  constructor
  · exact fun h => mem_rootFields (Fields.mem_of_get? h)
  · rintro ⟨c, hc, he, hv⟩
    refine (Fields.get?_ofList_eq_some_iff ?_).mpr (List.mem_filterMap.mpr ⟨_, hc, ?_⟩)
    · refine List.pairwise_map.mpr (List.Pairwise.filterMap _ ?_ (List.pairwise_map.mp hn))
      rintro ⟨⟨root, name⟩, k⟩ ⟨⟨root', name'⟩, k'⟩ hne p hp p' hp' e
      dsimp only at hp hp'
      split at hp
      · cases hp
      · split at hp'
        · cases hp'
        · rename_i hroot hroot'
          obtain ⟨w, _, rfl⟩ := Option.map_eq_some_iff.mp hp
          obtain ⟨w', _, rfl⟩ := Option.map_eq_some_iff.mp hp'
          obtain ⟨rfl, _⟩ : root = op ∧ k.lifetime.isExpired now = false := by simpa using hroot
          obtain ⟨rfl, _⟩ : root' = root ∧ k'.lifetime.isExpired now = false := by
            simpa using hroot'
          exact hne (congrArg (ContainerKey.mk root' ·) e)
    · simp [he, hv]

/-! ### Contents without placeholders -/

theorem stripped?_of_unmarked {s : Store} (h : s.placeholders = []) (owner : Owner) :
    s.stripped? owner = s.ownerValue? owner := by
  rw [stripped?, h]
  cases s.ownerValue? owner <;> rfl

theorem dropReplacedPlaceholders_of_unmarked {s : Store} (h : s.placeholders = [])
    (touched : Touched) : s.dropReplacedPlaceholders touched = s := by
  obtain ⟨containers, objects, placeholders, metrics⟩ := s
  obtain rfl : placeholders = [] := h
  rfl

theorem strippedObjects_of_unmarked {s : Store} (h : s.placeholders = [])
    (ha : Fields.Ascending s.objects) : s.strippedObjects = s.objects := by
  refine (strippedObjects_ascending ha).ext ha fun id => Option.ext fun v => ?_
  rw [(strippedObjects_ascending ha).get?_eq_some_iff, mem_strippedObjects,
    stripped?_of_unmarked h, ownerValue?]
  exact and_iff_right_of_imp fun hv => Fields.mem_keys_of_mem (Fields.mem_of_get? hv)

theorem ownerValue?_of_mem {s : Store} (hn : (Recency.keys s.containers).Nodup)
    {key : ContainerKey} {c : Container} (h : (key, c) ∈ s.containers) :
    s.ownerValue? (.container key) = some c.data := by
  rw [ownerValue?, Recency.peek?_of_mem hn h]
  rfl

/-- The value at a path depends on the objects and on the data of one container. -/
theorem valueAt?_congr {s t : Store} {path : CachePath} (ho : s.objects = t.objects)
    (hd : s.ownerValue? (.container (keyOf path)) = t.ownerValue? (.container (keyOf path))) :
    s.valueAt? path = t.valueAt? path := by
  have hslot : ∀ u : Store, u.slot? path = (u.ownerValue? (.container (keyOf path))).bind fun v =>
      slotFrom? u.objects v { owner := .container (keyOf path), path := [] } path.rest := by
    intro u
    rw [slot?, ownerValue?]
    cases Recency.peek? u.containers (keyOf path) <;> rfl
  have hsame : s.slot? path = t.slot? path := by
    rw [hslot, hslot, hd, ho]
  rw [valueAt?, valueAt?, ← hsame]
  cases hs : s.slot? path with
  | none => rfl
  | some slot =>
      rw [Option.bind_some, Option.bind_some, slotValue?, slotValue?]
      rcases slot?_owner hs with e | ⟨id, e⟩
      · rw [e, hd]
      · rw [e, ownerValue?, ownerValue?, ho]

end Store

/-! ### Restoring into an empty cache -/

variable {options : Options} {now : Nat}

/-- The key of a root field. -/
def fieldKey (x : Operation × String × Json) : ContainerKey := { root := x.1, field := x.2.1 }

/-- The container that a root field fills at a time. -/
def fieldContainer (options : Options) (now : Nat) (x : Operation × String × Json) : Container :=
  { data := x.2.2, lifetime := .ofRoot x.1 options.maxAge options.staleWindow now }

theorem mem_of_mem_fillContainers {fields : List (Operation × String × Json)} {s : Store}
    {p : ContainerKey × Container} (h : p ∈ (fillContainers options now s fields).containers) :
    p ∈ s.containers ∨ ∃ x ∈ fields, p = (fieldKey x, fieldContainer options now x) := by
  induction fields generalizing s with
  | nil => exact .inl h
  | cons x fields ih =>
      rcases ih h with h | ⟨y, hy, e⟩
      · rcases Recency.mem_put.mp h with e | ⟨h, _⟩
        · exact .inr ⟨x, List.mem_cons_self, e⟩
        · exact .inl h
      · exact .inr ⟨y, List.mem_cons_of_mem x hy, e⟩

theorem mem_fillContainers_of_not_mem {fields : List (Operation × String × Json)} {s : Store}
    {p : ContainerKey × Container} (h : p ∈ s.containers) (hk : ∀ x ∈ fields, fieldKey x ≠ p.1) :
    p ∈ (fillContainers options now s fields).containers := by
  induction fields generalizing s with
  | nil => exact h
  | cons x fields ih =>
      refine ih (Recency.mem_put.mpr (.inr ⟨h, ?_⟩)) fun y hy => hk y (List.mem_cons_of_mem x hy)
      exact Ne.symm (hk x List.mem_cons_self)

theorem mem_fillContainers {fields : List (Operation × String × Json)} {s : Store}
    (hn : fields.Pairwise fun x y => fieldKey x ≠ fieldKey y) {x : Operation × String × Json}
    (h : x ∈ fields) :
    (fieldKey x, fieldContainer options now x) ∈
      (fillContainers options now s fields).containers := by
  induction fields generalizing s with
  | nil => cases h
  | cons y fields ih =>
      obtain ⟨hy, hn⟩ := List.pairwise_cons.mp hn
      rcases List.mem_cons.mp h with rfl | h
      · change _ ∈ (fillContainers options now
          (fillContainer options now s x.1 x.2.1 x.2.2) fields).containers
        exact mem_fillContainers_of_not_mem (Recency.mem_put.mpr (.inl rfl))
          fun z hz => Ne.symm (hy z hz)
      · exact ih hn h

theorem fillContainers_objects (fields : List (Operation × String × Json)) (s : Store) :
    (fillContainers options now s fields).objects = s.objects := by
  induction fields generalizing s with
  | nil => rfl
  | cons x fields ih => exact ih _

theorem fillContainers_unmarked (fields : List (Operation × String × Json)) {s : Store}
    (h : s.placeholders = []) : (fillContainers options now s fields).placeholders = [] := by
  induction fields generalizing s with
  | nil => exact h
  | cons x fields ih =>
      refine ih ?_
      change (s.placeholders.filter _) = []
      rw [h]
      rfl

theorem snapshotFields_pairwise {s : Snapshot}
    (h : ∀ op, Fields.Ascending ((s.root op).getD [])) :
    (snapshotFields s).Pairwise fun x y => fieldKey x ≠ fieldKey y := by
  refine List.pairwise_flatMap.mpr ⟨fun op _ => ?_, ?_⟩
  · refine List.pairwise_map.mpr ((h op).imp fun {p q} hlt e => ?_)
    have hkey : p.1 = q.1 := congrArg ContainerKey.field e
    rw [hkey] at hlt
    exact String.lt_irrefl _ hlt
  · refine List.Pairwise.imp ?_ (by decide : Operation.all.Pairwise (· ≠ ·))
    intro op op' hne x hx y hy e
    obtain ⟨p, _, rfl⟩ := List.mem_map.mp hx
    obtain ⟨q, _, rfl⟩ := List.mem_map.mp hy
    exact hne (congrArg ContainerKey.root e)

/-- The contents of an empty cache after the data of a snapshot was put into it. -/
def refilled (options : Options) (now : Nat) (s : Store) : Store :=
  fillContainers options now { objects := s.strippedObjects } (snapshotFields (s.snapshot now))

theorem refilled_unmarked (options : Options) (now : Nat) (s : Store) :
    (refilled options now s).placeholders = [] :=
  fillContainers_unmarked _ rfl

theorem refilled_objects (options : Options) (now : Nat) (s : Store) :
    (refilled options now s).objects = s.strippedObjects :=
  fillContainers_objects _ _

section Refilled

variable {s : Store}

theorem snapshot_pairwise (s : Store) (now : Nat) :
    (snapshotFields (s.snapshot now)).Pairwise fun x y => fieldKey x ≠ fieldKey y := by
  refine snapshotFields_pairwise fun op => ?_
  rw [Store.snapshot_root]
  exact s.rootFields_ascending now op

theorem mem_snapshot_iff {op : Operation} {field : String} {v : Json} :
    (op, field, v) ∈ snapshotFields (s.snapshot now) ↔
      Fields.get? (s.rootFields now op) field = some v := by
  rw [mem_snapshotFields, Store.snapshot_root, (s.rootFields_ascending now op).get?_eq_some_iff]

theorem mem_refilled_iff {key : ContainerKey} {c : Container} :
    (key, c) ∈ (refilled options now s).containers ↔
      ∃ v, Fields.get? (s.rootFields now key.root) key.field = some v ∧
        c = fieldContainer options now (key.root, key.field, v) := by
  constructor
  · intro hc
    rcases mem_of_mem_fillContainers hc with hc | ⟨⟨op, field, v⟩, hx, e⟩
    · cases hc
    · cases e
      exact ⟨v, mem_snapshot_iff.mp hx, rfl⟩
  · rintro ⟨v, hv, rfl⟩
    exact mem_fillContainers (snapshot_pairwise s now) (mem_snapshot_iff.mpr hv)

theorem refilled_sound (h : s.Sound options now) : (refilled options now s).Sound options now := by
  have hempty : Store.Sound options now { objects := s.strippedObjects } :=
    ⟨List.nodup_nil, fun _ hp => absurd hp List.not_mem_nil,
      Store.strippedObjects_ascending h.ascending, fun _ hm => absurd hm List.not_mem_nil⟩
  exact hempty.fillContainers _

/-- A container of the new cache is fresh, and stands for one of the old cache that may be dropped
just as well. -/
theorem refilled_lifetime (h : s.Sound options now) {p : ContainerKey × Container}
    (hp : p ∈ (refilled options now s).containers) :
    p.2.lifetime.isExpired now = false ∧
      ∃ c, (p.1, c) ∈ s.containers ∧ c.lifetime.isWeak = p.2.lifetime.isWeak := by
  obtain ⟨key, c⟩ := p
  obtain ⟨v, hv, rfl⟩ := mem_refilled_iff.mp hp
  obtain ⟨c, hc, he, _⟩ := (Store.get?_rootFields_eq_some_iff h.nodup).mp hv
  obtain ⟨t, ht, hl⟩ := h.lifetimes _ hc
  dsimp only at hl
  rw [hl] at he
  refine ⟨Lifetime.isExpired_ofRoot ht he, c, hc, ?_⟩
  rw [hl]
  exact Lifetime.isWeak_ofRoot _ _ _ _ _

theorem refilled_fits (h : s.Sound options now) (hf : s.Fits options.maxEntries) :
    (refilled options now s).Fits options.maxEntries := by
  refine hf.imp (fun hl => ?_) fun hw p hp => ?_
  · have hsub : Recency.keys (refilled options now s).containers ⊆ Recency.keys s.containers := by
      intro key hkey
      obtain ⟨p, hp, rfl⟩ := List.mem_map.mp hkey
      obtain ⟨_, c, hc, _⟩ := refilled_lifetime h hp
      exact Recency.mem_keys_of_mem (p := (p.1, c)) hc
    have hlength := (refilled_sound h).nodup.length_le_of_subset hsub
    rw [Recency.keys, Recency.keys, List.length_map, List.length_map] at hlength
    exact Nat.le_trans hlength hl
  · obtain ⟨_, c, hc, hweak⟩ := refilled_lifetime h hp
    rw [← hweak]
    exact hw _ hc

/-- Restoring the snapshot into an empty cache fills it, and drops nothing. -/
theorem restored_snapshot (h : s.Sound options now) (hf : s.Fits options.maxEntries) :
    restored options now {} (s.snapshot now) = refilled options now s := by
  have htable : (restoreObjects [] ((s.snapshot now).objects.getD [])).1 = s.strippedObjects := by
    rw [restoreObjects_table, Store.snapshot_objects]
    exact (Store.strippedObjects_ascending h.ascending).ofList_eq
  have hform : restored options now {} (s.snapshot now) =
      ((fillContainers options now
        { objects := (restoreObjects [] ((s.snapshot now).objects.getD [])).1 }
        (snapshotFields (s.snapshot now))).dropReplacedPlaceholders
        (restoreObjects [] ((s.snapshot now).objects.getD [])).2).enforceCapacity
        options.maxEntries := rfl
  rw [hform, htable, ← refilled,
    Store.dropReplacedPlaceholders_of_unmarked (refilled_unmarked options now s)]
  exact (refilled_fits h hf).enforceCapacity

/-- The new cache has the root fields of the old one, all of them fresh. -/
theorem rootFields_refilled (h : s.Sound options now) (op : Operation) :
    (refilled options now s).rootFields now op = s.rootFields now op := by
  have hn := (refilled_sound h).nodup
  refine (Store.rootFields_ascending _ now op).ext (Store.rootFields_ascending s now op) ?_
  refine fun field => Option.ext fun v => ?_
  rw [Store.get?_rootFields_eq_some_iff hn]
  constructor
  · rintro ⟨c, hc, _, hv⟩
    rw [Store.stripped?_of_unmarked (refilled_unmarked options now s),
      Store.ownerValue?_of_mem hn hc] at hv
    obtain ⟨w, hw, rfl⟩ := mem_refilled_iff.mp hc
    cases hv
    exact hw
  · intro hv
    have hc : (⟨op, field⟩, fieldContainer options now (op, field, v)) ∈
        (refilled options now s).containers := mem_refilled_iff.mpr ⟨v, hv, rfl⟩
    refine ⟨_, hc, (refilled_lifetime h hc).1, ?_⟩
    rw [Store.stripped?_of_unmarked (refilled_unmarked options now s),
      Store.ownerValue?_of_mem hn hc]
    rfl

theorem isEmpty_strippedObjects (h : s.Sound options now) :
    s.strippedObjects.isEmpty = s.objects.isEmpty := by
  cases ho : s.objects with
  | nil =>
      rw [Store.strippedObjects, ho]
      rfl
  | cons p rest =>
      have hid : p.1 ∈ Fields.keys s.objects := ho ▸ List.mem_cons_self
      have hm := Store.keys_subset_strippedObjects h.placeholders hid
      cases hs : s.strippedObjects with
      | nil =>
          rw [hs] at hm
          cases hm
      | cons q qs => rfl

theorem snapshot_refilled (h : s.Sound options now) :
    (refilled options now s).snapshot now = s.snapshot now := by
  have hobjects : (refilled options now s).strippedObjects = s.strippedObjects := by
    rw [Store.strippedObjects_of_unmarked (refilled_unmarked options now s)
      (refilled_sound h).ascending, refilled_objects]
  simp only [Store.snapshot, rootFields_refilled h, hobjects, refilled_objects,
    isEmpty_strippedObjects h]

theorem peek?_refilled (h : s.Sound options now) (unmarked : s.placeholders = [])
    {key : ContainerKey} {c : Container} (hc : Recency.peek? s.containers key = some c)
    (he : c.lifetime.isExpired now = false) : ∃ k,
      Recency.peek? (refilled options now s).containers key = some k ∧ k.data = c.data := by
  have hmem := Recency.mem_of_peek? hc
  have hv : Fields.get? (s.rootFields now key.root) key.field = some c.data := by
    refine (Store.get?_rootFields_eq_some_iff h.nodup).mpr ⟨c, hmem, he, ?_⟩
    rw [Store.stripped?_of_unmarked unmarked]
    exact Store.ownerValue?_of_mem h.nodup hmem
  have hk : (key, fieldContainer options now (key.root, key.field, c.data)) ∈
      (refilled options now s).containers := mem_refilled_iff.mpr ⟨_, hv, rfl⟩
  exact ⟨_, Recency.peek?_of_mem (refilled_sound h).nodup hk, rfl⟩

end Refilled

/-- Restoring a valid snapshot of a cache into an empty one with its options, also by way of JSON,
gives a cache with that snapshot. Without placeholders it holds the data of all unexpired root
fields, at every path. -/
theorem snapshot_restore {options : Options} {last now : Nat} {c : Cache}
    (run : Reachable options last c) (passed : last ≤ now)
    (valid : (c.snapshot now).validate = .ok ()) :
    Snapshot.ofJson (c.snapshot now).toJson = .ok (c.snapshot now) ∧
    ∃ d notice, (new options).restore now (c.snapshot now) = .ok (d, notice) ∧
      d.snapshot now = c.snapshot now ∧
      (c.store.placeholders = [] → ∀ path container,
        Recency.peek? c.store.containers (keyOf path) = some container →
        container.lifetime.isExpired now = false →
        (d.get now path true).1.data = (c.get now path true).1.data) := by
  obtain ⟨_, hsound, hfits⟩ := run.sound
  have h := hsound.later passed
  obtain ⟨d, notice, hd, _, hstore⟩ := (new options).restore_of_valid now valid
  have hrefilled : d.store = refilled options now c.store :=
    hstore.trans (restored_snapshot h hfits)
  refine ⟨Snapshot.ofJson_toJson _, d, notice, hd, ?_, fun unmarked path container hc he => ?_⟩
  · rw [snapshot, hrefilled, snapshot_refilled h]
    rfl
  · obtain ⟨k, hk, hdata⟩ := peek?_refilled h unmarked hc he
    rw [← hrefilled] at hk
    have hobjects : d.store.objects = c.store.objects := by
      rw [hrefilled, refilled_objects, Store.strippedObjects_of_unmarked unmarked h.ascending]
    rw [get_data hk, get_data hc, hobjects, Store.valueAt?_congr hobjects]
    rw [Store.ownerValue?, Store.ownerValue?, hk, hc, Option.map_some, Option.map_some, hdata]

/-- A cache with a user who is his own friend. -/
def selfFriend : Cache :=
  (new {}).after 0 [.set (.object [("query", .object [("user",
    .object [("__typename", .string "U"), ("id", .int 1)])])]) false,
    .write { root := .query, field := "user", rest := ["friend"] }
      (.object [("__typename", .string "U"), ("id", .int 1)])]

/-- The user is found again in a restored cache, and so is his friend. -/
theorem snapshot_restore_selfFriend :
    (selfFriend.snapshot 5).validate = .ok () ∧
    ∃ d notice, (new {}).restore 5 (selfFriend.snapshot 5) = .ok (d, notice) ∧
      d.snapshot 5 = selfFriend.snapshot 5 := by
  have run : Reachable {} 0 selfFriend := (Reachable.new 0).after _
  have valid : (selfFriend.snapshot 5).validate = .ok () := by cbv
  obtain ⟨_, d, notice, hd, hs, _⟩ := snapshot_restore run (Nat.zero_le 5) valid
  exact ⟨valid, d, notice, hd, hs⟩

end Cache
end LazyGraph
