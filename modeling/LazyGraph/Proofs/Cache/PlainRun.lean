import LazyGraph.Proofs.Cache.Closed
import LazyGraph.Proofs.Cache.Step
import Mathlib

/-!
Runs in which no payload and no path has the key of references. Their references never dangle,
unless a write puts a member into a reference: the slot of a write is looked up before its value is
normalized, and the value may put a reference in the place of the parent of that slot.
-/
namespace LazyGraph.Cache

/-- Objects are merged member by member. -/
def Options.MergesByMember (options : Options) : Prop :=
  ∀ n, options.normalizer = some n → n.resolver = none

/-- No payload and no path has the key of references. -/
def Event.Plain : Event → Prop
  | .set payload _ => payload.Plain
  | .write path value => referenceKey ∉ path.segments ∧ value.Plain
  | .seed path value => referenceKey ∉ path.segments ∧ value.Plain
  | .evict text => ∀ path, CachePath.parse text = .ok path → referenceKey ∉ path.segments
  | .restore _ => False
  | _ => True

/-- A write whose value, once it is normalized, has not put a reference in the place of the parent
of the slot; any other operation. -/
def Straight (c : Cache) : Event → Prop
  | .write path value => ∀ slot u, path.rest ≠ [] → c.store.slot? path = some slot →
    (mergedStore c.options c.store value).parent? slot = some u → u.referenceId? = none
  | _ => True

/-- Caches after straight operations without the key of references, and after snapshots of other
such caches were restored. -/
inductive PlainRun : Cache → Prop
  | new {options : Options} (merges : options.MergesByMember) : PlainRun (new options)
  | act {c : Cache} (run : PlainRun c) (now : Nat) {e : Event} (plain : e.Plain)
    (straight : c.Straight e) : PlainRun (c.act now e).cache
  | restore {c d : Cache} (run : PlainRun c) (other : PlainRun d) (now taken : Nat) :
    PlainRun (c.act now (.restore (d.snapshot taken))).cache

/-! ### Storing payloads -/

theorem normalized_closed {options : Options} (hm : options.MergesByMember) {s : Store}
    (h : s.Closed) (touched : Touched) {v : Json} (hv : v.Plain) :
    Store.Closed { s with objects := (normalized options s.objects touched v).2.table } ∧
      (normalized options s.objects touched v).1.Grounded
        (· ∈ Fields.keys (normalized options s.objects touched v).2.table) := by
  rw [normalized]
  split
  · rename_i n hn
    have hsub := n.keys_subset_normalizeWithin (Normalizer.maxDepth + 1)
      { table := s.objects, touched } v
    have hasc := Normalizer.normalizeWithin_table (motive := Fields.Ascending)
      (fun _ _ _ ha => ha.insert _ _) n (Normalizer.maxDepth + 1)
      (p := { table := s.objects, touched }) v h.ascending
    obtain ⟨hg, ht⟩ := Normalizer.normalizeWithin_grounded (hm n hn) (Normalizer.maxDepth + 1)
      { table := s.objects, touched } hv (fun _ hid => hid) (h.objects.mono fun _ hid => hsub hid)
    exact ⟨h.withObjects hasc hsub ht, hg⟩
  · exact ⟨h, hv.grounded⟩

theorem storeFields_closed {options : Options} (hm : options.MergesByMember) {now : Nat}
    {fields : List (Operation × String × Json)} (hf : ∀ x ∈ fields, x.2.2.Plain) {s : Store}
    (h : s.Closed) : (storeFields options now s fields).1.Closed := by
  rw [storeFields]
  refine List.foldlRecOn (motive := fun acc : Store × Touched => acc.1.Closed) fields _ h
    fun acc hacc x hx => ?_
  obtain ⟨ht, hg⟩ := normalized_closed hm hacc acc.2 (hf x hx)
  exact ht.putContainer hg

theorem setStore_closed {options : Options} (hm : options.MergesByMember) {now : Nat}
    {fields : List (Operation × String × Json)} (hf : ∀ x ∈ fields, x.2.2.Plain) {s : Store}
    (h : s.Closed) : (setStore options now s fields).Closed :=
  (((storeFields_closed hm hf h).shrinks (Store.shrinks_dropReplacedPlaceholders _ _)).sweep
    now).shrinks (Store.shrinks_enforceCapacity _ _)

/-- What holds of all objects in the roots of a payload holds of all objects in its fields. -/
theorem payloadFields_everywhere {P : List (String × Json) → Prop} {roots : List (String × Json)}
    {rs : List (Operation × List (String × Json))} (hr : payloadRoots roots = .ok rs)
    (hp : ∀ p ∈ roots, p.2.Everywhere P) : ∀ x ∈ payloadFields rs, x.2.2.Everywhere P := by
  have hrs : ∀ r ∈ rs, ∀ p ∈ r.2, p.2.Everywhere P := by
    induction roots generalizing rs with
    | nil =>
        cases hr
        exact fun r hm => absurd hm List.not_mem_nil
    | cons p roots ih =>
        obtain ⟨name, v⟩ := p
        rw [payloadRoots.eq_def] at hr
        dsimp only at hr
        split at hr
        · cases hr
        · rename_i root fields _
          cases hrest : payloadRoots roots with
          | error e =>
              rw [hrest] at hr
              cases hr
          | ok rest =>
              rw [hrest] at hr
              cases hr
              have hv := (Json.everywhere_object.mp (hp _ List.mem_cons_self)).2
              exact List.forall_mem_cons.mpr
                ⟨hv, ih hrest fun q hq => hp q (List.mem_cons_of_mem _ hq)⟩
        · cases hr
  intro x hx
  obtain ⟨r, hm, hx⟩ := List.mem_flatMap.mp hx
  obtain ⟨p, hp, rfl⟩ := List.mem_map.mp hx
  exact hrs r hm p hp

/-! ### Snapshots -/

theorem stripped?_closed {s : Store} (h : s.Closed) {owner : Owner} {w : Json}
    (hw : s.stripped? owner = some w) : w.Grounded (· ∈ Fields.keys s.objects) ∧
      ∀ id, owner = .object id → w.IsEntry := by
  rw [Store.stripped?] at hw
  split at hw
  · cases hw
  · obtain ⟨v, hv, rfl⟩ := Option.map_eq_some_iff.mp hw
    have hkeys : ∀ path ∈ (s.placeholders.filter (·.owner = owner)).map (·.path),
        referenceKey ∉ path := by
      intro path hp
      obtain ⟨slot, hs, rfl⟩ := List.mem_map.mp hp
      exact (h.placeholders slot (List.mem_filter.mp hs).1).key
    constructor
    · exact List.foldlRecOn (motive := Json.Grounded (· ∈ Fields.keys s.objects)) _ _
        (h.ownerValue? hv) fun u hu path hp => hu.removeAt (hkeys path hp)
    · rintro id rfl
      exact List.foldlRecOn (motive := Json.IsEntry) _ _ (h.objects.get? hv).1
        fun u hu path hp => hu.removeAt (hkeys path hp)

/-- All references of a snapshot lead to its objects, and no other object has their key. -/
structure SnapshotClosed (s : Snapshot) : Prop where
  objects : ObjectTable.Grounded (· ∈ Fields.keys (s.objects.getD [])) (s.objects.getD [])
  fields : ∀ op, ∀ p ∈ (s.root op).getD [], p.2.Grounded (· ∈ Fields.keys (s.objects.getD []))

theorem snapshot_closed {s : Store} (h : s.Closed) (now : Nat) :
    SnapshotClosed (s.snapshot now) := by
  have hsub := Store.keys_subset_strippedObjects fun slot hs => (h.placeholders slot hs).object
  constructor
  · rw [Store.snapshot_objects]
    intro p hp
    obtain ⟨hg, he⟩ := stripped?_closed h (Store.mem_strippedObjects.mp hp).2
    exact ⟨he p.1 rfl, hg.mono fun _ hid => hsub hid⟩
  · rw [Store.snapshot_objects]
    intro op p hp
    rw [Store.snapshot_root] at hp
    obtain ⟨c, _, _, hw⟩ := Store.mem_rootFields hp
    exact (stripped?_closed h hw).1.mono fun _ hid => hsub hid

theorem validate_snapshot {s : Store} (h : s.Closed) (now : Nat) :
    (s.snapshot now).validate = .ok () := by
  obtain ⟨hobjects, hfields⟩ := snapshot_closed h now
  refine Snapshot.validate_eq_ok_iff.mpr ⟨⟨.query, rfl⟩, fun v hv => ?_⟩
  rcases Snapshot.mem_contents.mp hv with ⟨op, field, hp⟩ | ⟨id, hp⟩
  · exact (hfields op _ hp).references
  · exact (hobjects _ hp).2.references

theorem restored_closed {options : Options} {now : Nat} {s : Store} (h : s.Closed)
    {snapshot : Snapshot} (hs : SnapshotClosed snapshot) :
    (restored options now s snapshot).Closed := by
  have htable : Store.Closed { s with
      objects := (restoreObjects s.objects (snapshot.objects.getD [])).1 } := by
    rw [restoreObjects_table]
    refine h.withObjects (Fields.foldl_insert_ascending _ h.ascending)
      (fun _ hk => Fields.mem_keys_overlay.mpr (.inr hk)) fun p hp => ?_
    rcases Fields.mem_of_mem_foldl_insert hp with hp | hp
    · exact ⟨(hs.objects p hp).1,
        (hs.objects p hp).2.mono fun _ hid => Fields.mem_keys_overlay.mpr (.inl hid)⟩
    · exact ⟨(h.objects p hp).1,
        (h.objects p hp).2.mono fun _ hid => Fields.mem_keys_overlay.mpr (.inr hid)⟩
  have hfill : ∀ (fields : List (Operation × String × Json)) (t : Store), t.Closed →
      Fields.keys (snapshot.objects.getD []) ⊆ Fields.keys t.objects →
      (∀ x ∈ fields, x.2.2.Grounded (· ∈ Fields.keys (snapshot.objects.getD []))) →
      (fillContainers options now t fields).Closed := by
    intro fields
    induction fields with
    | nil => exact fun t ht _ _ => ht
    | cons x fields ih =>
        intro t ht hsub hx
        refine ih _ (ht.putContainer ?_) hsub fun y hy => hx y (List.mem_cons_of_mem x hy)
        exact (hx x List.mem_cons_self).mono fun _ hid => hsub hid
  refine (Store.Closed.shrinks ?_ (Store.shrinks_dropReplacedPlaceholders _ _)).shrinks
    (Store.shrinks_enforceCapacity _ _)
  refine hfill _ _ htable (fun id hk => ?_) fun x hx => ?_
  · have hk : id ∈ Fields.keys (restoreObjects s.objects (snapshot.objects.getD [])).1 := by
      rw [restoreObjects_table]
      exact Fields.mem_keys_overlay.mpr (.inl hk)
    exact hk
  · exact hs.fields x.1 x.2 (mem_snapshotFields.mp hx)

/-! ### Operations -/

theorem proper_of_slot? {s : Store} (h : s.Closed) {path : CachePath} {slot : Slot}
    (hk : referenceKey ∉ path.segments) (hn : path.rest ≠ []) (hs : s.slot? path = some slot) :
    slot.Proper ∧ slot.path ≠ [] ∧ ∃ u, s.parent? slot = some u ∧ u.referenceId? = none := by
  obtain ⟨hne, hpath⟩ := Store.slot?_path hn hs
  exact ⟨⟨fun hm => hk (List.mem_cons_of_mem _ (hpath _ hm)), fun _ _ => hne⟩, hne,
    Store.parent?_slot? h.direct hn hs⟩

theorem plain_singleton {root : Operation} {field : String} {v : Json} (hv : v.Plain) :
    ∀ x ∈ [(root, field, v)], x.2.2.Plain :=
  fun _ hx => List.mem_singleton.mp hx ▸ hv

/-- A straight operation without the key of references keeps all references in the table. -/
theorem step_closed {options : Options} (hm : options.MergesByMember) {now : Nat} {c : Cache}
    (ho : c.options = options) (h : c.store.Closed) {e : Event} (hp : e.Plain)
    (hstraight : c.Straight e) {t : Store} (step : Step options now c.store e t) : t.Closed := by
  subst ho
  cases step with
  | unchanged e => exact h
  | missed e metrics => exact ⟨h.ascending, h.containers, h.objects, h.placeholders⟩
  | used e key metrics =>
      exact ⟨h.ascending, fun p hp => h.containers p (Recency.mem_of_mem_touch hp), h.objects,
        h.placeholders⟩
  | set read skipNotify =>
      have hplain : Json.Plain (.object _) := hp
      have hroots := (Json.everywhere_object.mp hplain).2
      exact setStore_closed hm (payloadFields_everywhere read hroots) h
  | writtenRoot value root => exact setStore_closed hm (plain_singleton hp.2) h
  | merged value below found => exact (normalized_closed hm h [] hp.2).1
  | written below found placed touched =>
      obtain ⟨ht, hg⟩ := normalized_closed hm h [] hp.2
      obtain ⟨hslot, _⟩ := proper_of_slot? h hp.1 below found
      have hw := ht.writeSlot? hslot (fun u hu => hstraight _ u below found hu) hg placed
      exact (hw.shrinks (Store.shrinks_dropPlaceholdersIn _ _)).shrinks
        (Store.shrinks_dropReplacedPlaceholders _ _)
  | @seededRoot path value root absent =>
      have hput : ∀ lifetime, Store.Closed { c.store with
          containers := Recency.put c.store.containers (keyOf path) { data := value, lifetime } } := by
        refine fun lifetime => ⟨h.ascending, fun p hm => ?_, h.objects, h.placeholders⟩
        rcases Recency.mem_put.mp hm with rfl | ⟨hm, _⟩
        · exact hp.2.grounded
        · exact h.containers p hm
      exact ((hput _).markPlaceholder ⟨List.not_mem_nil, fun _ ho => by cases ho⟩).shrinks
        (Store.shrinks_enforceCapacity _ _)
  | seeded below found placed =>
      obtain ⟨hslot, _, u, hu, hr⟩ := proper_of_slot? h hp.1 below found
      refine (h.writeSlot? hslot (fun w hw => ?_) hp.2.grounded placed).markPlaceholder hslot
      rw [hu] at hw
      cases hw
      exact hr
  | evictedRoot parsed => exact h.shrinks (Store.shrinks_dropContainer _ _)
  | evicted parsed below found owned removed =>
      obtain ⟨hslot, _⟩ := proper_of_slot? h (hp _ parsed) below found
      refine Store.Closed.shrinks (h.withOwnerValue ?_ fun id ho => ?_)
        (Store.shrinks_dropPlaceholdersIn _ _)
      · exact (h.ownerValue? owned).removeAt? hslot.key removed
      · rw [ho] at owned
        exact (h.objects.get? owned).1.removeAt? hslot.key removed
  | swept => exact h.sweep now
  | cleared =>
      exact ⟨.nil, fun _ hm => absurd hm List.not_mem_nil, fun _ hm => absurd hm List.not_mem_nil,
        fun _ hm => absurd hm List.not_mem_nil⟩
  | restored valid => exact hp.elim

/-- A write that is not straight leaves an object with the key of references and another one. -/
theorem not_closed_of_not_straight {c : Cache} (h : c.store.Closed)
    {now : Nat} {e : Event} (hp : e.Plain) (hs : ¬ c.Straight e) :
    ¬ (c.act now e).cache.store.Closed := by
  cases e with
  | write path value =>
      simp only [Straight, Classical.not_forall] at hs
      obtain ⟨slot, u, hn, found, hu, hr⟩ := hs
      obtain ⟨hslot, hne, _⟩ := proper_of_slot? h hp.1 hn found
      obtain ⟨t, ht, hnot⟩ := Store.Closed.not_of_writeSlot?
        (v := (normalized c.options c.store.objects [] value).1) hslot hne hu hr
      rcases c.write_slot now value hn found with ⟨hnone, _⟩ | ⟨t', d, notice, _, ht', hw, _, hd⟩
      · rw [ht] at hnone
        cases hnone
      · rw [ht] at ht'
        cases ht'
        simp only [act, hw, hd]
        exact hnot _ rfl rfl
  | _ => exact absurd trivial hs

theorem act_closed {c : Cache} (hm : c.options.MergesByMember) (h : c.store.Closed) (now : Nat)
    {e : Event} (hp : e.Plain) (hs : c.Straight e) : (c.act now e).cache.store.Closed :=
  step_closed hm rfl h hp hs (c.act_step now e).2

theorem PlainRun.closed {c : Cache} (run : PlainRun c) :
    c.options.MergesByMember ∧ c.store.Closed := by
  induction run with
  | new merges => exact ⟨merges, Store.closed_empty⟩
  | act run now plain straight ih =>
      refine ⟨?_, act_closed ih.1 ih.2 now plain straight⟩
      rw [(act_step _ now _).1]
      exact ih.1
  | @restore c d run other now taken ih ihother =>
      have hvalid := validate_snapshot ihother.2 taken
      obtain ⟨c', notice, hr, ho, hs⟩ := c.restore_of_valid now hvalid
      simp only [Cache.act, snapshot, hr, Outcome.ofResult, ho, hs]
      exact ⟨ih.1, restored_closed ih.2 (snapshot_closed ihother.2 taken)⟩

/-- After every run all references lead to identified objects, and every snapshot is valid. The
next operation keeps objects with the key of references apart from others exactly if it is
straight. -/
theorem references_resolve {c : Cache} (run : PlainRun c) :
    (∀ p ∈ c.store.containers, ∀ id ∈ p.2.data.references, id ∈ Fields.keys c.store.objects) ∧
    (∀ p ∈ c.store.objects, ∀ id ∈ p.2.references, id ∈ Fields.keys c.store.objects) ∧
    (∀ now, (c.snapshot now).validate = .ok ()) ∧
    ∀ now e, e.Plain → ((c.act now e).cache.store.Closed ↔ c.Straight e) := by
  obtain ⟨hm, h⟩ := run.closed
  refine ⟨fun p hp => (h.containers p hp).references, fun p hp => (h.objects p hp).2.references,
    validate_snapshot h, fun now e hp => ⟨fun hclosed => ?_, act_closed hm h now hp⟩⟩
  exact Classical.byContradiction fun hs => not_closed_of_not_straight h hp hs hclosed

/-- The payload with a user who has a friend. -/
def friendPayload (friend : Json) : Json :=
  .object [("query", .object [("user",
    .object [("__typename", .string "U"), ("friend", friend), ("id", .int 1)])])]

/-- The path of the name of the friend. -/
def friendName : CachePath := { root := .query, field := "user", rest := ["friend", "name"] }

theorem friendPayload_plain {friend : Json} (h : friend.Plain) : (friendPayload friend).Plain := by
  simp only [friendPayload, Json.int, Json.Plain, Json.Everywhere, Json.EverywhereInFields,
    and_true, true_and, Fields.keys, List.map_cons, List.map_nil]
  exact ⟨by decide, by decide, by decide, h⟩

theorem plain_name (s : String) : Json.Plain (.object [("name", .string s)]) := by
  simp only [Json.Plain, Json.Everywhere, Json.EverywhereInFields, and_true, Fields.keys,
    List.map_cons, List.map_nil]
  decide

/-- A cache with a friend who has no identity. -/
def namedFriend : Cache :=
  ((new {}).act 0 (.set (friendPayload (.object [("name", .string "x")])) false)).cache

/-- That friend gets another name. -/
theorem references_resolve_rename :
    PlainRun (namedFriend.act 0 (.write friendName (.string "y"))).cache ∧
    ((namedFriend.act 0 (.write friendName (.string "y"))).cache.snapshot 0).validate = .ok () := by
  have merges : Options.MergesByMember {} := by
    intro n hn
    cases hn
    rfl
  have named : PlainRun namedFriend :=
    (PlainRun.new merges).act 0 (friendPayload_plain (plain_name "x")) trivial
  have straight : Straight namedFriend (.write friendName (.string "y")) := by
    intro slot u _ found hu
    have hslot : namedFriend.store.slot? friendName =
        some { owner := .object "U:1", path := ["friend", "name"] } := by decide
    rw [hslot] at found
    cases found
    have hparent : (mergedStore namedFriend.options namedFriend.store (.string "y")).parent?
        { owner := .object "U:1", path := ["friend", "name"] } =
        some (.object [("name", .string "x")]) := by cbv
    rw [hparent] at hu
    cases hu
    rfl
  have plain : Event.Plain (.write friendName (.string "y")) := ⟨by decide, trivial⟩
  have run := named.act 0 plain straight
  exact ⟨run, (references_resolve run).2.2.1 0⟩

/-- A user whose friend has no identity, and a write at the name of that friend: its value gives
the user a friend with an identity. Once the name is taken away again, the reference to that friend
is all that is left of the friend, whom the sweep has dropped. -/
def danglingRun : List Event :=
  [.set (friendPayload (.object [("name", .string "x")])) false,
    .write friendName (.object [("__typename", .string "U"),
      ("friend", .object [("__typename", .string "F"), ("id", .int 2)]), ("id", .int 1)]),
    .sweep, .evict "query.user.friend.name"]

/-- Without the key of references in a payload or a path, a reference is left to an object that is
not there. -/
theorem danglingRun_dangles :
    Options.MergesByMember {} ∧ (∀ e ∈ danglingRun, e.Plain) ∧
    Reachable {} 0 ((new {}).after 0 danglingRun) ∧
    (((new {}).after 0 danglingRun).snapshot 0).validate = .error (.unresolvedReference "F:2") := by
  refine ⟨?_, ?_, (Reachable.new 0).after danglingRun, by cbv⟩
  · intro n hn
    cases hn
    rfl
  · intro e he
    simp only [danglingRun, List.mem_cons, List.not_mem_nil, or_false] at he
    rcases he with rfl | rfl | rfl | rfl
    · exact friendPayload_plain (plain_name "x")
    · refine ⟨by decide, ?_⟩
      simp [Json.Plain, Json.Everywhere, Json.EverywhereInFields, Fields.keys, referenceKey,
        Json.int]
    · trivial
    · intro path hp
      have hpath : CachePath.parse "query.user.friend.name" = .ok friendName := by cbv
      rw [hpath] at hp
      cases hp
      decide

end LazyGraph.Cache
