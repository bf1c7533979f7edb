import LazyGraph.Proofs.Cache.Invariant
import LazyGraph.Proofs.Cache.PlainRun
import LazyGraph.Proofs.Json.Removal

/-!
Ordered data stays ordered: if the values that operations are given have the members of all their
objects in order, then so have all values that a cache stores in a run.
-/
namespace LazyGraph

/-- All values of a table are in order. -/
def ObjectTable.InOrder (table : ObjectTable) : Prop := ∀ p ∈ table, p.2.InOrder

namespace ObjectTable.InOrder

variable {table : ObjectTable}

theorem insert (h : table.InOrder) (id : String) {v : Json} (hv : v.InOrder) :
    ObjectTable.InOrder (Fields.insert table id v) := by
  intro p hp
  rcases Fields.mem_of_mem_insert hp with rfl | hp
  · exact hv
  · exact h p hp

theorem get? (h : table.InOrder) {id : String} {v : Json} (hv : Fields.get? table id = some v) :
    v.InOrder := h _ (Fields.mem_of_get? hv)

end ObjectTable.InOrder

namespace Normalizer

/-- A resolver makes ordered objects of ordered ones. -/
def ResolvesInOrder (n : Normalizer) : Prop :=
  ∀ resolve, n.resolver = some resolve → ∀ id stored arriving, Json.InOrder (.object stored) →
    Json.InOrder (.object arriving) → Json.InOrder (.object (resolve id stored arriving))

variable {n : Normalizer} {levels : Nat} {p : Progress}

theorem inOrder_mergeMembers {stored arriving : Fields Json} (hs : Json.InOrder (.object stored))
    (ha : Json.InOrder (.object arriving)) :
    Json.InOrder (.object (n.mergeMembers stored arriving)) := by
  have hparts := (Json.inOrder_object.mp ha).2
  rw [mergeMembers]
  refine List.foldlRecOn (motive := fun merged => Json.InOrder (.object merged)) arriving _ hs ?_
  intro merged hmerged q hq
  split
  · exact hmerged
  · exact hmerged.insert q.1 (hparts q hq)

theorem inOrder_settle (hn : n.ResolvesInOrder) {object : Fields Json}
    (ho : Json.InOrder (.object object)) (hp : p.table.InOrder) :
    (n.settle object p).1.InOrder ∧ (n.settle object p).2.table.InOrder := by
  rw [settle]
  split
  · exact ⟨ho, hp⟩
  · rename_i id _
    have hmerged : ∀ stored, Fields.get? p.table id = some (.object stored) →
        Json.InOrder (.object (n.merge id stored object)) := by
      intro stored hstored
      rw [merge]
      split
      · exact hn _ ‹_› id stored object (hp.get? hstored) ho
      · exact inOrder_mergeMembers (hp.get? hstored) ho
    constructor
    · exact Json.inOrder_object.mpr ⟨List.pairwise_singleton _ _,
        List.forall_mem_singleton.mpr trivial⟩
    · refine hp.insert id ?_
      split
      · exact hmerged _ ‹_›
      · exact ho

theorem inOrder_normalizeItems {items : List Json}
    (hparts : ∀ v ∈ items, ∀ p : Progress, p.table.InOrder →
      (n.normalizeWithin levels p v).1.InOrder ∧ (n.normalizeWithin levels p v).2.table.InOrder)
    (hp : p.table.InOrder) :
    (∀ v ∈ (n.normalizeItems levels p items).1, v.InOrder) ∧
      (n.normalizeItems levels p items).2.table.InOrder := by
  induction items generalizing p with
  | nil =>
      rw [normalizeItems]
      exact ⟨fun v hv => absurd hv List.not_mem_nil, hp⟩
  | cons v items ih =>
      obtain ⟨hv, hrest⟩ := List.forall_mem_cons.mp hparts
      obtain ⟨hfirst, htable⟩ := hv p hp
      obtain ⟨hvs, hlast⟩ := ih hrest htable
      rw [normalizeItems]
      exact ⟨List.forall_mem_cons.mpr ⟨hfirst, hvs⟩, hlast⟩

theorem inOrder_normalizeFields {fs : List (String × Json)}
    (hparts : ∀ q ∈ fs, ∀ p : Progress, p.table.InOrder →
      (n.normalizeWithin levels p q.2).1.InOrder ∧ (n.normalizeWithin levels p q.2).2.table.InOrder)
    (hp : p.table.InOrder) :
    (∀ q ∈ (n.normalizeFields levels p fs).1, q.2.InOrder) ∧
      (n.normalizeFields levels p fs).2.table.InOrder := by
  induction fs generalizing p with
  | nil =>
      rw [normalizeFields]
      exact ⟨fun v hv => absurd hv List.not_mem_nil, hp⟩
  | cons q fs ih =>
      obtain ⟨hq, hrest⟩ := List.forall_mem_cons.mp hparts
      obtain ⟨hfirst, htable⟩ := hq p hp
      obtain ⟨hqs, hlast⟩ := ih hrest htable
      rw [normalizeFields]
      exact ⟨List.forall_mem_cons.mpr ⟨hfirst, hqs⟩, hlast⟩

/-- Normalizing an ordered value leaves an ordered value and an ordered table. -/
theorem inOrder_normalizeWithin (hn : n.ResolvesInOrder) {v : Json} (hv : v.InOrder)
    (hp : p.table.InOrder) :
    (n.normalizeWithin levels p v).1.InOrder ∧ (n.normalizeWithin levels p v).2.table.InOrder := by
  induction v using Json.induction generalizing levels p with
  | array items ih =>
      cases levels with
      | zero => exact ⟨hv, hp⟩
      | succ levels =>
          have hitems := Json.inOrder_array.mp hv
          obtain ⟨hleft, htable⟩ :=
            inOrder_normalizeItems (fun v hm p hp => ih v hm (hitems v hm) hp) hp
          rw [normalizeWithin]
          exact ⟨Json.inOrder_array.mpr hleft, htable⟩
  | object fs ih =>
      cases levels with
      | zero => exact ⟨hv, hp⟩
      | succ levels =>
          obtain ⟨hascending, hparts⟩ := Json.inOrder_object.mp hv
          obtain ⟨hleft, htable⟩ :=
            inOrder_normalizeFields (fun q hm p hp => ih q hm (hparts q hm) hp) hp
          rw [normalizeWithin]
          split
          · exact ⟨hv, hp⟩
          · refine inOrder_settle hn (Json.inOrder_object.mpr ⟨?_, hleft⟩) htable
            exact hascending.of_keys (keys_normalizeFields n levels p fs)
  | _ => exact ⟨hv, hp⟩

end Normalizer

namespace Cache

/-- A resolver, if there is one, makes ordered objects of ordered ones. -/
def Options.MergesInOrder (options : Options) : Prop :=
  ∀ n, options.normalizer = some n → n.ResolvesInOrder

/-- The values that an operation is given are in order. -/
def Event.InOrder : Event → Prop
  | .set payload _ => payload.InOrder
  | .write _ value => value.InOrder
  | .seed _ value => value.InOrder
  | .restore snapshot => ∀ v ∈ snapshot.contents, v.InOrder
  | _ => True

/-- All stored values are in order. -/
structure Store.InOrder (s : Store) : Prop where
  containers : ∀ p ∈ s.containers, p.2.data.InOrder
  objects : s.objects.InOrder

variable {options : Options} {now : Nat} {s t : Store}

theorem inOrder_normalized (hm : options.MergesInOrder) {objects : ObjectTable}
    (ho : objects.InOrder) (touched : Touched) {v : Json} (hv : v.InOrder) :
    (normalized options objects touched v).1.InOrder ∧
      (normalized options objects touched v).2.table.InOrder := by
  rw [normalized]
  split
  · exact Normalizer.inOrder_normalizeWithin (hm _ ‹_›) hv ho
  · exact ⟨hv, ho⟩

namespace Store.InOrder

theorem empty : ({} : Store).InOrder where
  containers _ h := nomatch h
  objects _ h := nomatch h

theorem shrinks (h : s.InOrder) (hst : Shrinks s t) : t.InOrder where
  containers p hp := h.containers p (hst.containers.subset hp)
  objects := hst.objects ▸ h.objects

theorem ownerValue? (h : s.InOrder) {owner : Owner} {v : Json} (hv : s.ownerValue? owner = some v) :
    v.InOrder := by
  cases owner with
  | container key =>
      obtain ⟨c, hc, rfl⟩ := Option.map_eq_some_iff.mp hv
      exact h.containers (key, c) (Recency.mem_of_peek? hc)
  | object id => exact h.objects.get? hv

theorem withOwnerValue (h : s.InOrder) (owner : Owner) {v : Json} (hv : v.InOrder) :
    (s.withOwnerValue owner v).InOrder := by
  cases owner with
  | container key =>
      refine ⟨fun p hp => ?_, h.objects⟩
      simp only [Store.withOwnerValue] at hp
      rcases Recency.mem_of_mem_update hp with hp | ⟨c, _, rfl⟩
      · exact h.containers p hp
      · exact hv
  | object id => exact ⟨h.containers, h.objects.insert id hv⟩

theorem writeSlot? (h : s.InOrder) {slot : Slot} {v : Json} (hv : v.InOrder)
    (hw : s.writeSlot? slot v = some t) : t.InOrder := by
  obtain ⟨u, hu, hw⟩ := Option.bind_eq_some_iff.mp hw
  obtain ⟨w, hplaced, ht⟩ := Option.bind_eq_some_iff.mp hw
  exact Option.some.inj ht ▸ h.withOwnerValue slot.owner ((h.ownerValue? hu).writeAt? hv hplaced)

theorem put (h : s.InOrder) (key : ContainerKey) (c : Container) (hc : c.data.InOrder) :
    InOrder { s with containers := Recency.put s.containers key c } := by
  refine ⟨fun p hp => ?_, h.objects⟩
  rcases Recency.mem_put.mp hp with rfl | ⟨hp, _⟩
  · exact hc
  · exact h.containers p hp

theorem fillContainer (h : s.InOrder) (root : Operation) (field : String) {v : Json}
    (hv : v.InOrder) : (fillContainer options now s root field v).InOrder :=
  ⟨(h.put { root, field } _ hv).containers, h.objects⟩

theorem markPlaceholder (h : s.InOrder) (slot : Slot) : (s.markPlaceholder slot).InOrder := by
  rw [Store.markPlaceholder]
  split
  · exact h
  · exact ⟨h.containers, h.objects⟩

theorem sweep (h : s.InOrder) (now : Nat) : (s.sweep now).InOrder := by
  have hdropped := h.shrinks (shrinks_dropContainers s (s.reclaimable now))
  rw [Store.sweep]
  refine ⟨?_, fun p hp => ?_⟩
  · rw [containers_collectObjects]
    exact hdropped.containers
  · rw [objects_collectObjects] at hp
    exact hdropped.objects p (List.mem_filter.mp hp).1

theorem merged (hm : options.MergesInOrder) (h : s.InOrder) {v : Json} (hv : v.InOrder) :
    (mergedStore options s v).InOrder :=
  ⟨h.containers, (inOrder_normalized hm h.objects [] hv).2⟩

theorem storeFields (hm : options.MergesInOrder) (h : s.InOrder)
    {fields : List (Operation × String × Json)} (hf : ∀ x ∈ fields, x.2.2.InOrder) :
    (storeFields options now s fields).1.InOrder := by
  rw [Cache.storeFields]
  refine List.foldlRecOn (motive := fun acc : Store × Touched => acc.1.InOrder) fields _ h
    fun acc hacc x hx => ?_
  obtain ⟨hv, ht⟩ := inOrder_normalized hm hacc.objects acc.2 (hf x hx)
  have hobjects : InOrder { acc.1 with
      objects := (normalized options acc.1.objects acc.2 x.2.2).2.table } :=
    ⟨hacc.containers, ht⟩
  exact hobjects.fillContainer x.1 x.2.1 hv

theorem setStore (hm : options.MergesInOrder) (h : s.InOrder)
    {fields : List (Operation × String × Json)} (hf : ∀ x ∈ fields, x.2.2.InOrder) :
    (setStore options now s fields).InOrder :=
  (((h.storeFields hm hf).shrinks (shrinks_dropReplacedPlaceholders _ _)).sweep now).shrinks
    (shrinks_enforceCapacity _ _)

theorem restored (h : s.InOrder) {snapshot : Snapshot} (hs : ∀ v ∈ snapshot.contents, v.InOrder) :
    (restored options now s snapshot).InOrder := by
  have hobjects : ObjectTable.InOrder
      (restoreObjects s.objects (snapshot.objects.getD [])).1 := by
    rw [restoreObjects_table, Fields.overlay]
    refine List.foldlRecOn (motive := ObjectTable.InOrder) _ _ h.objects fun table ht p hp => ?_
    exact ht.insert p.1 (hs p.2 (Snapshot.mem_contents.mpr (.inr ⟨p.1, hp⟩)))
  have hfields : ∀ x ∈ snapshotFields snapshot, x.2.2.InOrder := by
    intro x hx
    exact hs x.2.2 (Snapshot.mem_contents.mpr (.inl ⟨x.1, x.2.1, mem_snapshotFields.mp hx⟩))
  have hfilled : (fillContainers options now
      { s with objects := (restoreObjects s.objects (snapshot.objects.getD [])).1 }
      (snapshotFields snapshot)).InOrder := by
    rw [fillContainers]
    refine List.foldlRecOn (motive := Store.InOrder) _ _ ⟨h.containers, hobjects⟩
      fun u hu x hx => hu.fillContainer x.1 x.2.1 (hfields x hx)
  exact (hfilled.shrinks (shrinks_dropReplacedPlaceholders _ _)).shrinks
    (shrinks_enforceCapacity _ _)

end Store.InOrder

/-- Every operation that is given ordered values keeps all stored values in order. -/
theorem step_inOrder (hm : options.MergesInOrder) (h : s.InOrder) {e : Event} (he : e.InOrder)
    (step : Step options now s e t) : t.InOrder := by
  cases step with
  | unchanged e => exact h
  | missed e metrics => exact ⟨h.containers, h.objects⟩
  | used e key metrics =>
      exact ⟨fun p hp => h.containers p (Recency.mem_of_mem_touch hp), h.objects⟩
  | set read skipNotify =>
      have hroots := (Json.inOrder_object.mp he).2
      exact h.setStore hm (payloadFields_everywhere read hroots)
  | writtenRoot value root =>
      exact h.setStore hm fun x hx => List.mem_singleton.mp hx ▸ he
  | merged value below found => exact h.merged hm he
  | @written path slot value t below found placed touched =>
      have hstored := (inOrder_normalized hm h.objects [] he).1
      exact (((h.merged hm he).writeSlot? hstored placed).shrinks
        (Store.shrinks_dropPlaceholdersIn _ _)).shrinks
        (Store.shrinks_dropReplacedPlaceholders _ _)
  | @seededRoot path value root absent =>
      refine Store.InOrder.shrinks (Store.InOrder.markPlaceholder ?_ _)
        (Store.shrinks_enforceCapacity _ _)
      exact h.put (keyOf path) _ he
  | seeded below found placed => exact (h.writeSlot? he placed).markPlaceholder _
  | evictedRoot parsed => exact h.shrinks (Store.shrinks_dropContainer _ _)
  | @evicted text path slot v w parsed below found owned removed =>
      have hleft := (h.ownerValue? owned).removeAt slot.path
      rw [Json.removeAt, removed] at hleft
      exact (h.withOwnerValue slot.owner hleft).shrinks (Store.shrinks_dropPlaceholdersIn _ _)
  | swept => exact h.sweep now
  | cleared =>
      exact ⟨fun _ hp => absurd hp List.not_mem_nil, fun _ hp => absurd hp List.not_mem_nil⟩
  | restored valid => exact h.restored he

/-- Runs whose operations are given ordered values, with the time of the last operation. -/
inductive OrderedRun (options : Options) : Nat → Cache → Prop
  | new (now : Nat) : OrderedRun options now (new options)
  | act {now later : Nat} {c : Cache} (run : OrderedRun options now c) (passed : now ≤ later)
    {e : Event} (ordered : e.InOrder) : OrderedRun options later (c.act later e).cache

theorem OrderedRun.reachable {c : Cache} (run : OrderedRun options now c) :
    Reachable options now c := by
  induction run with
  | new now => exact .new now
  | act _ passed _ ih => exact ih.act passed _

theorem OrderedRun.inOrder (hm : options.MergesInOrder) {c : Cache}
    (run : OrderedRun options now c) : c.store.InOrder := by
  induction run with
  | new now => exact .empty
  | @act now later c run passed e ordered ih =>
      have hstep := (c.act_step later e).2
      rw [run.reachable.sound.1] at hstep
      exact step_inOrder hm ih ordered hstep

end Cache
end LazyGraph
