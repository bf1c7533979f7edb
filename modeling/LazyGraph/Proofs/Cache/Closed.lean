import LazyGraph.Proofs.Cache.Event
import LazyGraph.Proofs.Cache.Normalization
import LazyGraph.Proofs.Cache.Snapshot

/-!
References that never dangle: as long as no write finds a reference in the place of the parent of
its slot, every reference in the containers and in the identified objects leads to an object.
-/
namespace LazyGraph.Cache

/-- A slot that a path without the key of references may lead to. -/
structure Slot.Proper (slot : Slot) : Prop where
  key : referenceKey ∉ slot.path
  object : ∀ id, slot.owner = .object id → slot.path ≠ []

/-- All references lead to identified objects, and no other object has the key of references. -/
structure Store.Closed (s : Store) : Prop where
  ascending : Fields.Ascending s.objects
  containers : ∀ p ∈ s.containers, p.2.data.Grounded (· ∈ Fields.keys s.objects)
  objects : s.objects.Grounded (· ∈ Fields.keys s.objects)
  placeholders : ∀ slot ∈ s.placeholders, slot.Proper

namespace Store

theorem closed_empty : ({} : Store).Closed where
  ascending := .nil
  containers _ h := nomatch h
  objects _ h := nomatch h
  placeholders _ h := nomatch h

namespace Closed

variable {s t : Store}

theorem direct (h : s.Closed) : s.Direct :=
  fun _ _ hv => (h.objects.get? hv).1.referenceId?

theorem ownerValue? (h : s.Closed) {owner : Owner} {v : Json} (hv : s.ownerValue? owner = some v) :
    v.Grounded (· ∈ Fields.keys s.objects) := by
  cases owner with
  | container key =>
      obtain ⟨c, hc, rfl⟩ := Option.map_eq_some_iff.mp hv
      exact h.containers (key, c) (Recency.mem_of_peek? hc)
  | object id => exact (h.objects.get? hv).2

/-! ### Dropping -/

theorem shrinks (h : s.Closed) (hst : Shrinks s t) : t.Closed where
  ascending := hst.objects ▸ h.ascending
  containers p hp := hst.objects ▸ h.containers p (hst.containers.subset hp)
  objects := hst.objects ▸ h.objects
  placeholders slot hs := h.placeholders slot (hst.placeholders hs)

/-- What the containers lead to is all that they and these objects refer to. -/
theorem collectObjects (h : s.Closed) : s.collectObjects.Closed := by
  have hkept : ∀ v : Json, v.Grounded (· ∈ Fields.keys s.objects) →
      (∀ id ∈ v.references, id ∈ s.reachable) →
      v.Grounded (· ∈ Fields.keys s.collectObjects.objects) := by
    intro v hv hr
    refine hv.of_references fun id hid => ?_
    obtain ⟨p, hp, rfl⟩ := List.mem_map.mp (hv.references id hid)
    rw [objects_collectObjects]
    refine Fields.mem_keys_of_mem (List.mem_filter.mpr ⟨hp, ?_⟩)
    exact List.contains_iff_mem.mpr (hr p.1 hid)
  refine ⟨?_, fun p hp => ?_, fun p hp => ?_, fun slot hs => ?_⟩
  · rw [objects_collectObjects]
    exact h.ascending.filter _
  · rw [containers_collectObjects] at hp
    refine hkept _ (h.containers p hp) fun id hid => ?_
    exact Json.mem_reach_iff.mpr ⟨_, List.mem_map_of_mem hp, .here hid⟩
  · rw [objects_collectObjects] at hp
    obtain ⟨hp, halive⟩ := List.mem_filter.mp hp
    refine ⟨(h.objects p hp).1, hkept _ (h.objects p hp).2 fun id hid => ?_⟩
    obtain ⟨v, hv, hl⟩ := Json.mem_reach_iff.mp (List.contains_iff_mem.mp halive)
    exact Json.mem_reach_iff.mpr ⟨v, hv, .through hl (h.ascending.get?_of_mem hp) hid⟩
  · exact h.placeholders slot (s.placeholders_collectObjects_sublist.subset hs)

theorem sweep (h : s.Closed) (now : Nat) : (s.sweep now).Closed :=
  (h.shrinks (shrinks_dropContainers s _)).collectObjects

/-! ### Putting in place -/

theorem withObjects (h : s.Closed) {table : ObjectTable} (ha : Fields.Ascending table)
    (hs : Fields.keys s.objects ⊆ Fields.keys table)
    (hg : table.Grounded (· ∈ Fields.keys table)) : Closed { s with objects := table } where
  ascending := ha
  containers p hp := (h.containers p hp).mono fun _ hid => hs hid
  objects := hg
  placeholders := h.placeholders

theorem putContainer (h : s.Closed) {key : ContainerKey} {c : Container}
    (hc : c.data.Grounded (· ∈ Fields.keys s.objects)) : (s.putContainer key c).Closed where
  ascending := h.ascending
  containers p hp := by
    rcases Recency.mem_put.mp hp with rfl | ⟨hp, _⟩
    · exact hc
    · exact h.containers p hp
  objects := h.objects
  placeholders slot hs := h.placeholders slot (List.mem_filter.mp hs).1

theorem markPlaceholder (h : s.Closed) {slot : Slot} (hp : slot.Proper) :
    (s.markPlaceholder slot).Closed := by
  have hc := s.containers_markPlaceholder slot
  have ho := s.objects_markPlaceholder slot
  refine ⟨ho ▸ h.ascending, ho ▸ hc ▸ h.containers, ho ▸ h.objects, fun mark hm => ?_⟩
  rcases mem_markPlaceholder hm with rfl | hm
  · exact hp
  · exact h.placeholders mark hm

theorem withOwnerValue (h : s.Closed) {owner : Owner} {v : Json}
    (hv : v.Grounded (· ∈ Fields.keys s.objects))
    (he : ∀ id, owner = .object id → v.IsEntry) : (s.withOwnerValue owner v).Closed := by
  cases owner with
  | container key =>
      refine ⟨h.ascending, fun p hp => ?_, h.objects, h.placeholders⟩
      simp only [Store.withOwnerValue] at hp
      rcases Recency.mem_of_mem_update hp with hp | ⟨c, _, rfl⟩
      · exact h.containers p hp
      · exact hv
  | object id =>
      have hs : Fields.keys s.objects ⊆ Fields.keys (Fields.insert s.objects id v) :=
        fun _ hk => Fields.mem_keys_insert.mpr (.inr hk)
      refine h.withObjects (h.ascending.insert id v) hs ?_
      exact (h.objects.mono fun _ hid => hs hid).insert (he id rfl) (hv.mono fun _ hid => hs hid)

/-- A value goes into a slot whose parent is not a reference. -/
theorem writeSlot? (h : s.Closed) {slot : Slot} {v : Json} (hp : slot.Proper)
    (hparent : ∀ u, s.parent? slot = some u → u.referenceId? = none)
    (hv : v.Grounded (· ∈ Fields.keys s.objects)) (hw : s.writeSlot? slot v = some t) :
    t.Closed := by
  obtain ⟨u, hu, hw⟩ := Option.bind_eq_some_iff.mp hw
  obtain ⟨w, hwrite, ht⟩ := Option.bind_eq_some_iff.mp hw
  obtain rfl := Option.some.inj ht
  refine h.withOwnerValue ?_ fun id ho => ?_
  · refine (h.ownerValue? hu).writeAt? hp.key hv (fun x hx => hparent x ?_) hwrite
    rw [parent?, slotValue?, hu]
    exact hx
  · rw [ho] at hu
    exact (h.objects.get? hu).1.writeAt? (hp.object id ho) hp.key hwrite

/-- No value goes into a slot whose parent is a reference. -/
theorem not_of_writeSlot? {slot : Slot} {v u : Json} (hp : slot.Proper) (hn : slot.path ≠ [])
    (hu : s.parent? slot = some u) (hr : u.referenceId? ≠ none) :
    ∃ t, s.writeSlot? slot v = some t ∧ ∀ t' : Store, t'.containers = t.containers →
      t'.objects = t.objects → ¬ t'.Closed := by
  obtain ⟨id, hid⟩ := Option.ne_none_iff_exists'.mp hr
  rw [Json.referenceId?_eq_some_iff] at hid
  subst hid
  obtain ⟨v₀, hv₀, hu⟩ := Option.bind_eq_some_iff.mp hu
  have hlast : slot.path.getLast hn ≠ referenceKey := fun e =>
    hp.key (e ▸ List.getLast_mem hn)
  have hw : ∀ ids, ∃ w, v₀.writeAt? v slot.path = some w ∧ ¬ w.Grounded ids := by
    intro ids
    have h := Json.writeAt?_below_reference ids v hu hlast
    rwa [List.dropLast_concat_getLast] at h
  obtain ⟨w, hw₀, _⟩ := hw fun _ => False
  have hnot : ∀ ids, ¬ w.Grounded ids := by
    intro ids
    obtain ⟨w', hw', hg⟩ := hw ids
    rw [hw₀] at hw'
    cases hw'
    exact hg
  refine ⟨s.withOwnerValue slot.owner w, ?_, fun t' hc ho hclosed => ?_⟩
  · rw [Store.writeSlot?, hv₀]
    simp only [Option.bind_eq_bind, Option.bind_some, hw₀]
  · cases howner : slot.owner with
    | container key =>
        rw [howner] at hc hv₀
        obtain ⟨c, hpeek, rfl⟩ := Option.map_eq_some_iff.mp hv₀
        refine hnot _ (hclosed.containers (key, { c with data := w }) ?_)
        rw [hc]
        exact List.mem_map.mpr ⟨(key, c), Recency.mem_of_peek? hpeek, if_pos rfl⟩
    | object id =>
        rw [howner] at ho
        refine hnot _ (hclosed.objects (id, w) ?_).2
        rw [ho]
        exact Fields.mem_insert_self s.objects id w

end Closed
end Store
end LazyGraph.Cache
