import LazyGraph.Cache
import LazyGraph.Proofs.Cache.Descent
import LazyGraph.Proofs.Json.Expansion

/-!
What the data at a path depends on: the container that the path starts in, and the objects of the
identities that it crosses or whose value leads to them. Nothing else in a cache changes the data.
-/
namespace LazyGraph

namespace Json

variable {table other : ObjectTable}

/-- What a value one segment down leads to, the value above leads to. -/
theorem Leads.of_step {v u : Json} {segment id : String}
    (hs : (v.resolve? table).bind (·.step? segment) = some u) (h : Leads table u id) :
    Leads table v id := by
  obtain ⟨w, hw, hu⟩ := Option.bind_eq_some_iff.mp hs
  have hwalk : w.walk? [segment] = some u := (w.walk?_singleton segment).trans hu
  have hl : Leads table w id := h.of_references fun id hid => references_of_walk? hwalk hid
  rw [resolve?] at hw
  cases hr : v.referenceId? with
  | none =>
      rw [hr] at hw
      cases hw
      exact hl
  | some x =>
      rw [hr] at hw
      rw [referenceId?_eq_some_iff] at hr
      subst hr
      exact hl.descend (List.mem_singleton.mpr rfl) hw

theorem Leads.of_descend? {v u : Json} {rest : List String} {id : String}
    (hd : descend? table v rest = some u) (h : Leads table u id) : Leads table v id := by
  induction rest generalizing v with
  | nil =>
      cases hd
      exact h
  | cons segment rest ih =>
      obtain ⟨w, hs, hd⟩ := Option.bind_eq_some_iff.mp hd
      exact (ih hd).of_step hs

theorem Crosses.leads {v : Json} {rest : List String} {id : String} (h : Crosses table v rest id) :
    Leads table v id := by
  induction h with
  | here hr =>
      rw [referenceId?_eq_some_iff] at hr
      subst hr
      exact .here (List.mem_singleton.mpr rfl)
  | further hs _ ih => exact ih.of_step hs

/-- A way down depends on the objects of the identities that it crosses. -/
theorem descend?_congr {v : Json} {rest : List String}
    (same : ∀ id, Crosses table v rest id → Fields.get? other id = Fields.get? table id) :
    descend? other v rest = descend? table v rest := by
  induction rest generalizing v with
  | nil => rfl
  | cons segment rest ih =>
      have hresolve : v.resolve? other = v.resolve? table := by
        rw [resolve?, resolve?]
        cases hr : v.referenceId? with
        | none => rfl
        | some id => exact same id (.here hr)
      rw [descend?, descend?, hresolve]
      cases hs : (v.resolve? table).bind (·.step? segment) with
      | none => rfl
      | some u => exact ih fun id hc => same id (.further hs hc)

end Json

namespace Cache.Store

variable {s t : Store} {path : CachePath}

/-- The data at a path: its value with all references expanded. -/
def data? (s : Store) (path : CachePath) : Option Json :=
  (s.valueAt? path).map (Json.expand s.objects)

theorem valueAt?_eq_bind (s : Store) (path : CachePath) :
    s.valueAt? path = (s.ownerValue? (.container (keyOf path))).bind
      (Json.descend? s.objects · path.rest) := by
  rw [valueAt?_eq_descend?, ownerValue?]
  cases Recency.peek? s.containers (keyOf path) <;> rfl

theorem crosses_iff {id : String} : s.Crosses path id ↔
    ∃ v, s.ownerValue? (.container (keyOf path)) = some v ∧
      Json.Crosses s.objects v path.rest id := by
  constructor
  · rintro ⟨c, hc, h⟩
    exact ⟨c.data, by rw [ownerValue?, hc]; rfl, h⟩
  · rintro ⟨v, hv, h⟩
    obtain ⟨c, hc, rfl⟩ := Option.map_eq_some_iff.mp hv
    exact ⟨c, hc, h⟩

/-- What a path depends on, its container leads to. -/
theorem DependsOn.leads {id : String} (h : s.DependsOn path id) :
    ∃ v, s.ownerValue? (.container (keyOf path)) = some v ∧ Json.Leads s.objects v id := by
  rcases h with hc | ⟨u, hu, hl⟩
  · obtain ⟨v, hv, hc⟩ := crosses_iff.mp hc
    exact ⟨v, hv, hc.leads⟩
  · rw [valueAt?_eq_bind] at hu
    obtain ⟨v, hv, hu⟩ := Option.bind_eq_some_iff.mp hu
    exact ⟨v, hv, hl.of_descend? hu⟩

/-- The data at a path stays where its container and the objects that it depends on stay. -/
theorem data?_congr
    (container : t.ownerValue? (.container (keyOf path)) = s.ownerValue? (.container (keyOf path)))
    (objects : ∀ id, s.DependsOn path id →
      Fields.get? t.objects id = Fields.get? s.objects id) : t.data? path = s.data? path := by
  have hvalue : t.valueAt? path = s.valueAt? path := by
    rw [valueAt?_eq_bind, valueAt?_eq_bind, container]
    cases hv : s.ownerValue? (.container (keyOf path)) with
    | none => rfl
    | some v =>
        exact Json.descend?_congr fun id hc => objects id (.inl (crosses_iff.mpr ⟨v, hv, hc⟩))
  rw [data?, data?, hvalue]
  cases hu : s.valueAt? path with
  | none => rfl
  | some u => exact congrArg some (Json.expand_congr fun id hl => objects id (.inr ⟨u, hu, hl⟩))

/-- Garbage collection keeps the data at all paths. -/
theorem data?_collectObjects (s : Store) (path : CachePath) :
    s.collectObjects.data? path = s.data? path := by
  refine data?_congr ?_ fun id hd => ?_
  · rw [ownerValue?, ownerValue?, containers_collectObjects]
  obtain ⟨v, hv, hl⟩ := hd.leads
  obtain ⟨c, hc, rfl⟩ := Option.map_eq_some_iff.mp hv
  exact get?_collectObjects
    (Json.mem_reach_iff.mpr ⟨c.data, List.mem_map_of_mem (Recency.mem_of_peek? hc), hl⟩)

/-- What is still there after containers were dropped is what was there. -/
theorem Shrinks.data? (h : Shrinks s t) (nodup : (Recency.keys s.containers).Nodup) {v : Json}
    (present : t.data? path = some v) : s.data? path = some v := by
  refine Eq.trans (Eq.symm ?_) present
  refine data?_congr ?_ fun id _ => by rw [h.objects]
  obtain ⟨u, hu, _⟩ := Option.map_eq_some_iff.mp present
  rw [valueAt?_eq_bind] at hu
  obtain ⟨w, hw, _⟩ := Option.bind_eq_some_iff.mp hu
  obtain ⟨c, hc, rfl⟩ := Option.map_eq_some_iff.mp hw
  have hmem := h.containers.subset (Recency.mem_of_peek? hc)
  rw [hw, ownerValue?, Recency.peek?_of_mem nodup hmem]
  rfl

end Cache.Store

/-! ### Reading -/

namespace Cache

theorem get_data {c : Cache} {now : Nat} {path : CachePath} {container : Container}
    (h : Recency.peek? c.store.containers (keyOf path) = some container) :
    (c.get now path true).1.data =
      (c.store.valueAt? path).map (Json.expand c.store.objects) := by
  simp only [get, h, Bool.or_true, if_true]

theorem get_data_eq_data? (c : Cache) (now : Nat) (path : CachePath) :
    (c.get now path true).1.data = c.store.data? path := by
  cases hc : Recency.peek? c.store.containers (keyOf path) with
  | none =>
      rw [Store.data?, Store.valueAt?_eq_descend?, hc]
      simp only [get, hc]
      rfl
  | some container => exact get_data hc

/-- A read shows the container of its path and the data at the path, and nothing else. -/
theorem get_congr {c d : Cache} {path : CachePath}
    (container : Recency.peek? d.store.containers (keyOf path) =
      Recency.peek? c.store.containers (keyOf path))
    (data : d.store.data? path = c.store.data? path) (now : Nat) (includeExpired : Bool) :
    (d.get now path includeExpired).1 = (c.get now path includeExpired).1 := by
  rw [Store.data?, Store.data?] at data
  simp only [get, container, data]
  split <;> rfl

end Cache
end LazyGraph
