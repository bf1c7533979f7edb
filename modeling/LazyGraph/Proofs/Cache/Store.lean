import LazyGraph.Cache.Store
import LazyGraph.Proofs.Json.Position
import LazyGraph.Proofs.Recency

/-!
The contents of a cache: what is dropped from them leaves the rest as it is, and the slot of a path
lies in a value that is not a reference.
-/
namespace LazyGraph.Cache.Store

/-! ### Dropping -/

/-- The second contents are the first with containers and placeholders dropped. -/
structure Shrinks (s t : Store) : Prop where
  containers : t.containers.Sublist s.containers
  objects : t.objects = s.objects
  placeholders : t.placeholders ⊆ s.placeholders

namespace Shrinks

theorem refl (s : Store) : Shrinks s s :=
  ⟨List.Sublist.refl _, rfl, List.Subset.refl _⟩

theorem trans {s t u : Store} (h : Shrinks s t) (h' : Shrinks t u) : Shrinks s u :=
  ⟨h'.containers.trans h.containers, h'.objects.trans h.objects,
    List.Subset.trans h'.placeholders h.placeholders⟩

end Shrinks

theorem shrinks_dropContainer (s : Store) (key : ContainerKey) : Shrinks s (s.dropContainer key) :=
  ⟨List.filter_sublist, rfl, List.filter_sublist.subset⟩

theorem shrinks_dropContainers (s : Store) (keys : List ContainerKey) :
    Shrinks s (keys.foldl dropContainer s) :=
  List.foldlRecOn keys _ (.refl s) fun t h key _ => h.trans (shrinks_dropContainer t key)

theorem victim?_eq_some {s : Store} {key : ContainerKey} (h : s.victim? = some key) :
    ∃ c, (key, c) ∈ s.containers ∧ c.lifetime.isWeak = true := by
  obtain ⟨⟨k, c⟩, hc, rfl⟩ := Option.map_eq_some_iff.mp h
  have hweak := List.find?_some hc
  exact ⟨c, List.mem_reverse.mp (List.mem_of_find?_eq_some hc), hweak⟩

/-- What is kept by dropping a container that may be dropped is there once there is room. -/
theorem enforceCapacity_induction {motive : Store → Prop} {s : Store} (start : motive s)
    (drop : ∀ (t : Store) (key : ContainerKey) (c : Container), motive t →
      (key, c) ∈ t.containers → c.lifetime.isWeak = true → motive (t.dropContainer key))
    (maxEntries : Nat) : motive (s.enforceCapacity maxEntries) := by
  rw [enforceCapacity]
  generalize s.containers.length - maxEntries = count
  induction count generalizing s with
  | zero => exact start
  | succ count ih =>
      rw [dropVictims]
      split
      · rename_i key hkey
        obtain ⟨c, hc, hweak⟩ := victim?_eq_some hkey
        exact ih (drop s key c start hc hweak)
      · exact start

theorem shrinks_enforceCapacity (s : Store) (maxEntries : Nat) :
    Shrinks s (s.enforceCapacity maxEntries) :=
  enforceCapacity_induction (.refl s)
    (fun t key _ h _ _ => h.trans (shrinks_dropContainer t key)) maxEntries

theorem shrinks_dropReplacedPlaceholders (s : Store) (touched : Touched) :
    Shrinks s (s.dropReplacedPlaceholders touched) :=
  ⟨List.Sublist.refl _, rfl, List.filter_sublist.subset⟩

theorem shrinks_dropPlaceholdersIn (s : Store) (slot : Slot) :
    Shrinks s (s.dropPlaceholdersIn slot) :=
  ⟨List.Sublist.refl _, rfl, List.filter_sublist.subset⟩

@[simp] theorem containers_markPlaceholder (s : Store) (slot : Slot) :
    (s.markPlaceholder slot).containers = s.containers := by
  rw [markPlaceholder]
  split <;> rfl

@[simp] theorem objects_markPlaceholder (s : Store) (slot : Slot) :
    (s.markPlaceholder slot).objects = s.objects := by
  rw [markPlaceholder]
  split <;> rfl

@[simp] theorem ownerValue?_markPlaceholder (s : Store) (slot : Slot) (owner : Owner) :
    (s.markPlaceholder slot).ownerValue? owner = s.ownerValue? owner := by
  rw [markPlaceholder]
  split <;> rfl

theorem mem_markPlaceholder {s : Store} {slot mark : Slot}
    (h : mark ∈ (s.markPlaceholder slot).placeholders) : mark = slot ∨ mark ∈ s.placeholders := by
  rw [markPlaceholder] at h
  split at h
  · exact .inr h
  · exact (List.mem_append.mp h).symm.imp_left List.mem_singleton.mp

/-! ### The values of owners -/

theorem ownerValue?_putContainer (s : Store) (key : ContainerKey) (c : Container) (o : Owner) :
    (s.putContainer key c).ownerValue? o =
      if o = .container key then some c.data else s.ownerValue? o := by
  cases o with
  | container other =>
      rw [putContainer, ownerValue?, Recency.peek?_put]
      by_cases h : other = key
      · rw [if_pos h, if_pos (congrArg _ h)]
        rfl
      · rw [if_neg h, if_neg fun e => h (Owner.container.inj e)]
        rfl
  | object id =>
      rw [if_neg fun e => Owner.noConfusion e]
      rfl

theorem ownerValue?_dropReplacedPlaceholders (s : Store) (touched : Touched) (o : Owner) :
    (s.dropReplacedPlaceholders touched).ownerValue? o = s.ownerValue? o := by
  cases o <;> rfl

theorem ownerValue?_withOwnerValue {s : Store} {owner : Owner} {u : Json}
    (h : s.ownerValue? owner = some u) (v : Json) (other : Owner) :
    (s.withOwnerValue owner v).ownerValue? other =
      if other = owner then some v else s.ownerValue? other := by
  cases owner with
  | container key =>
      obtain ⟨c, hc, rfl⟩ := Option.map_eq_some_iff.mp h
      cases other with
      | container key' =>
          rw [withOwnerValue, ownerValue?, Recency.peek?_update]
          by_cases hk : key' = key
          · rw [if_pos hk, if_pos (congrArg _ hk), hk, hc]
            rfl
          · rw [if_neg hk, if_neg fun e => hk (Owner.container.inj e)]
            rfl
      | object id => rfl
  | object id =>
      cases other with
      | container key => rfl
      | object id' =>
          rw [withOwnerValue, ownerValue?, Fields.get?_insert]
          by_cases hk : id' = id
          · rw [if_pos hk, if_pos (congrArg _ hk)]
          · rw [if_neg hk, if_neg fun e => hk (Owner.object.inj e)]
            rfl

@[simp] theorem placeholders_withOwnerValue (s : Store) (owner : Owner) (v : Json) :
    (s.withOwnerValue owner v).placeholders = s.placeholders := by
  cases owner <;> rfl

/-! ### Slots -/

theorem slotValue?_child (s : Store) (slot : Slot) (segment : String) :
    s.slotValue? { slot with path := slot.path ++ [segment] } =
      (s.slotValue? slot).bind (·.step? segment) := by
  rw [slotValue?, slotValue?, Option.bind_assoc]
  refine congrArg _ (funext fun v => ?_)
  rw [Json.walk?_append]
  exact congrArg _ (funext fun u => Json.walk?_singleton u segment)

/-- The value that a slot lies in. -/
def parent? (s : Store) (slot : Slot) : Option Json :=
  s.slotValue? { slot with path := slot.path.dropLast }

/-- The value that the next segment of a way down applies to, with its slot: the object of a
reference, and any other value itself. -/
def enter? (objects : ObjectTable) (v : Json) (slot : Slot) : Option (Json × Slot) :=
  match v.referenceId? with
  | some id => (Fields.get? objects id).map (·, { owner := .object id, path := [] })
  | none => some (v, slot)

theorem slotFrom?_singleton (objects : ObjectTable) (v : Json) (slot : Slot) (segment : String) :
    slotFrom? objects v slot [segment] =
      (enter? objects v slot).map fun q => { q.2 with path := q.2.path ++ [segment] } := by
  cases hr : v.referenceId? with
  | none =>
      simp only [slotFrom?, enter?, hr]
      rfl
  | some id =>
      simp only [slotFrom?, enter?, hr]
      cases Fields.get? objects id <;> rfl

theorem slotFrom?_cons (objects : ObjectTable) (v : Json) (slot : Slot) (segment next : String)
    (rest : List String) :
    slotFrom? objects v slot (segment :: next :: rest) =
      (enter? objects v slot).bind fun q => (q.1.step? segment).bind fun u =>
        slotFrom? objects u { q.2 with path := q.2.path ++ [segment] } (next :: rest) := by
  rw [slotFrom?]
  cases hr : v.referenceId? with
  | none =>
      simp only [enter?, hr]
      rfl
  | some id =>
      simp only [enter?, hr]
      cases Fields.get? objects id <;> rfl

theorem enter?_cases {objects : ObjectTable} {v u : Json} {slot t : Slot}
    (h : enter? objects v slot = some (u, t)) :
    (v.referenceId? = none ∧ u = v ∧ t = slot) ∨
    ∃ id, Fields.get? objects id = some u ∧ t = { owner := .object id, path := [] } := by
  rw [enter?] at h
  split at h
  · rename_i id _
    obtain ⟨w, hw, e⟩ := Option.map_eq_some_iff.mp h
    cases e
    exact .inr ⟨id, hw, rfl⟩
  · cases h
    exact .inl ⟨‹_›, rfl, rfl⟩

/-- The segments of a slot are those of the way down to it, and it lies where that starts or in an
object. -/
theorem slotFrom?_path {objects : ObjectTable} {v : Json} {slot t : Slot} {rest : List String}
    (hn : rest ≠ []) (h : slotFrom? objects v slot rest = some t) :
    t.path ≠ [] ∧ (∀ x ∈ t.path, x ∈ slot.path ∨ x ∈ rest) ∧
      (t.owner = slot.owner ∨ ∃ id, t.owner = .object id) := by
  induction rest generalizing v slot with
  | nil => exact absurd rfl hn
  | cons segment rest ih =>
      have hstep : ∀ {u q}, enter? objects v slot = some (u, q) →
          (∀ x ∈ q.path ++ [segment], x ∈ slot.path ∨ x ∈ segment :: rest) ∧
            (q.owner = slot.owner ∨ ∃ id, q.owner = .object id) := by
        intro u q hq
        rcases enter?_cases hq with ⟨_, _, rfl⟩ | ⟨id, _, rfl⟩
        · refine ⟨fun x hx => ?_, .inl rfl⟩
          refine (List.mem_append.mp hx).imp_right fun hx => ?_
          rw [List.mem_singleton.mp hx]
          exact List.mem_cons_self
        · refine ⟨fun x hx => .inr ?_, .inr ⟨id, rfl⟩⟩
          rw [List.mem_singleton.mp hx]
          exact List.mem_cons_self
      cases rest with
      | nil =>
          rw [slotFrom?_singleton] at h
          obtain ⟨⟨u, q⟩, hq, rfl⟩ := Option.map_eq_some_iff.mp h
          obtain ⟨hpath, howner⟩ := hstep hq
          exact ⟨List.append_ne_nil_of_right_ne_nil _ (List.cons_ne_nil _ _), hpath, howner⟩
      | cons next rest =>
          rw [slotFrom?_cons] at h
          obtain ⟨⟨u, q⟩, hq, h⟩ := Option.bind_eq_some_iff.mp h
          obtain ⟨w, _, h⟩ := Option.bind_eq_some_iff.mp h
          obtain ⟨hpath, howner⟩ := hstep hq
          obtain ⟨hne, hbelow, hlies⟩ := ih (List.cons_ne_nil next rest) h
          refine ⟨hne, fun x hx => ?_, ?_⟩
          · exact (hbelow x hx).elim (hpath x) fun hx => .inr (List.mem_cons_of_mem segment hx)
          · exact hlies.elim (fun e => howner.imp e.trans fun ⟨id, ho⟩ => ⟨id, e.trans ho⟩) .inr

theorem slot?_path {s : Store} {path : CachePath} {slot : Slot} (hn : path.rest ≠ [])
    (h : s.slot? path = some slot) : slot.path ≠ [] ∧ ∀ x ∈ slot.path, x ∈ path.rest := by
  obtain ⟨c, _, h⟩ := Option.bind_eq_some_iff.mp h
  obtain ⟨hne, hpath, _⟩ := slotFrom?_path hn h
  exact ⟨hne, fun x hx => (hpath x hx).resolve_left List.not_mem_nil⟩

theorem slot?_owner {s : Store} {path : CachePath} {slot : Slot} (h : s.slot? path = some slot) :
    slot.owner = .container (keyOf path) ∨ ∃ id, slot.owner = .object id := by
  obtain ⟨c, _, h⟩ := Option.bind_eq_some_iff.mp h
  cases hr : path.rest with
  | nil =>
      rw [hr] at h
      cases h
      exact .inl rfl
  | cons segment rest =>
      rw [hr] at h
      exact (slotFrom?_path (List.cons_ne_nil segment rest) h).2.2

/-- No object of the table is a reference. -/
def Direct (s : Store) : Prop :=
  ∀ id v, Fields.get? s.objects id = some v → v.referenceId? = none

theorem slotValue?_enter? {s : Store} (direct : s.Direct) {v u : Json} {slot t : Slot}
    (hv : s.slotValue? slot = some v) (h : enter? s.objects v slot = some (u, t)) :
    s.slotValue? t = some u ∧ u.referenceId? = none := by
  rcases enter?_cases h with ⟨hr, rfl, rfl⟩ | ⟨id, hu, rfl⟩
  · exact ⟨hv, hr⟩
  · refine ⟨?_, direct id u hu⟩
    rw [slotValue?, ownerValue?, hu]
    rfl

/-- A slot at the end of a way down lies in a value that is there and is not a reference. -/
theorem parent?_slotFrom? {s : Store} (direct : s.Direct) {v : Json} {slot t : Slot}
    {rest : List String} (hn : rest ≠ []) (hv : s.slotValue? slot = some v)
    (h : slotFrom? s.objects v slot rest = some t) :
    ∃ u, s.parent? t = some u ∧ u.referenceId? = none := by
  induction rest generalizing v slot with
  | nil => exact absurd rfl hn
  | cons segment rest ih =>
      cases rest with
      | nil =>
          rw [slotFrom?_singleton] at h
          obtain ⟨⟨u, q⟩, hq, rfl⟩ := Option.map_eq_some_iff.mp h
          obtain ⟨hu, hr⟩ := slotValue?_enter? direct hv hq
          refine ⟨u, ?_, hr⟩
          rw [parent?, List.dropLast_concat]
          exact hu
      | cons next rest =>
          rw [slotFrom?_cons] at h
          obtain ⟨⟨u, q⟩, hq, h⟩ := Option.bind_eq_some_iff.mp h
          obtain ⟨w, hw, h⟩ := Option.bind_eq_some_iff.mp h
          refine ih (List.cons_ne_nil next rest) ?_ h
          rw [slotValue?_child, (slotValue?_enter? direct hv hq).1]
          exact hw

theorem parent?_slot? {s : Store} (direct : s.Direct) {path : CachePath} {slot : Slot}
    (hn : path.rest ≠ []) (h : s.slot? path = some slot) :
    ∃ u, s.parent? slot = some u ∧ u.referenceId? = none := by
  obtain ⟨c, hc, h⟩ := Option.bind_eq_some_iff.mp h
  refine parent?_slotFrom? direct hn ?_ h
  rw [slotValue?, ownerValue?, hc]
  rfl

/-! ### Capacity -/

theorem dropContainer_length {s : Store} {key : ContainerKey} {c : Container}
    (h : (key, c) ∈ s.containers) :
    (s.dropContainer key).containers.length < s.containers.length :=
  List.length_filter_lt_length_iff_exists.mpr ⟨(key, c), h, by simp⟩

theorem victim?_eq_none {s : Store} :
    s.victim? = none ↔ ∀ p ∈ s.containers, p.2.lifetime.isWeak = false := by
  rw [victim?, Option.map_eq_none_iff, List.find?_eq_none]
  simp only [List.mem_reverse, Bool.not_eq_true]

/-- There is room for all containers, or none that may be dropped. -/
def Fits (maxEntries : Nat) (s : Store) : Prop :=
  s.containers.length ≤ maxEntries ∨ ∀ p ∈ s.containers, p.2.lifetime.isWeak = false

theorem fits_dropVictims {maxEntries : Nat} {s : Store} {count : Nat}
    (h : s.containers.length - count ≤ maxEntries) : Fits maxEntries (s.dropVictims count) := by
  induction count generalizing s with
  | zero => exact .inl h
  | succ count ih =>
      rw [dropVictims]
      split
      · rename_i key hkey
        obtain ⟨c, hc, _⟩ := victim?_eq_some hkey
        have hless := dropContainer_length hc
        exact ih (by omega)
      · rename_i hnone
        exact .inr (victim?_eq_none.mp hnone)

theorem fits_enforceCapacity (maxEntries : Nat) (s : Store) :
    Fits maxEntries (s.enforceCapacity maxEntries) :=
  fits_dropVictims (by omega)

/-- Where all containers fit, none is dropped. -/
theorem Fits.enforceCapacity {maxEntries : Nat} {s : Store} (h : Fits maxEntries s) :
    s.enforceCapacity maxEntries = s := by
  rw [Store.enforceCapacity]
  rcases h with h | h
  · rw [Nat.sub_eq_zero_of_le h, dropVictims]
  · cases s.containers.length - maxEntries with
    | zero => rfl
    | succ count => rw [dropVictims, victim?_eq_none.mpr h]

/-! ### Collecting -/

/-- The objects that the containers lead to. -/
def alive (s : Store) : ObjectTable := s.objects.filter fun p => s.reachable.contains p.1

/-- A collection changes nothing, or it drops objects with their placeholders. -/
theorem collectObjects_cases (s : Store) :
    (s.collectObjects = s ∧ s.alive = s.objects) ∨
      s.collectObjects =
        { s with
          objects := s.alive
          placeholders := s.placeholders.filter (keepsOwner s.alive ·.owner)
          metrics := { s.metrics with
            collected := s.metrics.collected + (s.objects.length - s.alive.length) } } := by
  rw [collectObjects]
  split
  · have hnone : s.objects = [] := List.isEmpty_iff.mp ‹_›
    exact .inl ⟨rfl, by rw [alive, hnone]; rfl⟩
  · dsimp only
    split
    · rename_i hcollected
      have hkept : s.alive = s.objects :=
        List.filter_sublist.eq_of_length_le (Nat.sub_eq_zero_iff_le.mp hcollected)
      exact .inl ⟨congrArg (fun objects => { s with objects }) hkept, hkept⟩
    · exact .inr rfl

theorem containers_collectObjects (s : Store) : s.collectObjects.containers = s.containers := by
  rcases s.collectObjects_cases with ⟨h, _⟩ | h <;> rw [h]

theorem containers_sweep_sublist (s : Store) (now : Nat) :
    (s.sweep now).containers.Sublist s.containers := by
  rw [sweep, containers_collectObjects]
  exact (shrinks_dropContainers s _).containers

theorem objects_collectObjects (s : Store) : s.collectObjects.objects = s.alive := by
  rcases s.collectObjects_cases with ⟨h, halive⟩ | h
  · rw [h, halive]
  · rw [h]

theorem placeholders_collectObjects_sublist (s : Store) :
    s.collectObjects.placeholders.Sublist s.placeholders := by
  rcases s.collectObjects_cases with ⟨h, _⟩ | h <;> rw [h]
  exact List.filter_sublist

theorem get?_alive (s : Store) (id : String) :
    Fields.get? s.alive id = if id ∈ s.reachable then Fields.get? s.objects id else none := by
  have hfilter := Fields.get?_filter s.reachable.contains s.objects id
  simp only [List.contains_iff_mem] at hfilter
  exact hfilter

/-- An object that the containers lead to is not collected. -/
theorem get?_collectObjects {s : Store} {id : String} (h : id ∈ s.reachable) :
    Fields.get? s.collectObjects.objects id = Fields.get? s.objects id := by
  rw [objects_collectObjects, get?_alive, if_pos h]

/-- An object that is there after a collection was there before. -/
theorem get?_of_collectObjects {s : Store} {id : String} {v : Json}
    (h : Fields.get? s.collectObjects.objects id = some v) :
    id ∈ s.reachable ∧ Fields.get? s.objects id = some v := by
  rw [objects_collectObjects, get?_alive] at h
  exact Option.ite_none_right_eq_some.mp h

end LazyGraph.Cache.Store
