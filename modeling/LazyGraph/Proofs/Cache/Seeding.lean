import LazyGraph.Proofs.Cache.Order
import LazyGraph.Proofs.Cache.RoundTrip
import LazyGraph.Proofs.Cache.Standing
import LazyGraph.Proofs.Selection.Tree

/-!
Reads and placeholders leave the snapshot of a cache as it is. A placeholder is stripped together
with the others, in whatever order they were marked, and what is stripped of it is what was there
before. Only containers that have to make room are missing afterwards.
-/
namespace LazyGraph

namespace Recency

variable {κ α : Type} [DecidableEq κ] {l : Recency κ α}

/-- One key has one entry at most. -/
theorem length_le_erase (hn : (keys l).Nodup) (key : κ) : l.length ≤ (erase l key).length + 1 := by
  induction l with
  | nil => exact Nat.zero_le _
  | cons p l ih =>
      obtain ⟨hp, hrest⟩ := List.nodup_cons.mp hn
      by_cases hkey : p.1 = key
      · have hall : erase l key = l := by
          apply List.filter_eq_self.mpr
          intro q hq
          simp only [ne_eq, decide_eq_true_eq]
          intro he
          exact hp (List.mem_map.mpr ⟨q, hq, he.trans hkey.symm⟩)
        rw [erase, List.filter_cons_of_neg (by simpa using hkey), ← erase, hall]
        exact Nat.le_refl _
      · rw [erase, List.filter_cons_of_pos (by simpa using hkey), ← erase]
        exact Nat.succ_le_succ (ih hrest)

theorem length_le_touch (hn : (keys l).Nodup) (key : κ) : l.length ≤ (touch l key).length := by
  rw [touch]
  split
  · exact length_le_erase hn key
  · exact Nat.le_refl _

end Recency

namespace Cache

namespace Store

/-! ### What a snapshot shows -/

/-- The data that a snapshot shows of a container, unless it has expired. -/
def shown? (s : Store) (now : Nat) (key : ContainerKey) : Option Json :=
  (Recency.peek? s.containers key).bind fun c =>
    if c.lifetime.isExpired now then none else s.stripped? (.container key)

variable {s t : Store} {now : Nat}

theorem get?_rootFields (hn : (Recency.keys s.containers).Nodup) (root : Operation)
    (field : String) : Fields.get? (s.rootFields now root) field = s.shown? now { root, field } := by
  apply Option.ext
  intro v
  rw [get?_rootFields_eq_some_iff hn, shown?, Option.bind_eq_some_iff]
  constructor
  · rintro ⟨c, hc, he, hv⟩
    refine ⟨c, Recency.peek?_of_mem hn hc, ?_⟩
    rw [if_neg (by simp [he])]
    exact hv
  · rintro ⟨c, hc, hv⟩
    split at hv
    · cases hv
    · exact ⟨c, Recency.mem_of_peek? hc, Bool.not_eq_true _ ▸ ‹¬ _›, hv⟩

/-- A snapshot is told by what it shows of the containers and of the objects. -/
theorem snapshot_congr (hs : (Recency.keys s.containers).Nodup)
    (ht : (Recency.keys t.containers).Nodup) (hshown : ∀ key, t.shown? now key = s.shown? now key)
    (hkeys : Fields.keys t.objects = Fields.keys s.objects)
    (hobjects : ∀ id, t.stripped? (.object id) = s.stripped? (.object id)) :
    t.snapshot now = s.snapshot now := by
  have hroots : ∀ root, t.rootFields now root = s.rootFields now root := by
    intro root
    apply (t.rootFields_ascending now root).ext (s.rootFields_ascending now root)
    intro field
    rw [get?_rootFields ht, get?_rootFields hs, hshown]
  have hstripped : t.strippedObjects = s.strippedObjects := by
    have hform : ∀ u : Store, u.strippedObjects = (Fields.keys u.objects).filterMap
        fun id => (u.stripped? (.object id)).map (id, ·) := by
      intro u
      rw [strippedObjects, Fields.keys, List.filterMap_map]
      rfl
    rw [hform, hform, hkeys]
    simp only [hobjects]
  have hempty : t.objects.isEmpty = s.objects.isEmpty := by
    rw [← List.isEmpty_map (f := Prod.fst), ← List.isEmpty_map (f := Prod.fst)]
    exact congrArg List.isEmpty hkeys
  simp only [snapshot, hroots, hstripped, hempty]

/-! ### Marks -/

/-- The ways down to the placeholders in the value of an owner. -/
def marks (s : Store) (owner : Owner) : List (List String) :=
  (s.placeholders.filter (·.owner = owner)).map (·.path)

theorem stripped?_eq (s : Store) (owner : Owner) :
    s.stripped? owner = if [] ∈ s.marks owner then none
      else (s.ownerValue? owner).map fun v => (s.marks owner).foldl Json.removeAt v := by
  simp only [stripped?, marks, List.contains_iff_mem]
  rfl

/-- Placeholders are a set: the order in which they are held does not show. -/
theorem stripped?_perm (ordered : s.InOrder) {placeholders : List Slot}
    (perm : placeholders.Perm s.placeholders) (owner : Owner) :
    ({ s with placeholders } : Store).stripped? owner = s.stripped? owner := by
  have hmarks : (({ s with placeholders } : Store).marks owner).Perm (s.marks owner) :=
    (perm.filter _).map _
  rw [stripped?_eq, stripped?_eq]
  refine if_congr hmarks.mem_iff rfl ?_
  show (s.ownerValue? owner).map _ = _
  cases hv : s.ownerValue? owner with
  | none => rfl
  | some v => exact congrArg some (Json.foldl_removeAt_perm (ordered.ownerValue? hv) hmarks)

theorem snapshot_perm (ordered : s.InOrder) (hn : (Recency.keys s.containers).Nodup)
    {placeholders : List Slot} (perm : placeholders.Perm s.placeholders) (now : Nat) :
    ({ s with placeholders } : Store).snapshot now = s.snapshot now := by
  have hstripped := stripped?_perm ordered perm
  refine snapshot_congr hn hn (fun key => ?_) rfl fun id => hstripped (.object id)
  simp only [shown?, hstripped]

theorem mem_marks {slot : Slot} : slot.path ∈ s.marks slot.owner ↔ slot ∈ s.placeholders := by
  rw [marks, List.mem_map]
  constructor
  · rintro ⟨other, hother, hpath⟩
    obtain ⟨hmem, howner⟩ := List.mem_filter.mp hother
    obtain ⟨owner, path⟩ := slot
    obtain ⟨owner', path'⟩ := other
    obtain rfl : path' = path := hpath
    obtain rfl : owner' = owner := of_decide_eq_true howner
    exact hmem
  · intro hmem
    exact ⟨slot, List.mem_filter.mpr ⟨hmem, decide_eq_true rfl⟩, rfl⟩

theorem marks_markPlaceholder (s : Store) (slot : Slot) (owner : Owner) :
    (s.markPlaceholder slot).marks owner =
      if owner = slot.owner ∧ slot ∉ s.placeholders then s.marks owner ++ [slot.path]
      else s.marks owner := by
  rw [markPlaceholder]
  by_cases hmem : slot ∈ s.placeholders
  · rw [if_pos (List.contains_iff_mem.mpr hmem), if_neg fun h => h.2 hmem]
  · rw [if_neg (mt List.contains_iff_mem.mp hmem)]
    by_cases howner : owner = slot.owner
    · rw [if_pos ⟨howner, hmem⟩, marks, List.filter_append, List.map_append]
      simp [marks, howner]
    · rw [if_neg fun h => howner h.1, marks, List.filter_append, List.map_append]
      simp [marks, Ne.symm howner]

/-! ### A placeholder below a root field -/

/-- The last segment of a path is that of its slot. -/
theorem slotFrom?_getLast? {objects : ObjectTable} {v : Json} {slot last : Slot}
    {rest : List String} (hne : rest ≠ []) (h : slotFrom? objects v slot rest = some last) :
    last.path.getLast? = rest.getLast? := by
  induction rest generalizing v slot with
  | nil => exact absurd rfl hne
  | cons segment rest ih =>
      cases rest with
      | nil =>
          rw [slotFrom?_singleton] at h
          obtain ⟨q, _, rfl⟩ := Option.map_eq_some_iff.mp h
          exact List.getLast?_concat
      | cons next rest =>
          rw [slotFrom?_cons] at h
          obtain ⟨q, _, h⟩ := Option.bind_eq_some_iff.mp h
          obtain ⟨u, _, h⟩ := Option.bind_eq_some_iff.mp h
          rw [List.getLast?_cons_cons]
          exact ih (List.cons_ne_nil next rest) h

section Below

variable {slot : Slot} {value : Json} (ordered : s.InOrder) (simple : value.InOrder)
  (placed : s.writeSlot? slot value = some t) (below : slot.path ≠ [])
  (absent : s.slotValue? slot = none)
  (last : ∀ segment ∈ slot.path.getLast?, Text.index? segment = none)

include ordered simple placed below absent last

/-- What is stripped of the placeholder is what was stripped of the value before. -/
theorem stripped?_seeded (owner : Owner) :
    (t.markPlaceholder slot).stripped? owner = s.stripped? owner := by
  obtain ⟨v, hv, hplaced⟩ := Option.bind_eq_some_iff.mp placed
  obtain ⟨w, hw, ht⟩ := Option.bind_eq_some_iff.mp hplaced
  obtain rfl := Option.some.inj ht
  have hplaceholders : (s.withOwnerValue slot.owner w).placeholders = s.placeholders := by
    cases slot.owner <;> rfl
  have hmarks := marks_markPlaceholder (s.withOwnerValue slot.owner w) slot owner
  have hbefore : (s.withOwnerValue slot.owner w).marks owner = s.marks owner := by
    rw [marks, marks, hplaceholders]
  rw [hbefore, hplaceholders] at hmarks
  have hvalue := ownerValue?_withOwnerValue hv w owner
  by_cases howner : owner = slot.owner
  · subst howner
    rw [if_pos rfl] at hvalue
    have hv' := ordered.ownerValue? hv
    have hwritten := hv'.writeAt? simple hw
    have habsent : v.walk? slot.path = none := by
      rw [slotValue?, hv] at absent
      exact absent
    have hleft := Json.removeAt_of_writeAt? hv' hw below habsent last
    have hnothing := Json.removeAt_of_walk?_eq_none habsent
    rw [stripped?_eq, stripped?_eq, ownerValue?_markPlaceholder, hvalue, hv, Option.map_some,
      Option.map_some]
    by_cases hmem : slot ∈ s.placeholders
    · rw [if_neg fun h => h.2 hmem] at hmarks
      have htwice : (w.removeAt slot.path).removeAt slot.path = w.removeAt slot.path := by
        rw [hleft, hnothing]
      rw [hmarks, ← Json.foldl_removeAt_of_mem hwritten (mem_marks.mpr hmem) htwice, hleft]
    · rw [if_pos ⟨rfl, hmem⟩] at hmarks
      rw [hmarks, List.foldl_append, List.foldl_cons, List.foldl_nil,
        ← Json.foldl_removeAt_comm hwritten, hleft]
      simp only [List.mem_append, List.mem_singleton, Ne.symm below, or_false]
  · rw [if_neg fun h => howner h.1] at hmarks
    rw [if_neg howner] at hvalue
    rw [stripped?_eq, stripped?_eq, ownerValue?_markPlaceholder, hvalue, hmarks]

/-- A placeholder below a root field is not shown. -/
theorem snapshot_seeded (nodup : (Recency.keys s.containers).Nodup)
    (ascending : Fields.Ascending s.objects) (now : Nat) :
    (t.markPlaceholder slot).snapshot now = s.snapshot now := by
  have hstripped := stripped?_seeded ordered simple placed below absent last
  obtain ⟨v, hv, hplaced⟩ := Option.bind_eq_some_iff.mp placed
  obtain ⟨w, _, ht⟩ := Option.bind_eq_some_iff.mp hplaced
  obtain rfl := Option.some.inj ht
  have hpeek : ∀ key, (Recency.peek? (s.withOwnerValue slot.owner w).containers key).map
      (·.lifetime) = (Recency.peek? s.containers key).map (·.lifetime) := by
    intro key
    cases slot.owner with
    | object id => rfl
    | container other =>
        rw [withOwnerValue, Recency.peek?_update]
        split
        · rw [Option.map_map]
          rfl
        · rfl
  have hkeys : Fields.keys (s.withOwnerValue slot.owner w).objects = Fields.keys s.objects := by
    cases ho : slot.owner with
    | container key => rfl
    | object id =>
        rw [ho] at hv
        exact ascending.keys_insert_of_mem (Fields.get?_isSome_iff.mp (Option.isSome_of_eq_some hv)) w
  apply snapshot_congr nodup
  · rw [containers_markPlaceholder]
    cases slot.owner with
    | object id => exact nodup
    | container key =>
        rw [withOwnerValue, Recency.keys_update]
        exact nodup
  · intro key
    rw [shown?, shown?, hstripped, containers_markPlaceholder]
    have hkey := hpeek key
    cases hc : Recency.peek? s.containers key with
    | none =>
        rw [hc, Option.map_none, Option.map_eq_none_iff] at hkey
        rw [hkey]
    | some c =>
        rw [hc, Option.map_some, Option.map_eq_some_iff] at hkey
        obtain ⟨d, hd, hlifetime⟩ := hkey
        rw [hd, Option.bind_some, Option.bind_some, hlifetime]
  · rw [objects_markPlaceholder, hkeys]
  · exact fun id => hstripped (.object id)

end Below

/-! ### A placeholder at a root field -/

/-- A container that is a placeholder as a whole is not shown. -/
theorem snapshot_put (nodup : (Recency.keys s.containers).Nodup) {key : ContainerKey}
    (absent : Recency.contains s.containers key = false) (c : Container) (now : Nat) :
    (Store.markPlaceholder { s with containers := Recency.put s.containers key c }
      { owner := .container key, path := [] }).snapshot now = s.snapshot now := by
  let put : Store := { s with containers := Recency.put s.containers key c }
  let mark : Slot := { owner := .container key, path := [] }
  have hmarks := marks_markPlaceholder put mark
  have hother : ∀ owner, owner ≠ mark.owner →
      (put.markPlaceholder mark).stripped? owner = s.stripped? owner := by
    intro owner howner
    have hsame := (hmarks owner).trans (if_neg fun h => howner h.1)
    have hvalue : put.ownerValue? owner = s.ownerValue? owner := by
      cases owner with
      | object id => rfl
      | container other =>
          have hne : other ≠ key := fun e => howner (congrArg Owner.container e)
          rw [ownerValue?, ownerValue?, Recency.peek?_put, if_neg hne]
    rw [stripped?_eq, stripped?_eq, hsame, ownerValue?_markPlaceholder, hvalue]
    rfl
  have hself : (put.markPlaceholder mark).stripped? mark.owner = none := by
    rw [stripped?_eq, if_pos]
    have hmem : mark ∈ (put.markPlaceholder mark).placeholders := by
      rw [markPlaceholder]
      split
      · exact List.contains_iff_mem.mp ‹_›
      · exact List.mem_append_right _ List.mem_cons_self
    exact mem_marks.mpr hmem
  apply snapshot_congr nodup
  · rw [containers_markPlaceholder]
    exact Recency.nodup_keys_put nodup key c
  · intro other
    rw [shown?, shown?, containers_markPlaceholder, Recency.peek?_put]
    by_cases hkey : other = key
    · subst hkey
      have hnone : Recency.peek? s.containers other = none := by
        rw [Recency.contains] at absent
        exact Option.not_isSome_iff_eq_none.mp (by rw [absent]; exact Bool.false_ne_true)
      rw [if_pos rfl, Option.bind_some, hself, hnone, ite_self]
      rfl
    · rw [if_neg hkey, hother _ fun e => hkey (Owner.container.inj e)]
  · rw [objects_markPlaceholder]
  · intro id
    apply hother
    intro howner
    cases howner

/-! ### Room -/

/-- The containers that are there, and those that were dropped before. -/
def arrivals (s : Store) : Nat := s.containers.length + s.metrics.evictions

theorem arrivals_dropContainer (nodup : (Recency.keys s.containers).Nodup) (key : ContainerKey) :
    s.arrivals ≤ (s.dropContainer key).arrivals := by
  have hlength := Recency.length_le_erase nodup key
  simp only [arrivals, dropContainer]
  omega

theorem metrics_markPlaceholder (s : Store) (slot : Slot) :
    (s.markPlaceholder slot).metrics = s.metrics := by
  rw [markPlaceholder]
  split <;> rfl

/-- A value that is put into a slot moves no container. -/
theorem unmoved_writeSlot? {slot : Slot} {value : Json} (h : s.writeSlot? slot value = some t) :
    t.containers.length = s.containers.length ∧ t.metrics = s.metrics := by
  obtain ⟨v, _, h⟩ := Option.bind_eq_some_iff.mp h
  obtain ⟨w, _, h⟩ := Option.bind_eq_some_iff.mp h
  obtain rfl := Option.some.inj h
  cases slot.owner with
  | container key => exact ⟨List.length_map _, rfl⟩
  | object id => exact ⟨rfl, rfl⟩

/-- Dropping for want of room forgets no arrival, and drops nothing while all arrivals fit. -/
theorem arrivals_enforceCapacity (nodup : (Recency.keys s.containers).Nodup) (maxEntries : Nat) :
    s.arrivals ≤ (s.enforceCapacity maxEntries).arrivals ∧
      ((s.enforceCapacity maxEntries).arrivals ≤ s.metrics.evictions + maxEntries →
        s.enforceCapacity maxEntries = s) := by
  have hkept : (Recency.keys (s.enforceCapacity maxEntries).containers).Nodup ∧
      s.arrivals ≤ (s.enforceCapacity maxEntries).arrivals := by
    refine enforceCapacity_induction
      (motive := fun t => (Recency.keys t.containers).Nodup ∧ s.arrivals ≤ t.arrivals)
      ⟨nodup, Nat.le_refl _⟩ ?_ maxEntries
    rintro t key - ⟨hnodup, hle⟩ - -
    exact ⟨Recency.nodup_keys_erase hnodup key, hle.trans (arrivals_dropContainer hnodup key)⟩
  refine ⟨hkept.2, fun hroom => ?_⟩
  have hfits : s.containers.length ≤ maxEntries := by
    have hall := hkept.2.trans hroom
    rw [arrivals] at hall
    omega
  exact Fits.enforceCapacity (.inl hfits)

end Store

/-! ### Reads and placeholders -/

/-- The second cache comes from the first one by reads and placeholders. Where all containers find
room, the snapshot is the same. -/
structure Undisturbed (now : Nat) (c d : Cache) : Prop where
  options : d.options = c.options
  sound : d.store.Sound c.options now
  ordered : d.store.InOrder
  arrivals : c.store.arrivals ≤ d.store.arrivals
  shown : d.store.arrivals ≤ c.metrics.evictions + c.options.maxEntries →
    d.metrics.evictions = c.metrics.evictions ∧ d.snapshot now = c.snapshot now

variable {c d e : Cache} {now : Nat}

theorem Undisturbed.refl (sound : c.store.Sound c.options now) (ordered : c.store.InOrder) :
    c.Undisturbed now c :=
  ⟨rfl, sound, ordered, Nat.le_refl _, fun _ => ⟨rfl, rfl⟩⟩

theorem Undisturbed.trans (h : c.Undisturbed now d) (h' : d.Undisturbed now e) :
    c.Undisturbed now e where
  options := h'.options.trans h.options
  sound := h.options ▸ h'.sound
  ordered := h'.ordered
  arrivals := h.arrivals.trans h'.arrivals
  shown hroom := by
    obtain ⟨hevictions, hsnapshot⟩ := h.shown (h'.arrivals.trans hroom)
    rw [← hevictions, ← h.options] at hroom
    obtain ⟨hevictions', hsnapshot'⟩ := h'.shown hroom
    exact ⟨hevictions'.trans hevictions, hsnapshot'.trans hsnapshot⟩

/-- A placeholder may be put at the path: it would be a member of an object, or something stands
there already. -/
def Plantable (c : Cache) (path : CachePath) : Prop :=
  ∀ segment ∈ path.rest.getLast?, ∀ i, Text.index? segment = some i →
    (c.store.valueAt? path).isSome

theorem Plantable.read {path : CachePath} (h : c.Plantable path) (other : CachePath) :
    (c.read other).2.Plantable path := by
  intro segment hsegment i hi
  rw [(alike_read c other).valueAt?]
  exact h segment hsegment i hi

theorem plantable_root (c : Cache) (root : Operation) (field : String) :
    c.Plantable { root, field } := by
  intro segment hsegment
  cases hsegment

/-- A member of an object may be put anywhere. -/
theorem plantable_child (c : Cache) (path : CachePath) {segment : String}
    (h : Text.index? segment = none) : c.Plantable (path.child segment) := by
  intro last hlast i hi
  rw [CachePath.child, List.getLast?_concat] at hlast
  obtain rfl := Option.some.inj hlast
  rw [h] at hi
  cases hi

/-- An item that is there has its place. -/
theorem plantable_item (c : Cache) {path : CachePath} {items : List Json}
    (h : (c.read path).1.value = some (.array items)) {position : Nat}
    (hlt : position < items.length) : c.Plantable (path.child (toString position)) := by
  intro last hlast i hi
  rw [CachePath.child, List.getLast?_concat] at hlast
  obtain rfl := Option.some.inj hlast
  obtain rfl := Selection.index?_toString hi
  have hitem : Json.step? (.array items) (toString i) = items[i]? := by
    rw [Json.step?, hi]
    rfl
  rw [read_value] at h
  rw [Store.valueAt?_child, h, Option.bind_some, hitem, List.getElem?_eq_getElem hlt]
  rfl

theorem evictions_record (m : Metrics) (hit : Bool) : (m.record hit).evictions = m.evictions := by
  rw [Metrics.record]
  split <;> rfl

theorem undisturbed_read (sound : c.store.Sound c.options now) (ordered : c.store.InOrder)
    (path : CachePath) : c.Undisturbed now (c.read path).2 := by
  have hsound : (c.read path).2.store.Sound c.options now :=
    step_sound sound (c.act_step now (.read path)).2
  have hobjects : (c.read path).2.store.objects = c.store.objects := (alike_read c path).objects
  have hmarks : (c.read path).2.store.placeholders = c.store.placeholders := by
    rw [read]
    split <;> rfl
  have hevictions : (c.read path).2.metrics.evictions = c.metrics.evictions := by
    rw [read]
    split
    · exact evictions_record c.store.metrics false
    · exact evictions_record c.store.metrics _
  have hpeek : ∀ key, Recency.peek? (c.read path).2.store.containers key =
      Recency.peek? c.store.containers key := (alike_read c path).containers
  have hvalue : ∀ owner, (c.read path).2.store.ownerValue? owner = c.store.ownerValue? owner := by
    intro owner
    cases owner with
    | container key => rw [Store.ownerValue?, Store.ownerValue?, hpeek]
    | object id => rw [Store.ownerValue?, Store.ownerValue?, hobjects]
  have hstripped : ∀ owner, (c.read path).2.store.stripped? owner = c.store.stripped? owner := by
    intro owner
    rw [Store.stripped?_eq, Store.stripped?_eq, Store.marks, Store.marks, hmarks, hvalue]
  have hlength : c.store.containers.length ≤ (c.read path).2.store.containers.length := by
    rw [read]
    split
    · exact Nat.le_refl _
    · exact Recency.length_le_touch sound.nodup _
  refine ⟨(alike_read c path).options, hsound, ⟨fun p hp => ?_, hobjects ▸ ordered.objects⟩, ?_, ?_⟩
  · have hdata : c.store.ownerValue? (.container p.1) = some p.2.data := by
      rw [← hvalue, Store.ownerValue?, Recency.peek?_of_mem hsound.nodup hp]
      rfl
    exact ordered.ownerValue? hdata
  · exact Nat.add_le_add hlength (Nat.le_of_eq hevictions.symm)
  · intro _
    refine ⟨hevictions, Store.snapshot_congr sound.nodup hsound.nodup (fun key => ?_)
      (congrArg Fields.keys hobjects) fun id => hstripped (.object id)⟩
    rw [Store.shown?, Store.shown?, hpeek, hstripped]

/-- A placeholder is put at a root field. -/
theorem undisturbed_seedRoot (sound : c.store.Sound c.options now) (ordered : c.store.InOrder)
    {path : CachePath} (root : path.rest = []) {value : Json} (simple : value.InOrder) :
    c.Undisturbed now (c.seed now path value).2 := by
  have hsound : (c.seed now path value).2.store.Sound c.options now :=
    step_sound sound (c.act_step now (.seed path value)).2
  revert hsound
  simp only [seed, root]
  split
  · exact fun _ => .refl sound ordered
  · rename_i habsent
    rw [Bool.not_eq_true] at habsent
    intro hsound
    let container : Container :=
      { data := value
        lifetime := .ofRoot path.root c.options.maxAge c.options.staleWindow now }
    let marked : Store := Store.markPlaceholder
      { c.store with containers := Recency.put c.store.containers (keyOf path) container }
      { owner := .container (keyOf path), path := [] }
    have hput : marked.InOrder := (ordered.put (keyOf path) container simple).markPlaceholder _
    have hnodup : (Recency.keys marked.containers).Nodup := by
      rw [Store.containers_markPlaceholder]
      exact Recency.nodup_keys_put sound.nodup _ _
    have hfresh : Recency.erase c.store.containers (keyOf path) = c.store.containers := by
      apply List.filter_eq_self.mpr
      intro p hp
      apply decide_eq_true
      intro hkey
      rw [Recency.contains, ← hkey, Recency.peek?_of_mem sound.nodup hp] at habsent
      cases habsent
    have hlength : marked.containers.length = c.store.containers.length + 1 := by
      rw [Store.containers_markPlaceholder, Recency.put, hfresh, List.length_cons]
    have hmetrics : marked.metrics = c.store.metrics := Store.metrics_markPlaceholder _ _
    obtain ⟨harrivals, hroom⟩ := marked.arrivals_enforceCapacity hnodup c.options.maxEntries
    refine ⟨rfl, hsound, hput.shrinks (Store.shrinks_enforceCapacity _ _), ?_, ?_⟩
    · refine Nat.le_trans ?_ harrivals
      rw [Store.arrivals, Store.arrivals, hlength, hmetrics]
      omega
    · intro hall
      have hkept : marked.enforceCapacity c.options.maxEntries = marked := hroom (hmetrics ▸ hall)
      constructor
      · exact congrArg Metrics.evictions ((congrArg Store.metrics hkept).trans hmetrics)
      · exact (congrArg (Store.snapshot · now) hkept).trans
          (Store.snapshot_put sound.nodup habsent container now)

/-- A placeholder is put below a root field. -/
theorem undisturbed_seedBelow (sound : c.store.Sound c.options now) (ordered : c.store.InOrder)
    {path : CachePath} (below : path.rest ≠ []) (plantable : c.Plantable path) {value : Json}
    (simple : value.InOrder) : c.Undisturbed now (c.seed now path value).2 := by
  have hsound : (c.seed now path value).2.store.Sound c.options now :=
    step_sound sound (c.act_step now (.seed path value)).2
  revert hsound
  rw [seed]
  split
  · exact absurd ‹_› below
  cases hslot : c.store.slot? path with
  | none => exact fun _ => .refl sound ordered
  | some slot =>
      simp only
      split
      · exact fun _ => .refl sound ordered
      cases hplaced : c.store.writeSlot? slot value with
      | none => exact fun _ => .refl sound ordered
      | some t =>
          rename_i habsent
          have habsent : c.store.slotValue? slot = none := Option.not_isSome_iff_eq_none.mp habsent
          have hlast : ∀ segment ∈ slot.path.getLast?, Text.index? segment = none := by
            obtain ⟨container, _, hway⟩ := Option.bind_eq_some_iff.mp hslot
            rw [Store.slotFrom?_getLast? below hway]
            intro segment hsegment
            rw [Option.eq_none_iff_forall_not_mem]
            intro i hi
            have hthere := plantable segment hsegment i hi
            rw [Store.valueAt?, hslot, Option.bind_some, habsent] at hthere
            cases hthere
          intro hsound
          obtain ⟨hlength, hmetrics⟩ := Store.unmoved_writeSlot? hplaced
          refine ⟨rfl, hsound, (ordered.writeSlot? simple hplaced).markPlaceholder slot, ?_, ?_⟩
          · rw [Store.arrivals, Store.arrivals, Store.metrics_markPlaceholder,
              Store.containers_markPlaceholder, hmetrics, hlength]
          · intro _
            refine ⟨congrArg Metrics.evictions ((t.metrics_markPlaceholder slot).trans hmetrics), ?_⟩
            exact Store.snapshot_seeded ordered simple hplaced (Store.slot?_path below hslot).1
              habsent hlast sound.nodup sound.ascending now

/-- What is put where nothing is stored is not shown. -/
theorem undisturbed_seed (sound : c.store.Sound c.options now) (ordered : c.store.InOrder)
    {path : CachePath} (plantable : c.Plantable path) {value : Json} (simple : value.InOrder) :
    c.Undisturbed now (c.seed now path value).2 := by
  by_cases root : path.rest = []
  · exact undisturbed_seedRoot sound ordered root simple
  · exact undisturbed_seedBelow sound ordered root plantable simple

end Cache
end LazyGraph
