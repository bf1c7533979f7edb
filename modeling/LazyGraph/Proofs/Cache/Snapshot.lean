import LazyGraph.Cache
import LazyGraph.Proofs.Cache.Store

/-!
Snapshots: which data of a cache they hold, when they are valid, and what restoring a valid one
puts into a cache.
-/
namespace LazyGraph

namespace Snapshot

/-- A snapshot is valid exactly if it has a root and each of its references leads to an object. -/
theorem validate_eq_ok_iff {s : Snapshot} :
    s.validate = .ok () ↔ (∃ op, (s.root op).isSome) ∧
      ∀ v ∈ s.contents, ∀ id ∈ v.references, id ∈ Fields.keys (s.objects.getD []) := by
  have hroot : (Operation.all.all fun op => (s.root op).isNone) = true ↔
      ¬ ∃ op, (s.root op).isSome := by
    rw [List.all_eq_true]
    constructor
    · rintro h ⟨op, hop⟩
      have hm : op ∈ Operation.all := by cases op <;> decide
      have hnone := h op hm
      rw [Option.isNone_iff_eq_none] at hnone
      rw [hnone] at hop
      cases hop
    · intro h op _
      rw [Option.isNone_iff_eq_none, ← Option.not_isSome_iff_eq_none]
      exact fun hop => h ⟨op, hop⟩
  rw [validate]
  split
  · rename_i h
    exact ⟨nofun, fun hs => absurd hs.1 (hroot.mp h)⟩
  · rename_i h
    have hsome : ∃ op, (s.root op).isSome :=
      Classical.byContradiction fun hn => h (hroot.mpr hn)
    dsimp only
    split
    · rename_i id hid
      refine ⟨nofun, fun hs => ?_⟩
      obtain ⟨v, hv, hm⟩ := List.mem_flatMap.mp (List.mem_of_find?_eq_some hid)
      have hk := Fields.contains_iff.mpr (hs.2 v hv id hm)
      have hfind := List.find?_some hid
      rw [hk] at hfind
      cases hfind
    · rename_i hnone
      refine ⟨fun _ => ⟨hsome, fun v hv id hid => ?_⟩, fun _ => rfl⟩
      have hfind := List.find?_eq_none.mp hnone id (List.mem_flatMap.mpr ⟨v, hv, hid⟩)
      exact Fields.contains_iff.mp (by simpa using hfind)

theorem mem_contents {s : Snapshot} {v : Json} :
    v ∈ s.contents ↔ (∃ op field, (field, v) ∈ (s.root op).getD []) ∨
      ∃ id, (id, v) ∈ s.objects.getD [] := by
  rw [contents, List.mem_append, List.mem_flatMap]
  refine or_congr ?_ ?_
  · constructor
    · rintro ⟨op, _, hv⟩
      obtain ⟨p, hp, rfl⟩ := List.mem_map.mp hv
      exact ⟨op, p.1, hp⟩
    · rintro ⟨op, field, hp⟩
      exact ⟨op, by cases op <;> decide, List.mem_map.mpr ⟨_, hp, rfl⟩⟩
  · constructor
    · intro hv
      obtain ⟨p, hp, rfl⟩ := List.mem_map.mp hv
      exact ⟨p.1, hp⟩
    · rintro ⟨id, hp⟩
      exact List.mem_map.mpr ⟨_, hp, rfl⟩

end Snapshot

namespace Cache.Store

/-! ### The data of a snapshot -/

theorem snapshot_objects (s : Store) (now : Nat) :
    (s.snapshot now).objects.getD [] = s.strippedObjects := by
  rw [snapshot]
  dsimp only
  split
  · rename_i h
    rw [strippedObjects, List.isEmpty_iff.mp h]
    rfl
  · rfl

theorem snapshot_root (s : Store) (now : Nat) (op : Operation) :
    ((s.snapshot now).root op).getD [] = s.rootFields now op := by
  have hpresent : ∀ fs : Fields Json, (if fs.isEmpty then none else some fs).getD [] = fs := by
    intro fs
    cases fs <;> rfl
  cases op with
  | query => rfl
  | mutation => exact hpresent _
  | subscription => exact hpresent _

theorem mem_rootFields {s : Store} {now : Nat} {op : Operation} {p : String × Json}
    (h : p ∈ s.rootFields now op) : ∃ c, ({ root := op, field := p.1 }, c) ∈ s.containers ∧
      c.lifetime.isExpired now = false ∧
      s.stripped? (.container { root := op, field := p.1 }) = some p.2 := by
  obtain ⟨⟨⟨root, field⟩, c⟩, hc, hp⟩ := List.mem_filterMap.mp (Fields.mem_of_mem_ofList h)
  dsimp only at hp
  split at hp
  · cases hp
  · rename_i hne
    obtain ⟨v, hv, rfl⟩ := Option.map_eq_some_iff.mp hp
    obtain ⟨rfl, he⟩ : root = op ∧ c.lifetime.isExpired now = false := by simpa using hne
    exact ⟨c, hc, he, hv⟩

theorem mem_strippedObjects {s : Store} {p : String × Json} :
    p ∈ s.strippedObjects ↔
      p.1 ∈ Fields.keys s.objects ∧ s.stripped? (.object p.1) = some p.2 := by
  rw [strippedObjects, List.mem_filterMap]
  constructor
  · rintro ⟨⟨id, v⟩, hid, hp⟩
    obtain ⟨w, hw, rfl⟩ := Option.map_eq_some_iff.mp hp
    exact ⟨Fields.mem_keys_of_mem (p := (id, v)) hid, hw⟩
  · rintro ⟨hk, hs⟩
    obtain ⟨⟨id, v⟩, hid, hkey⟩ := List.mem_map.mp hk
    obtain rfl : id = p.1 := hkey
    refine ⟨(p.1, v), hid, ?_⟩
    simp only [hs, Option.map_some]

/-- Where no object is a placeholder as a whole, a snapshot has all of them. -/
theorem keys_subset_strippedObjects {s : Store}
    (h : ∀ slot ∈ s.placeholders, ∀ id, slot.owner = .object id → slot.path ≠ []) :
    Fields.keys s.objects ⊆ Fields.keys s.strippedObjects := by
  intro id hid
  obtain ⟨v, hv⟩ := Option.isSome_iff_exists.mp (Fields.get?_isSome_iff.mpr hid)
  have hmarks : ((s.placeholders.filter (·.owner = Owner.object id)).map (·.path)).contains [] =
      false := by
    refine Bool.eq_false_iff.mpr fun hc => ?_
    obtain ⟨slot, hs, he⟩ := List.mem_map.mp (List.contains_iff_mem.mp hc)
    obtain ⟨hs, ho⟩ := List.mem_filter.mp hs
    exact h slot hs id (of_decide_eq_true ho) he
  have hw : ∃ w, s.stripped? (.object id) = some w := by
    rw [stripped?]
    simp only [hmarks, ownerValue?, hv, Option.map_some]
    exact ⟨_, rfl⟩
  obtain ⟨w, hw⟩ := hw
  exact Fields.mem_keys_of_mem (p := (id, w)) (mem_strippedObjects.mpr ⟨hid, hw⟩)

end Cache.Store

/-! ### Restoring -/

namespace Cache

theorem restoreObjects_table (objects : ObjectTable) (arriving : List (String × Json)) :
    (restoreObjects objects arriving).1 = Fields.overlay objects arriving :=
  (List.foldl_hom Prod.fst fun _ _ => rfl).symm

/-- The containers of a snapshot put into a store, one after the other. -/
def fillContainers (options : Options) (now : Nat) (s : Store)
    (fields : List (Operation × String × Json)) : Store :=
  fields.foldl (fun s p => fillContainer options now s p.1 p.2.1 p.2.2) s

/-- The contents of a cache after a snapshot was restored into it. -/
def restored (options : Options) (now : Nat) (s : Store) (snapshot : Snapshot) : Store :=
  let (objects, touched) := restoreObjects s.objects (snapshot.objects.getD [])
  ((fillContainers options now { s with objects } (snapshotFields snapshot)).dropReplacedPlaceholders
    touched).enforceCapacity options.maxEntries

theorem restore_of_valid (c : Cache) (now : Nat) {snapshot : Snapshot}
    (h : snapshot.validate = .ok ()) :
    ∃ d notice, c.restore now snapshot = .ok (d, notice) ∧ d.options = c.options ∧
      d.store = restored c.options now c.store snapshot := by
  simp only [restore, h]
  exact ⟨_, _, rfl, rfl, rfl⟩

theorem restore_eq_ok {c d : Cache} {now : Nat} {snapshot : Snapshot} {notice : Notice}
    (h : c.restore now snapshot = .ok (d, notice)) :
    snapshot.validate = .ok () ∧ d.options = c.options ∧
      d.store = restored c.options now c.store snapshot := by
  cases hv : snapshot.validate with
  | error e =>
      simp only [restore, hv] at h
      cases h
  | ok u =>
      obtain ⟨d', notice', hr, ho, hs⟩ := c.restore_of_valid now hv
      rw [h] at hr
      cases hr
      exact ⟨rfl, ho, hs⟩

theorem mem_snapshotFields {s : Snapshot} {op : Operation} {field : String} {v : Json} :
    (op, field, v) ∈ snapshotFields s ↔ (field, v) ∈ (s.root op).getD [] := by
  rw [snapshotFields, List.mem_flatMap]
  constructor
  · rintro ⟨op', _, hm⟩
    obtain ⟨p, hp, e⟩ := List.mem_map.mp hm
    cases e
    exact hp
  · intro hp
    exact ⟨op, by cases op <;> decide, List.mem_map.mpr ⟨(field, v), hp, rfl⟩⟩

end Cache
end LazyGraph
