import LazyGraph.Proofs.Cache.Normalization
import LazyGraph.Proofs.Cache.Step

/-!
What holds of the contents of a cache in every run: one container a key, which lasts from a time
that has come, no more containers than fit, and objects in the order of their identities.
-/
namespace LazyGraph.Cache

/-- The contents, but for their number, as they are at a time not after `now`. -/
structure Store.Sound (options : Options) (now : Nat) (s : Store) : Prop where
  nodup : (Recency.keys s.containers).Nodup
  lifetimes : ∀ p ∈ s.containers, ∃ t ≤ now,
    p.2.lifetime = .ofRoot p.1.root options.maxAge options.staleWindow t
  ascending : Fields.Ascending s.objects
  placeholders : ∀ slot ∈ s.placeholders, ∀ id, slot.owner = .object id → slot.path ≠ []

namespace Store

variable {options : Options} {now : Nat} {s t : Store}

theorem ascending_normalized (options : Options) {objects : ObjectTable}
    (h : Fields.Ascending objects) (touched : Touched) (v : Json) :
    Fields.Ascending (normalized options objects touched v).2.table := by
  rw [normalized]
  split
  · exact Normalizer.normalizeWithin_table (motive := Fields.Ascending)
      (fun _ _ _ ha => ha.insert _ _) _ _ (p := { table := objects, touched }) v h
  · exact h

theorem sound_empty : Sound options now {} where
  nodup := List.nodup_nil
  lifetimes _ h := nomatch h
  ascending := .nil
  placeholders _ h := nomatch h

namespace Sound

theorem later (h : Sound options now s) {next : Nat} (passed : now ≤ next) :
    Sound options next s where
  nodup := h.nodup
  lifetimes p hp := by
    obtain ⟨t, ht, he⟩ := h.lifetimes p hp
    exact ⟨t, Nat.le_trans ht passed, he⟩
  ascending := h.ascending
  placeholders := h.placeholders

theorem shrinks (h : Sound options now s) (hst : Shrinks s t) : Sound options now t where
  nodup := h.nodup.sublist (hst.containers.map _)
  lifetimes p hp := h.lifetimes p (hst.containers.subset hp)
  ascending := hst.objects ▸ h.ascending
  placeholders slot hs := h.placeholders slot (hst.placeholders hs)

theorem withObjects (h : Sound options now s) {table : ObjectTable}
    (ha : Fields.Ascending table) : Sound options now { s with objects := table } :=
  ⟨h.nodup, h.lifetimes, ha, h.placeholders⟩

theorem put (h : Sound options now s) (key : ContainerKey) (c : Container)
    (hc : c.lifetime = .ofRoot key.root options.maxAge options.staleWindow now) :
    Sound options now { s with containers := Recency.put s.containers key c } := by
  refine ⟨Recency.nodup_keys_put h.nodup key c, fun p hp => ?_, h.ascending, h.placeholders⟩
  rcases Recency.mem_put.mp hp with rfl | ⟨hp, _⟩
  · exact ⟨now, Nat.le_refl now, hc⟩
  · exact h.lifetimes p hp

theorem fillContainer (h : Sound options now s) (root : Operation) (field : String)
    (data : Json) : Sound options now (fillContainer options now s root field data) :=
  (h.put { root, field } _ rfl).shrinks
    ⟨List.Sublist.refl _, rfl, List.filter_sublist.subset⟩

theorem fillContainers (h : Sound options now s) (fields : List (Operation × String × Json)) :
    Sound options now (fillContainers options now s fields) := by
  induction fields generalizing s with
  | nil => exact h
  | cons x fields ih => exact ih (h.fillContainer x.1 x.2.1 x.2.2)

theorem markPlaceholder (h : Sound options now s) {slot : Slot}
    (hp : ∀ id, slot.owner = .object id → slot.path ≠ []) :
    Sound options now (s.markPlaceholder slot) := by
  have hc := s.containers_markPlaceholder slot
  have ho := s.objects_markPlaceholder slot
  refine ⟨hc ▸ h.nodup, hc ▸ h.lifetimes, ho ▸ h.ascending, fun mark hm => ?_⟩
  rcases mem_markPlaceholder hm with rfl | hm
  · exact hp
  · exact h.placeholders mark hm

theorem withOwnerValue (h : Sound options now s) (owner : Owner) (v : Json) :
    Sound options now (s.withOwnerValue owner v) := by
  cases owner with
  | container key =>
      refine ⟨?_, fun p hp => ?_, h.ascending, h.placeholders⟩
      · simp only [Store.withOwnerValue, Recency.keys_update]
        exact h.nodup
      · simp only [Store.withOwnerValue] at hp
        rcases Recency.mem_of_mem_update hp with hp | ⟨c, hc, rfl⟩
        · exact h.lifetimes p hp
        · exact h.lifetimes (key, c) hc
  | object id => exact h.withObjects (h.ascending.insert id v)

theorem writeSlot? (h : Sound options now s) {slot : Slot} {v : Json}
    (hw : s.writeSlot? slot v = some t) : Sound options now t := by
  obtain ⟨u, _, hw⟩ := Option.bind_eq_some_iff.mp hw
  obtain ⟨w, _, ht⟩ := Option.bind_eq_some_iff.mp hw
  exact Option.some.inj ht ▸ h.withOwnerValue slot.owner w

theorem sweep (h : Sound options now s) (time : Nat) : Sound options now (s.sweep time) := by
  have hdrop := h.shrinks (shrinks_dropContainers s (s.reclaimable time))
  rw [Store.sweep]
  refine ⟨?_, ?_, ?_, fun slot hs => ?_⟩
  · rw [containers_collectObjects]
    exact hdrop.nodup
  · rw [containers_collectObjects]
    exact hdrop.lifetimes
  · rw [objects_collectObjects]
    exact hdrop.ascending.filter _
  · exact hdrop.placeholders slot ((placeholders_collectObjects_sublist _).subset hs)

theorem normalized (h : Sound options now s) (touched : Touched) (v : Json) :
    Sound options now { s with objects := (normalized options s.objects touched v).2.table } :=
  h.withObjects (ascending_normalized options h.ascending touched v)

theorem storeFields (h : Sound options now s) (fields : List (Operation × String × Json)) :
    Sound options now (storeFields options now s fields).1 := by
  rw [Cache.storeFields]
  exact List.foldlRecOn (motive := fun acc : Store × Touched => Sound options now acc.1) fields _ h
    fun acc hacc x _ => (hacc.normalized acc.2 x.2.2).fillContainer x.1 x.2.1 _

theorem setStore (h : Sound options now s) (fields : List (Operation × String × Json)) :
    Sound options now (setStore options now s fields) :=
  (((h.storeFields fields).shrinks (shrinks_dropReplacedPlaceholders _ _)).sweep now).shrinks
    (shrinks_enforceCapacity _ _)

theorem restored (h : Sound options now s) (snapshot : Snapshot) :
    Sound options now (restored options now s snapshot) := by
  have htable : Fields.Ascending
      (restoreObjects s.objects (snapshot.objects.getD [])).1 := by
    rw [restoreObjects_table]
    exact Fields.foldl_insert_ascending _ h.ascending
  exact (((h.withObjects htable).fillContainers _).shrinks
    (shrinks_dropReplacedPlaceholders _ _)).shrinks (shrinks_enforceCapacity _ _)

end Sound

/-! ### Room for the containers -/

theorem Fits.shrinks {maxEntries : Nat} (h : Fits maxEntries s) (hst : Shrinks s t) :
    Fits maxEntries t :=
  h.imp (Nat.le_trans hst.containers.length_le)
    fun hw p hp => hw p (hst.containers.subset hp)

theorem Fits.withOwnerValue {maxEntries : Nat} (h : Fits maxEntries s) (owner : Owner)
    (v : Json) : Fits maxEntries (s.withOwnerValue owner v) := by
  cases owner with
  | container key =>
      refine h.imp (fun hl => ?_) fun hw p hp => ?_
      · simp only [Store.withOwnerValue, Recency.update, List.length_map]
        exact hl
      · simp only [Store.withOwnerValue] at hp
        rcases Recency.mem_of_mem_update hp with hp | ⟨c, hc, rfl⟩
        · exact hw p hp
        · exact hw (key, c) hc
  | object id => exact h

theorem Fits.writeSlot? {maxEntries : Nat} (h : Fits maxEntries s) {slot : Slot} {v : Json}
    (hw : s.writeSlot? slot v = some t) : Fits maxEntries t := by
  obtain ⟨u, _, hw⟩ := Option.bind_eq_some_iff.mp hw
  obtain ⟨w, _, ht⟩ := Option.bind_eq_some_iff.mp hw
  exact Option.some.inj ht ▸ h.withOwnerValue slot.owner w

theorem Fits.markPlaceholder {maxEntries : Nat} (h : Fits maxEntries s) (slot : Slot) :
    Fits maxEntries (s.markPlaceholder slot) := by
  rw [Store.markPlaceholder]
  split <;> exact h

end Store

/-! ### Operations -/

theorem step_sound {options : Options} {now : Nat} {s t : Store} {e : Event}
    (h : s.Sound options now) (step : Step options now s e t) : t.Sound options now := by
  cases step with
  | unchanged e => exact h
  | missed e metrics => exact ⟨h.nodup, h.lifetimes, h.ascending, h.placeholders⟩
  | used e key metrics =>
      exact ⟨Recency.nodup_keys_touch h.nodup key,
        fun p hp => h.lifetimes p (Recency.mem_of_mem_touch hp), h.ascending, h.placeholders⟩
  | set read skipNotify => exact h.setStore _
  | writtenRoot value root => exact h.setStore _
  | merged value below found => exact h.normalized [] value
  | @written path slot value t below found placed touched =>
      exact (((h.normalized [] value).writeSlot? placed).shrinks
        (Store.shrinks_dropPlaceholdersIn _ _)).shrinks
        (Store.shrinks_dropReplacedPlaceholders _ _)
  | @seededRoot path value root absent =>
      have hput := h.put (keyOf path) { data := value, lifetime := _ } rfl
      refine Store.Sound.shrinks (hput.markPlaceholder ?_) (Store.shrinks_enforceCapacity _ _)
      intro id ho
      cases ho
  | seeded below found placed =>
      exact (h.writeSlot? placed).markPlaceholder fun _ _ => (Store.slot?_path below found).1
  | evictedRoot parsed => exact h.shrinks (Store.shrinks_dropContainer _ _)
  | evicted parsed below found owned removed =>
      exact (h.withOwnerValue _ _).shrinks (Store.shrinks_dropPlaceholdersIn _ _)
  | swept => exact h.sweep now
  | cleared =>
      exact ⟨List.nodup_nil, fun _ hm => absurd hm List.not_mem_nil, .nil,
        fun _ hm => absurd hm List.not_mem_nil⟩
  | restored valid => exact h.restored _

theorem step_fits {options : Options} {now : Nat} {s t : Store} {e : Event}
    (h : s.Fits options.maxEntries)
    (step : Step options now s e t) : t.Fits options.maxEntries := by
  cases step with
  | unchanged e => exact h
  | missed e metrics => exact h
  | used e key metrics =>
      refine h.imp (fun hl => ?_) fun hw p hp => hw p (Recency.mem_of_mem_touch hp)
      exact Nat.le_trans (Recency.length_touch_le _ _) hl
  | set read skipNotify => exact Store.fits_enforceCapacity _ _
  | writtenRoot value root => exact Store.fits_enforceCapacity _ _
  | merged value below found => exact h
  | @written path slot value t below found placed touched =>
      have hmerged : Store.Fits options.maxEntries (mergedStore options s value) := h
      exact ((hmerged.writeSlot? placed).shrinks (Store.shrinks_dropPlaceholdersIn _ _)).shrinks
        (Store.shrinks_dropReplacedPlaceholders _ _)
  | seededRoot value root absent => exact Store.fits_enforceCapacity _ _
  | seeded below found placed => exact (h.writeSlot? placed).markPlaceholder _
  | evictedRoot parsed => exact h.shrinks (Store.shrinks_dropContainer _ _)
  | evicted parsed below found owned removed =>
      exact (h.withOwnerValue _ _).shrinks (Store.shrinks_dropPlaceholdersIn _ _)
  | swept =>
      rw [Store.Fits, Store.sweep, Store.containers_collectObjects]
      exact h.shrinks (Store.shrinks_dropContainers s (s.reclaimable now))
  | cleared => exact .inl (Nat.zero_le _)
  | restored valid => exact Store.fits_enforceCapacity _ _

/-- The contents of a cache at the end of a run. -/
theorem Reachable.sound {options : Options} {now : Nat} {c : Cache}
    (run : Reachable options now c) : c.options = options ∧ c.store.Sound options now ∧
      c.store.Fits options.maxEntries := by
  induction run with
  | new now => exact ⟨rfl, Store.sound_empty, .inl (Nat.zero_le _)⟩
  | @act now later c run passed e ih =>
      obtain ⟨ho, hs, hf⟩ := ih
      obtain ⟨hsame, step⟩ := c.act_step later e
      rw [ho] at hsame step
      exact ⟨hsame, step_sound (hs.later passed) step, step_fits hf step⟩

end LazyGraph.Cache
