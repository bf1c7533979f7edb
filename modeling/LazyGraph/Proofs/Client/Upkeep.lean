import LazyGraph.Proofs.Client.Coverage

/-!
What reads, placeholders and the dropping of old data do to contents that tell what a server
holds: they stay so, and what was covered stays covered.
-/
namespace LazyGraph.Cache.Store

variable {server : Server} {owns : String → List String → Prop} {s t : Store}

/-- The container of a root field of the query holds all of a value. -/
def CoversField (s : Store) (field : String) (w : Json) : Prop :=
  s.Covers { owner := .container { root := .query, field }, path := [] } w

end Store

/-- The owners whose values do not grow old. -/
def Owner.Lasting : Owner → Prop
  | .container key => key.root = .query
  | .object _ => True

namespace Store

variable {server : Server} {owns : String → List String → Prop} {s t : Store}

theorem CoversField.keeps {field : String} {w : Json} (h : s.CoversField field w)
    (hst : Keeps Owner.Lasting s t) : t.CoversField field w :=
  Covers.keeps h hst (fun _ _ _ _ => trivial) rfl

/-! ### Use -/

theorem keeps_touch (s : Store) (O : Owner → Prop) (key : ContainerKey) (metrics : Metrics) :
    Keeps O s { s with containers := Recency.touch s.containers key, metrics } := by
  refine keeps_of_ownerValue? (fun o _ => ?_) (List.Subset.refl _)
  cases o with
  | container other =>
      rw [ownerValue?, ownerValue?, Recency.peek?_touch]
  | object id => rfl

theorem Faithful.touch (h : s.Faithful server owns) (key : ContainerKey) (metrics : Metrics) :
    Faithful server owns { s with containers := Recency.touch s.containers key, metrics } where
  containers q hq := h.containers q (Recency.mem_of_mem_touch hq)
  lifetimes q hq := h.lifetimes q (Recency.mem_of_mem_touch hq)
  objects := h.objects

/-! ### Dropping -/

theorem Faithful.shrinks (h : s.Faithful server owns) (hst : Shrinks s t) :
    t.Faithful server owns where
  containers q hq := h.containers q (hst.containers.subset hq)
  lifetimes q hq := h.lifetimes q (hst.containers.subset hq)
  objects := hst.objects ▸ h.objects

theorem keeps_dropContainer {key : ContainerKey} (hk : key.root ≠ .query) :
    Keeps Owner.Lasting s (s.dropContainer key) := by
  refine keeps_of_ownerValue? (fun o ho => ?_) List.filter_sublist.subset
  cases o with
  | container other =>
      have hne : other ≠ key := by
        rintro rfl
        exact hk ho
      rw [ownerValue?, ownerValue?, dropContainer, Recency.peek?_erase, if_neg hne]
  | object id => rfl

theorem keeps_dropContainers {keys : List ContainerKey} (h : ∀ key ∈ keys, key.root ≠ .query) :
    Keeps Owner.Lasting s (keys.foldl dropContainer s) :=
  List.foldlRecOn keys _ (.refl _ s) fun _ ht key hkey =>
    ht.trans (keeps_dropContainer (h key hkey))

theorem Faithful.not_query (h : s.Faithful server owns) {key : ContainerKey} {c : Container}
    (hc : (key, c) ∈ s.containers) (hl : c.lifetime ≠ .unlimited) : key.root ≠ .query :=
  fun hq => hl (h.lifetimes (key, c) hc hq)

theorem Faithful.keeps_enforceCapacity (h : s.Faithful server owns) (maxEntries : Nat) :
    Keeps Owner.Lasting s (s.enforceCapacity maxEntries) := by
  have hkept : (s.enforceCapacity maxEntries).Faithful server owns ∧
      Keeps Owner.Lasting s (s.enforceCapacity maxEntries) := by
    refine enforceCapacity_induction
      (motive := fun t => t.Faithful server owns ∧ Keeps Owner.Lasting s t)
      ⟨h, .refl _ s⟩ ?_ maxEntries
    rintro t key c ⟨hfaithful, hkeeps⟩ hc hweak
    have hroot := hfaithful.not_query hc fun hl => by
      rw [hl] at hweak
      cases hweak
    exact ⟨hfaithful.shrinks (shrinks_dropContainer t key),
      hkeeps.trans (keeps_dropContainer hroot)⟩
  exact hkept.2

theorem Faithful.collectObjects (h : s.Faithful server owns) :
    s.collectObjects.Faithful server owns := by
  refine ⟨?_, ?_, fun id v hv => h.objects id v (get?_of_collectObjects hv).2⟩
  · rw [containers_collectObjects]
    exact h.containers
  · rw [containers_collectObjects]
    exact h.lifetimes

/-- The objects that a container leads to are not collected. -/
theorem CoversField.collectObjects {field : String} {w : Json} (h : s.CoversField field w) :
    s.collectObjects.CoversField field w := by
  let O : Owner → Prop
    | .container _ => True
    | .object id => id ∈ s.reachable
  have hkeeps : Keeps O s s.collectObjects := by
    refine keeps_of_ownerValue? (fun o ho => ?_) s.placeholders_collectObjects_sublist.subset
    cases o with
    | container key => rw [ownerValue?, ownerValue?, containers_collectObjects]
    | object id => exact get?_collectObjects ho
  refine Covers.keeps h hkeeps (fun slot id ho hv => ?_) trivial
  obtain ⟨v, hown, hv⟩ := Option.bind_eq_some_iff.mp hv
  have hid : id ∈ v.references :=
    Json.references_of_walk? hv (List.mem_singleton.mpr rfl)
  obtain ⟨owner, path⟩ := slot
  cases owner with
  | container key =>
      obtain ⟨c, hc, rfl⟩ := Option.map_eq_some_iff.mp hown
      have hmem := Recency.mem_of_peek? hc
      exact Json.mem_reach_iff.mpr ⟨_, List.mem_map_of_mem hmem, .here hid⟩
  | object other =>
      obtain ⟨u, hu, hl⟩ := Json.mem_reach_iff.mp ho
      exact Json.mem_reach_iff.mpr ⟨u, hu, .through hl hown hid⟩

theorem Faithful.sweep (h : s.Faithful server owns) (now : Nat) :
    (s.sweep now).Faithful server owns :=
  (h.shrinks (shrinks_dropContainers s _)).collectObjects

theorem Faithful.covers_sweep (h : s.Faithful server owns) {field : String} {w : Json}
    (hw : s.CoversField field w) (now : Nat) : (s.sweep now).CoversField field w := by
  refine CoversField.collectObjects (hw.keeps (keeps_dropContainers fun key hkey => ?_))
  obtain ⟨q, hq, rfl⟩ := List.mem_map.mp hkey
  obtain ⟨hq, hold⟩ := List.mem_filter.mp hq
  refine h.not_query hq fun hl => ?_
  rw [hl] at hold
  cases hold

/-! ### Placeholders -/

theorem Faithful.withOwnerValue (h : s.Faithful server owns) {owner : Owner} {p : List String}
    {fs : Fields Json} (hp : owner.Stands owns p) (hv : server.Holds owns p (.object fs))
    (hm : server.Members owns p fs) : (s.withOwnerValue owner (.object fs)).Faithful server owns := by
  cases owner with
  | container key =>
      refine ⟨fun q hq => ?_, fun q hq => ?_, h.objects⟩
      · simp only [Store.withOwnerValue] at hq
        rcases Recency.mem_of_mem_update hq with hq | ⟨c, hc, rfl⟩
        · exact h.containers q hq
        · cases hp
          exact hv
      · simp only [Store.withOwnerValue] at hq
        rcases Recency.mem_of_mem_update hq with hq | ⟨c, hc, rfl⟩
        · exact h.lifetimes q hq
        · exact h.lifetimes (key, c) hc
  | object id =>
      refine ⟨h.containers, h.lifetimes, fun other x hx => ?_⟩
      rw [Store.withOwnerValue, Fields.get?_insert] at hx
      split at hx
      · rename_i e
        cases hx
        exact ⟨p, fs, e ▸ hp, hv.object_cases.1, rfl, hm⟩
      · exact h.objects other x hx

section Placeholders

variable (hd : ∀ id p q, owns id p → owns id q → p = q)

include hd

/-- A placeholder for an object at a slot without a value. -/
theorem Faithful.writeSlot? (h : s.Faithful server owns) {path : CachePath} {slot : Slot}
    (hn : path.rest ≠ []) (hs : s.slot? path = some slot) (hv : s.slotValue? slot = none)
    (hp : server.holding path.position = .object)
    (hw : s.writeSlot? slot (.object []) = some t) :
    t.Faithful server owns ∧ Keeps Owner.Lasting s (t.markPlaceholder slot) := by
  obtain ⟨v, hown, hwrite⟩ := Option.bind_eq_some_iff.mp hw
  obtain ⟨w, hwritten, ht⟩ := Option.bind_eq_some_iff.mp hwrite
  cases ht
  obtain ⟨⟨b, hb, hat⟩, _⟩ := h.slot? hd hs
  obtain ⟨u, hparent, hr⟩ := parent?_slot? h.direct hn hs
  have hholds := h.ownerValue? hd hown hb
  rw [parent?, slotValue?, hown, Option.bind_some] at hparent
  rw [slotValue?, hown, Option.bind_some] at hv
  obtain ⟨fs, gs, rfl, rfl, hobject, _, hgs, hways⟩ := hholds.seedAt (slot?_path hn hs).1
    (hat ▸ hp) (fun x hx => Option.some.inj (hparent.symm.trans hx) ▸ hr) hv hwritten
  refine ⟨h.withOwnerValue hb (hgs.holds hobject) hgs, fun other x _ hx => ?_, fun mark hm _ => ?_⟩
  · obtain ⟨y, hy, hx⟩ := Option.bind_eq_some_iff.mp hx
    rw [slotValue?, ownerValue?_markPlaceholder, ownerValue?_withOwnerValue hown]
    split
    · rename_i e
      rw [e, hown] at hy
      cases hy
      exact hways other.path x hx
    · rw [hy]
      exact ⟨x, hx, .inl rfl⟩
  · rcases mem_markPlaceholder hm with rfl | hm
    · refine .inr ?_
      rw [slotValue?, hown]
      exact hv
    · rw [placeholders_withOwnerValue] at hm
      exact .inl hm

end Placeholders

theorem Faithful.markPlaceholder (h : s.Faithful server owns) (slot : Slot) :
    (s.markPlaceholder slot).Faithful server owns where
  containers := by
    rw [containers_markPlaceholder]
    exact h.containers
  lifetimes := by
    rw [containers_markPlaceholder]
    exact h.lifetimes
  objects := by
    rw [objects_markPlaceholder]
    exact h.objects

theorem Faithful.put (h : s.Faithful server owns) {key : ContainerKey} {c : Container}
    (hc : server.Holds owns [key.root.text, key.field] c.data)
    (hl : key.root = .query → c.lifetime = .unlimited) :
    Faithful server owns { s with containers := Recency.put s.containers key c } := by
  refine ⟨fun q hq => ?_, fun q hq => ?_, h.objects⟩
  · rcases Recency.mem_put.mp hq with rfl | ⟨hq, _⟩
    · exact hc
    · exact h.containers q hq
  · rcases Recency.mem_put.mp hq with rfl | ⟨hq, _⟩
    · exact hl
    · exact h.lifetimes q hq

/-- A placeholder in the place of a container that is not there. -/
theorem keeps_putPlaceholder {key : ContainerKey} (O : Owner → Prop) (c : Container)
    (ha : Recency.contains s.containers key = false) :
    Keeps O s (Store.markPlaceholder { s with containers := Recency.put s.containers key c }
      { owner := .container key, path := [] }) := by
  have hnone : s.ownerValue? (.container key) = none := by
    rw [Recency.contains] at ha
    rw [ownerValue?, Option.isSome_eq_false_iff.mp ha |> Option.isNone_iff_eq_none.mp]
    rfl
  refine ⟨fun slot v _ hv => ⟨v, ?_, .inl rfl⟩, fun mark hm _ => ?_⟩
  · obtain ⟨u, hu, hv⟩ := Option.bind_eq_some_iff.mp hv
    have hne : slot.owner ≠ .container key := by
      intro e
      rw [e, hnone] at hu
      cases hu
    rw [slotValue?, ownerValue?_markPlaceholder]
    cases ho : slot.owner with
    | container other =>
        rw [ho] at hne hu
        rw [ownerValue?] at hu ⊢
        rw [Recency.peek?_put, if_neg fun e => hne (congrArg _ e), hu]
        exact hv
    | object id =>
        rw [ho] at hu
        rw [ownerValue?] at hu ⊢
        rw [hu]
        exact hv
  · rcases mem_markPlaceholder hm with rfl | hm
    · refine .inr ?_
      rw [slotValue?, hnone]
      rfl
    · exact .inl hm

end LazyGraph.Cache.Store

namespace LazyGraph.Cache

variable {server : Server} {owns : String → List String → Prop}

/-- The second cache tells what the server holds if the first one does, and covers what that
covers. -/
structure Upholds (server : Server) (owns : String → List String → Prop) (c d : Cache) : Prop where
  options : d.options = c.options
  faithful : c.store.Faithful server owns → d.store.Faithful server owns
  covers : c.store.Faithful server owns → ∀ field w, c.store.CoversField field w →
    d.store.CoversField field w

theorem Upholds.refl (c : Cache) : Upholds server owns c c := ⟨rfl, id, fun _ _ _ => id⟩

theorem Upholds.trans {c d e : Cache} (h : Upholds server owns c d) (h' : Upholds server owns d e) :
    Upholds server owns c e where
  options := h'.options.trans h.options
  faithful hf := h'.faithful (h.faithful hf)
  covers hf field w hw := h'.covers (h.faithful hf) field w (h.covers hf field w hw)

theorem upholds_read (c : Cache) (path : CachePath) :
    Upholds server owns c (c.read path).2 := by
  rw [read]
  split
  · exact ⟨rfl, fun hf => ⟨hf.containers, hf.lifetimes, hf.objects⟩, fun _ _ _ hw =>
      hw.keeps (Store.keeps_of_ownerValue? (fun _ _ => rfl) (List.Subset.refl _))⟩
  · exact ⟨rfl, fun hf => hf.touch _ _, fun _ _ _ hw => hw.keeps (Store.keeps_touch _ _ _ _)⟩

/-- A placeholder where the server holds an object. -/
theorem upholds_seed (hd : ∀ id p q, owns id p → owns id q → p = q) (c : Cache) (now : Nat)
    (hage : c.options.maxAge = none) {path : CachePath}
    (hp : server.holding path.position = .object) :
    Upholds server owns c (c.seed now path (.object [])).2 := by
  by_cases hr : path.rest = []
  · cases ha : Recency.contains c.store.containers (keyOf path) with
    | true =>
        simp only [seed, hr, ha, if_true]
        exact .refl c
    | false =>
        simp only [seed, hr, ha, Bool.false_eq_true, if_false]
        rw [CachePath.position, hr] at hp
        let container : Container :=
          { data := .object []
            lifetime := .ofRoot path.root c.options.maxAge c.options.staleWindow now }
        have hlasts : path.root = .query → container.lifetime = .unlimited := by
          intro hq
          simp only [container, hq, hage]
          rfl
        have hput : c.store.Faithful server owns → Store.Faithful server owns
            { c.store with containers := Recency.put c.store.containers (keyOf path) container } :=
          fun hf => hf.put (Server.Members.nil.holds hp) hlasts
        refine ⟨rfl, fun hf => ?_, fun hf field w hw => ?_⟩
        · exact ((hput hf).markPlaceholder _).shrinks (Store.shrinks_enforceCapacity _ _)
        · exact hw.keeps ((Store.keeps_putPlaceholder _ container ha).trans
            (((hput hf).markPlaceholder _).keeps_enforceCapacity _))
  · cases hs : c.store.slot? path with
    | none =>
        simp only [seed, hs]
        exact .refl c
    | some slot =>
        simp only [seed, hs]
        split
        · exact .refl c
        · rename_i hv
          split
          · exact .refl c
          · rename_i t ht
            have hfree := Option.not_isSome_iff_eq_none.mp hv
            refine ⟨rfl, fun hf => ?_, fun hf field w hw => ?_⟩
            · exact (hf.writeSlot? hd hr hs hfree hp ht).1.markPlaceholder slot
            · exact hw.keeps (hf.writeSlot? hd hr hs hfree hp ht).2

end LazyGraph.Cache
