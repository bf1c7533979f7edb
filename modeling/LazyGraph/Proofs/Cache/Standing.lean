import Mathlib.Data.List.Forall2
import LazyGraph.Proofs.Cache.Descent
import LazyGraph.Proofs.Cache.Normalization
import LazyGraph.Proofs.Cache.Step

/-!
What stands for a payload once it was stored: its objects and scalars can be read where the
payload has them, provided that it gives no identity to two objects. What was stored before does not
matter.
-/
namespace LazyGraph

namespace Json

/-- The first value stands for the second one: scalars are the same, and objects have the members
of theirs, behind references to the given identities where they are stored in the table. Of lists
nothing is said. -/
inductive Stands (table : ObjectTable) (ids : String → Prop) : Json → Json → Prop
  | list {w : Json} (items : List Json) : Stands table ids w (.array items)
  | scalar {v : Json} (whole : v.asObject? = none) : Stands table ids v v
  | object {gs fs : Fields Json} (plain : referenceIn? gs = none)
    (there : ∀ key, (Fields.get? fs key).isSome → (Fields.get? gs key).isSome)
    (parts : ∀ key x y, Fields.get? fs key = some x → Fields.get? gs key = some y →
      Stands table ids y x) :
    Stands table ids (.object gs) (.object fs)
  | reference {id : String} {gs fs : Fields Json} (known : ids id)
    (found : Fields.get? table id = some (.object gs))
    (there : ∀ key, (Fields.get? fs key).isSome → (Fields.get? gs key).isSome)
    (parts : ∀ key x y, Fields.get? fs key = some x → Fields.get? gs key = some y →
      Stands table ids y x) :
    Stands table ids (.reference id) (.object fs)

/-- What a member leads to, its object leads to. -/
theorem Leads.of_member {table : ObjectTable} {fs : Fields Json} {key id : String} {v : Json}
    (h : Leads table v id) (hv : Fields.get? fs key = some v) : Leads table (.object fs) id := by
  induction h with
  | here hid =>
      have hstep : (Json.object fs).walk? [key] = some v := (walk?_singleton _ key).trans hv
      exact .here (references_of_walk? hstep hid)
  | through _ found ho ih => exact .through ih found ho

namespace Stands

variable {table table' : ObjectTable} {ids ids' : String → Prop} {w v : Json}

theorem mono (h : Stands table ids w v) (hi : ∀ id, ids id → ids' id) : Stands table ids' w v := by
  induction h with
  | list items => exact .list items
  | scalar whole => exact .scalar whole
  | object plain there _ ih => exact .object plain there ih
  | reference known found there _ ih => exact .reference (hi _ known) found there ih

/-- Other identities do not matter. -/
theorem frame (h : Stands table ids w v)
    (ht : ∀ id, ids id → Fields.get? table' id = Fields.get? table id) :
    Stands table' ids w v := by
  induction h with
  | list items => exact .list items
  | scalar whole => exact .scalar whole
  | object plain there _ ih => exact .object plain there ih
  | reference known found there _ ih => exact .reference known ((ht _ known).trans found) there ih

/-- Only identities that the value leads to matter. -/
theorem reached (h : Stands table ids w v) (hi : ∀ id, Leads table w id → ids' id) :
    Stands table ids' w v := by
  induction h with
  | list items => exact .list items
  | scalar whole => exact .scalar whole
  | object plain there _ ih =>
      exact .object plain there fun key x y hx hy => ih key x y hx hy fun id hl =>
        hi id (hl.of_member hy)
  | @reference id gs fs known found there _ ih =>
      have hid : id ∈ (Json.reference id).references := List.mem_singleton.mpr rfl
      exact .reference (hi id (.here hid)) found there fun key x y hx hy =>
        ih key x y hx hy fun other hl => hi other (.descend hid found (hl.of_member hy))

theorem self (hp : v.Plain) : Stands table ids v v := by
  induction v using Json.induction with
  | object fs ih =>
      obtain ⟨hk, hparts⟩ := everywhere_object.mp hp
      refine .object (referenceIn?_eq_none hk) (fun _ h => h) fun key x y hx hy => ?_
      obtain rfl := Option.some.inj (hx.symm.trans hy)
      exact ih _ (Fields.mem_of_get? hx) (hparts _ (Fields.mem_of_get? hx))
  | array items => exact .list items
  | _ => exact .scalar rfl

/-- A value stands for a list only if it is a value that could be one. -/
theorem exists_list (h : Stands table ids (.array items) v) : ∃ items, v = .array items := by
  cases h with
  | list items => exact ⟨items, rfl⟩
  | scalar => exact ⟨items, rfl⟩

end Stands
end Json

namespace Normalizer

/-! ### Identities -/

mutual
/-- The identities that are given to the objects of a value, in the order in which they are
stored. -/
def identities (n : Normalizer) (levels : Nat) : Json → List String
  | .array items =>
    match levels with
    | 0 => []
    | levels + 1 => identitiesInItems n levels items
  | .object fs =>
    match levels with
    | 0 => []
    | levels + 1 =>
      match Json.referenceIn? fs with
      | some _ => []
      | none =>
        identitiesInFields n levels fs ++
          (n.identity (n.normalizeFields levels { table := [] } fs).1).toList
  | _ => []

def identitiesInItems (n : Normalizer) (levels : Nat) : List Json → List String
  | [] => []
  | v :: rest => identities n levels v ++ identitiesInItems n levels rest

def identitiesInFields (n : Normalizer) (levels : Nat) : List (String × Json) → List String
  | [] => []
  | (_, v) :: rest => identities n levels v ++ identitiesInFields n levels rest
end

section Form

variable {n : Normalizer} {levels : Nat}

theorem normalizeItems_fst {items : List Json}
    (hparts : ∀ v ∈ items, ∀ p q,
      (n.normalizeWithin levels p v).1 = (n.normalizeWithin levels q v).1) (p q : Progress) :
    (n.normalizeItems levels p items).1 = (n.normalizeItems levels q items).1 := by
  induction items generalizing p q with
  | nil => rw [normalizeItems, normalizeItems]
  | cons v items ih =>
      obtain ⟨hv, hrest⟩ := List.forall_mem_cons.mp hparts
      rw [normalizeItems, normalizeItems]
      exact List.cons_eq_cons.mpr ⟨hv p q, ih hrest _ _⟩

theorem normalizeFields_fst {fs : List (String × Json)}
    (hparts : ∀ r ∈ fs, ∀ p q,
      (n.normalizeWithin levels p r.2).1 = (n.normalizeWithin levels q r.2).1) (p q : Progress) :
    (n.normalizeFields levels p fs).1 = (n.normalizeFields levels q fs).1 := by
  induction fs generalizing p q with
  | nil => rw [normalizeFields, normalizeFields]
  | cons r fs ih =>
      obtain ⟨hr, hrest⟩ := List.forall_mem_cons.mp hparts
      rw [normalizeFields, normalizeFields]
      exact List.cons_eq_cons.mpr ⟨congrArg (r.1, ·) (hr p q), ih hrest _ _⟩

end Form

/-- What stays in the place of a value does not depend on the table. -/
theorem normalizeWithin_fst (n : Normalizer) (levels : Nat) (v : Json) (p q : Progress) :
    (n.normalizeWithin levels p v).1 = (n.normalizeWithin levels q v).1 := by
  induction v using Json.induction generalizing levels p q with
  | array items ih =>
      cases levels with
      | zero => rfl
      | succ levels =>
          rw [normalizeWithin, normalizeWithin]
          exact congrArg Json.array (normalizeItems_fst (fun v hv => ih v hv levels) p q)
  | object fs ih =>
      cases levels with
      | zero => rfl
      | succ levels =>
          rw [normalizeWithin, normalizeWithin]
          split
          · rfl
          · simp only [settle, normalizeFields_fst (fun r hr => ih r hr levels) p q]
            split <;> rfl
  | _ => rfl

section Elsewhere

variable {n : Normalizer} {levels : Nat} {id : String}

theorem normalizeItems_elsewhere {items : List Json}
    (hparts : ∀ v ∈ items, ∀ p, id ∉ n.identities levels v →
      Fields.get? (n.normalizeWithin levels p v).2.table id = Fields.get? p.table id)
    (h : id ∉ n.identitiesInItems levels items) (p : Progress) :
    Fields.get? (n.normalizeItems levels p items).2.table id = Fields.get? p.table id := by
  induction items generalizing p with
  | nil => rw [normalizeItems]
  | cons v items ih =>
      obtain ⟨hv, hrest⟩ := List.forall_mem_cons.mp hparts
      rw [identitiesInItems, List.mem_append, not_or] at h
      rw [normalizeItems]
      exact (ih hrest h.2 _).trans (hv p h.1)

theorem normalizeFields_elsewhere {fs : List (String × Json)}
    (hparts : ∀ q ∈ fs, ∀ p, id ∉ n.identities levels q.2 →
      Fields.get? (n.normalizeWithin levels p q.2).2.table id = Fields.get? p.table id)
    (h : id ∉ n.identitiesInFields levels fs) (p : Progress) :
    Fields.get? (n.normalizeFields levels p fs).2.table id = Fields.get? p.table id := by
  induction fs generalizing p with
  | nil => rw [normalizeFields]
  | cons q fs ih =>
      obtain ⟨hq, hrest⟩ := List.forall_mem_cons.mp hparts
      rw [identitiesInFields, List.mem_append, not_or] at h
      rw [normalizeFields]
      exact (ih hrest h.2 _).trans (hq p h.1)

end Elsewhere

/-- The table changes under the identities of the value only. -/
theorem normalizeWithin_elsewhere (n : Normalizer) (levels : Nat) (p : Progress) (v : Json)
    {id : String} (h : id ∉ n.identities levels v) :
    Fields.get? (n.normalizeWithin levels p v).2.table id = Fields.get? p.table id := by
  induction v using Json.induction generalizing levels p with
  | array items ih =>
      cases levels with
      | zero => rfl
      | succ levels =>
          rw [identities] at h
          rw [normalizeWithin]
          exact normalizeItems_elsewhere (fun v hv p hid => ih v hv levels p hid) h p
  | object fs ih =>
      cases levels with
      | zero => rfl
      | succ levels =>
          rw [identities] at h
          rw [normalizeWithin]
          split
          · rfl
          · rename_i hplain
            simp only [hplain, List.mem_append, not_or] at h
            have hfields := normalizeFields_elsewhere (fun q hq p hid => ih q hq levels p hid) h.1 p
            rw [normalizeFields_fst (fun q _ => n.normalizeWithin_fst levels q.2) _ p] at h
            generalize n.normalizeFields levels p fs = r at h hfields ⊢
            obtain ⟨gs, q⟩ := r
            simp only [settle]
            split
            · exact hfields
            · rename_i other hother
              rw [hother] at h
              have hne : id ≠ other := fun he => h.2 (he ▸ List.mem_singleton.mpr rfl)
              exact (Fields.get?_insert_of_ne _ hne).trans hfields
  | _ => rfl

/-! ### What is put in the place of a value -/

variable {n : Normalizer} {levels : Nat}

theorem normalizeFields_stands {fs : List (String × Json)}
    (hparts : ∀ q ∈ fs, (n.identities levels q.2).Nodup → ∀ p,
      Json.Stands (n.normalizeWithin levels p q.2).2.table (· ∈ n.identities levels q.2)
        (n.normalizeWithin levels p q.2).1 q.2)
    (hn : (n.identitiesInFields levels fs).Nodup) (p : Progress) :
    List.Forall₂ (fun r q => r.1 = q.1 ∧
      Json.Stands (n.normalizeFields levels p fs).2.table (· ∈ n.identitiesInFields levels fs)
        r.2 q.2) (n.normalizeFields levels p fs).1 fs := by
  induction fs generalizing p with
  | nil =>
      rw [normalizeFields]
      exact .nil
  | cons q fs ih =>
      obtain ⟨hq, hrest⟩ := List.forall_mem_cons.mp hparts
      rw [identitiesInFields] at hn ⊢
      obtain ⟨hnq, hnrest, hapart⟩ := List.nodup_append.mp hn
      have hfirst := hq hnq p
      rw [normalizeFields]
      refine .cons ⟨rfl, ?_⟩ ((ih hrest hnrest _).imp ?_)
      · refine (hfirst.frame fun id hid => ?_).mono fun id hid => List.mem_append_left _ hid
        exact normalizeFields_elsewhere (fun q _ p h => n.normalizeWithin_elsewhere levels p q.2 h)
          (fun hlater => hapart id hid id hlater rfl) _
      · rintro r q ⟨hkey, hr⟩
        exact ⟨hkey, hr.mono fun id hid => List.mem_append_right _ hid⟩

/-- The members that an object is stored with stand for those that arrive. -/
theorem store_stands (hr : n.resolver = none) {id : String} {gs fs : Fields Json} {p : Progress}
    {ids : String → Prop} (hid : ids id) (hn : (Fields.keys gs).Nodup)
    (there : ∀ key, (Fields.get? fs key).isSome → (Fields.get? gs key).isSome)
    (parts : ∀ key x y, Fields.get? fs key = some x → Fields.get? gs key = some y →
      Json.Stands (n.store id gs p).table ids y x) :
    Json.Stands (n.store id gs p).table ids (.reference id) (.object fs) := by
  obtain ⟨members, hfound, hmembers⟩ : ∃ members,
      Fields.get? (n.store id gs p).table id = some (.object members) ∧
        ∀ key y, Fields.get? gs key = some y → ∃ z, Fields.get? members key = some z ∧
          (z = y ∨ ∃ items, y = .array items) := by
    rw [store]
    split
    · rename_i stored _
      rw [merge, hr]
      exact ⟨_, Fields.get?_insert_self _ _ _, fun key y hy => n.get?_mergeMembers hn stored hy⟩
    · exact ⟨_, Fields.get?_insert_self _ _ _, fun key y hy => ⟨y, hy, .inl rfl⟩⟩
  refine .reference hid hfound (fun key hk => ?_) fun key x z hx hz => ?_
  · obtain ⟨y, hy⟩ := Option.isSome_iff_exists.mp (there key hk)
    obtain ⟨z, hz, _⟩ := hmembers key y hy
    exact Option.isSome_of_eq_some hz
  · obtain ⟨y, hy⟩ := Option.isSome_iff_exists.mp (there key (Option.isSome_of_eq_some hx))
    have hstands := parts key x y hx hy
    obtain ⟨z', hz', rfl | ⟨items, rfl⟩⟩ := hmembers key y hy
    · exact Option.some.inj (hz.symm.trans hz') ▸ hstands
    · obtain ⟨items', rfl⟩ := hstands.exists_list
      exact .list items'

/-- What a value is normalized to stands for it, if it gives no identity twice. -/
theorem normalizeWithin_stands (hr : n.resolver = none) (p : Progress) {v : Json} (hp : v.Plain)
    (ha : v.Everywhere Fields.Ascending) (hn : (n.identities levels v).Nodup) :
    Json.Stands (n.normalizeWithin levels p v).2.table (· ∈ n.identities levels v)
      (n.normalizeWithin levels p v).1 v := by
  induction v using Json.induction generalizing levels p with
  | array items => exact .list items
  | object fs ih =>
      cases levels with
      | zero => exact .self hp
      | succ levels =>
          obtain ⟨hk, hplain⟩ := Json.everywhere_object.mp hp
          obtain ⟨hascending, hparts⟩ := Json.everywhere_object.mp ha
          have hreference := Json.referenceIn?_eq_none hk
          have hkeys := keys_normalizeFields n levels p fs
          have hform : (n.normalizeFields levels { table := [] } fs).1 =
              (n.normalizeFields levels p fs).1 :=
            normalizeFields_fst (fun q _ => n.normalizeWithin_fst levels q.2) _ p
          rw [identities] at hn ⊢
          simp only [hreference, hform] at hn ⊢
          obtain ⟨hnfields, _, hapart⟩ := List.nodup_append.mp hn
          have hstands := normalizeFields_stands (fun q hq hnq p =>
            ih q hq p (hplain q hq) (hparts q hq) hnq) hnfields p
          rw [normalizeWithin]
          simp only [hreference]
          generalize n.normalizeFields levels p fs = r at *
          obtain ⟨gs, q⟩ := r
          simp only at hkeys hapart
          have hthere : ∀ key, (Fields.get? fs key).isSome → (Fields.get? gs key).isSome := by
            intro key hk
            rw [Fields.get?_isSome_iff] at hk ⊢
            exact hkeys ▸ hk
          have hmembers := fun key x y (hx : Fields.get? fs key = some x)
            (hy : Fields.get? gs key = some y) => Fields.of_forall₂ hstands hy hx
          rw [settle]
          cases hidentity : n.identity gs with
          | none =>
              refine .object (Json.referenceIn?_eq_none (hkeys ▸ hk)) hthere fun key x y hx hy => ?_
              exact (hmembers key x y hx hy).mono fun id hid => List.mem_append_left _ hid
          | some id =>
              refine store_stands hr (List.mem_append_right _ (List.mem_singleton.mpr rfl))
                (hkeys ▸ hascending.nodup_keys) hthere fun key x y hx hy => ?_
              refine ((hmembers key x y hx hy).frame fun other ho => ?_).mono
                fun id hid => List.mem_append_left _ hid
              have hne : other ≠ id := by
                rintro rfl
                rw [hidentity] at hapart
                exact hapart other ho other (List.mem_singleton.mpr rfl) rfl
              exact Fields.get?_insert_of_ne _ hne
  | _ => exact .scalar rfl

end Normalizer

namespace Cache

/-- The identities that are given to the objects of a root field. -/
def Options.identities (options : Options) (v : Json) : List String :=
  match options.normalizer with
  | some n => n.identities (Normalizer.maxDepth + 1) v
  | none => []

section Normalized

variable {options : Options} (hr : ∀ n, options.normalizer = some n → n.resolver = none)
  (objects : ObjectTable) (touched : Touched) {v : Json}

theorem normalized_elsewhere {id : String} (h : id ∉ options.identities v) :
    Fields.get? (normalized options objects touched v).2.table id = Fields.get? objects id := by
  rw [Options.identities] at h
  rw [normalized]
  split
  · rename_i n hn
    rw [hn] at h
    exact n.normalizeWithin_elsewhere _ _ v h
  · rfl

include hr

theorem normalized_stands (hp : v.Plain) (ha : v.Everywhere Fields.Ascending)
    (hn : (options.identities v).Nodup) :
    Json.Stands (normalized options objects touched v).2.table (· ∈ options.identities v)
      (normalized options objects touched v).1 v := by
  rw [normalized]
  split
  · rename_i n hnormalizer
    simp only [Options.identities, hnormalizer] at hn ⊢
    exact Normalizer.normalizeWithin_stands (hr n hnormalizer) _ hp ha hn
  · exact .self hp

end Normalized

namespace Store

/-! ### Containers that stay -/

/-- The container of a key, which is not dropped for its age or for want of room. -/
structure Secure (s : Store) (key : ContainerKey) (c : Container) : Prop where
  there : Recency.peek? s.containers key = some c
  lasting : ∀ p ∈ s.containers, p.1 = key → p.2.lifetime.isWeak = false

variable {s : Store} {key other : ContainerKey} {c : Container}

theorem secure_putContainer (s : Store) (key : ContainerKey) (h : c.lifetime.isWeak = false) :
    (s.putContainer key c).Secure key c where
  there := by
    rw [putContainer, Recency.peek?_put, if_pos rfl]
  lasting p hp he := by
    rcases Recency.mem_put.mp hp with rfl | ⟨_, hne⟩
    · exact h
    · exact absurd he hne

theorem Secure.putContainer (h : s.Secure key c) (hne : key ≠ other) (d : Container) :
    (s.putContainer other d).Secure key c where
  there := by
    rw [Store.putContainer, Recency.peek?_put, if_neg hne]
    exact h.there
  lasting p hp he := by
    rcases Recency.mem_put.mp hp with rfl | ⟨hp, _⟩
    · exact absurd he.symm hne
    · exact h.lasting p hp he

theorem Secure.dropContainer (h : s.Secure key c) (hne : key ≠ other) :
    (s.dropContainer other).Secure key c where
  there := by
    rw [Store.dropContainer, Recency.peek?_erase, if_neg hne]
    exact h.there
  lasting p hp he := h.lasting p (List.mem_of_mem_filter hp) he

theorem Secure.sweep (h : s.Secure key c) (now : Nat) : (s.sweep now).Secure key c := by
  have hold : ∀ other ∈ s.reclaimable now, key ≠ other := by
    rintro other ho rfl
    obtain ⟨p, hp, he⟩ := List.mem_map.mp ho
    obtain ⟨hp, hreclaimable⟩ := List.mem_filter.mp hp
    have hlasting := h.lasting p hp he
    cases hl : p.2.lifetime with
    | unlimited =>
        rw [hl] at hreclaimable
        cases hreclaimable
    | limited expiresAt staleUntil =>
        rw [hl] at hlasting
        cases hlasting
  have hswept : ((s.reclaimable now).foldl Store.dropContainer s).Secure key c :=
    List.foldlRecOn (motive := fun t : Store => t.Secure key c) _ _ h
      fun _ ht other ho => ht.dropContainer (hold other ho)
  rw [Store.sweep]
  constructor
  · rw [Store.containers_collectObjects]
    exact hswept.there
  · rw [Store.containers_collectObjects]
    exact hswept.lasting

theorem Secure.enforceCapacity (h : s.Secure key c) (maxEntries : Nat) :
    (s.enforceCapacity maxEntries).Secure key c := by
  refine enforceCapacity_induction (motive := fun t => t.Secure key c) h ?_ maxEntries
  intro t other d ht hd hweak
  refine ht.dropContainer ?_
  rintro rfl
  exact Bool.false_ne_true ((ht.lasting _ hd rfl).symm.trans hweak)

/-! ### Root fields -/

/-- The container of a root field of the query stands for a value. -/
def Presents (s : Store) (ids : String → Prop) (field : String) (v : Json) : Prop :=
  ∃ c, s.Secure { root := .query, field } c ∧ Json.Stands s.objects ids c.data v

theorem presents_storeField {options : Options}
    (hr : ∀ n, options.normalizer = some n → n.resolver = none) (hage : options.maxAge = none)
    (now : Nat) (acc : Store × Touched) (field : String) {v : Json} (hp : v.Plain)
    (ha : v.Everywhere Fields.Ascending) (hn : (options.identities v).Nodup) :
    (storeField options now .query acc (field, v)).1.Presents (· ∈ options.identities v) field v ∧
    ∀ other u ids, other ≠ field → (∀ id, ids id → id ∉ options.identities v) →
      acc.1.Presents ids other u →
      (storeField options now .query acc (field, v)).1.Presents ids other u := by
  have hlasting : (Lifetime.ofRoot .query options.maxAge options.staleWindow now).isWeak = false := by
    rw [hage]
    rfl
  constructor
  · exact ⟨_, secure_putContainer _ _ hlasting, normalized_stands hr _ _ hp ha hn⟩
  · rintro other u ids hne hids ⟨c, hsecure, hstands⟩
    refine ⟨c, ?_, hstands.frame fun id hid => normalized_elsewhere _ _ (hids id hid)⟩
    have hkept : Secure { acc.1 with
        objects := (normalized options acc.1.objects acc.2 v).2.table }
        { root := .query, field := other } c := ⟨hsecure.there, hsecure.lasting⟩
    exact hkept.putContainer (fun he => hne (congrArg ContainerKey.field he)) _

/-- Root fields whose objects all have identities of their own, one after the other. -/
theorem presents_storeFields {options : Options}
    (hr : ∀ n, options.normalizer = some n → n.resolver = none) (hage : options.maxAge = none)
    (now : Nat) {fs : Fields Json} (hkeys : (Fields.keys fs).Nodup)
    (hp : ∀ q ∈ fs, q.2.Plain) (ha : ∀ q ∈ fs, q.2.Everywhere Fields.Ascending)
    (hn : (fs.flatMap fun q => options.identities q.2).Nodup) (acc : Store × Touched) :
    let acc' := (fs.map ((Operation.query, ·))).foldl
      (fun acc (root, p) => storeField options now root acc p) acc
    (∀ q ∈ fs, acc'.1.Presents (· ∈ options.identities q.2) q.1 q.2) ∧
    ∀ other u ids, other ∉ Fields.keys fs →
      (∀ id, ids id → ∀ q ∈ fs, id ∉ options.identities q.2) →
      acc.1.Presents ids other u → acc'.1.Presents ids other u := by
  induction fs generalizing acc with
  | nil => exact ⟨fun _ h => absurd h List.not_mem_nil, fun _ _ _ _ _ h => h⟩
  | cons q fs ih =>
      obtain ⟨field, v⟩ := q
      obtain ⟨hpv, hprest⟩ := List.forall_mem_cons.mp hp
      obtain ⟨hav, harest⟩ := List.forall_mem_cons.mp ha
      obtain ⟨hfield, hkeys⟩ := List.nodup_cons.mp hkeys
      rw [List.flatMap_cons] at hn
      obtain ⟨hnv, hnrest, hapart⟩ := List.nodup_append.mp hn
      obtain ⟨hfirst, hothers⟩ := presents_storeField hr hage now acc field hpv hav hnv
      obtain ⟨hrest, hkept⟩ := ih hkeys hprest harest hnrest (storeField options now .query acc (field, v))
      constructor
      · refine List.forall_mem_cons.mpr ⟨hkept field v _ hfield ?_ hfirst, hrest⟩
        intro id hid r hr hlater
        exact hapart id hid id (List.mem_flatMap.mpr ⟨r, hr, hlater⟩) rfl
      · intro other u ids hother hids hu
        obtain ⟨hne, hother⟩ := not_or.mp (mt List.mem_cons.mpr hother)
        have hfirst := hothers other u ids hne (fun id hid => hids id hid _ List.mem_cons_self) hu
        exact hkept other u ids hother
          (fun id hid r hr => hids id hid r (List.mem_cons_of_mem _ hr)) hfirst

theorem Presents.sweep {s : Store} {ids : String → Prop} {field : String} {v : Json}
    (h : s.Presents ids field v) (now : Nat) : ∃ ids', (s.sweep now).Presents ids' field v := by
  obtain ⟨c, hsecure, hstands⟩ := h
  have hswept := hsecure.sweep now
  let dropped := (s.reclaimable now).foldl dropContainer s
  have hobjects : dropped.objects = s.objects := (shrinks_dropContainers s _).objects
  refine ⟨(· ∈ dropped.reachable), c, hswept, ?_⟩
  have hthere := hswept.there
  rw [Store.sweep, containers_collectObjects] at hthere
  have hmem : c.data ∈ dropped.containers.map (·.2.data) :=
    List.mem_map.mpr ⟨_, Recency.mem_of_peek? hthere, rfl⟩
  have hreached : Json.Stands s.objects (· ∈ dropped.reachable) c.data v := by
    refine hstands.reached fun id hl => Json.mem_reach_iff.mpr ⟨_, hmem, ?_⟩
    rw [hobjects]
    exact hl
  refine hreached.frame fun id hid => ?_
  exact (get?_collectObjects hid).trans (congrArg (Fields.get? · id) hobjects)

theorem Presents.enforceCapacity {s : Store} {ids : String → Prop} {field : String} {v : Json}
    (h : s.Presents ids field v) (maxEntries : Nat) :
    (s.enforceCapacity maxEntries).Presents ids field v := by
  obtain ⟨c, hsecure, hstands⟩ := h
  refine ⟨c, hsecure.enforceCapacity maxEntries, ?_⟩
  rw [(shrinks_enforceCapacity s maxEntries).objects]
  exact hstands

end Store

/-- A response of the query is stored whatever was there before, and all of its root fields can be
read. -/
theorem set_presents {c : Cache} (hr : ∀ n, c.options.normalizer = some n → n.resolver = none)
    (hage : c.options.maxAge = none) (now : Nat) {fs : Fields Json}
    (hp : Json.Plain (.object fs)) (ha : Json.Everywhere Fields.Ascending (.object fs))
    (hn : (fs.flatMap fun q => c.options.identities q.2).Nodup) :
    ∃ d notice, c.set now (.object [(Operation.query.text, .object fs)]) false = .ok (d, notice) ∧
      d.options = c.options ∧
      ∀ q ∈ fs, ∃ ids, d.store.Presents ids q.1 q.2 := by
  obtain ⟨_, hplain⟩ := Json.everywhere_object.mp hp
  obtain ⟨hascending, hparts⟩ := Json.everywhere_object.mp ha
  have hfields : payloadFields [(Operation.query, fs)] = fs.map ((Operation.query, ·)) :=
    List.append_nil _
  obtain ⟨hpresents, _⟩ := Store.presents_storeFields hr hage now hascending.nodup_keys hplain
    hparts hn (c.store, [])
  refine ⟨_, _, c.set_eq now (payloadRoots_fieldPayload .query fs) false, rfl, fun q hq => ?_⟩
  obtain ⟨container, hsecure, hstands⟩ := hpresents q hq
  have hstored : Store.Presents ((storeFields c.options now c.store (fs.map ((Operation.query, ·)))).1
      |>.dropReplacedPlaceholders (storeFields c.options now c.store (fs.map ((Operation.query, ·)))).2)
      (· ∈ c.options.identities q.2) q.1 q.2 :=
    ⟨container, ⟨hsecure.there, hsecure.lasting⟩, hstands⟩
  obtain ⟨ids, hswept⟩ := hstored.sweep now
  refine ⟨ids, ?_⟩
  rw [hfields]
  exact hswept.enforceCapacity _

end Cache

/-! ### Reading -/

namespace Json

/-- The value at the end of a way down the members of objects. -/
def memberAt? : Json → List String → Option Json
  | v, [] => some v
  | v, key :: rest => (v.member? key).bind (memberAt? · rest)

/-- A string, a number or a boolean. -/
def isLeaf : Json → Bool
  | .string _ | .number _ | .bool _ => true
  | _ => false

namespace Stands

variable {table : ObjectTable} {ids : String → Prop} {w v : Json}

/-- What stands for an object resolves to one with all of its members. -/
theorem exists_members {fs : Fields Json} (h : Stands table ids w (.object fs)) :
    ∃ gs, w.resolve? table = some (.object gs) ∧
      ∀ key x, Fields.get? fs key = some x →
        ∃ y, Fields.get? gs key = some y ∧ Stands table ids y x := by
  cases h with
  | scalar whole => cases whole
  | @object gs _ plain there parts =>
      refine ⟨gs, ?_, fun key x hx => ?_⟩
      · rw [resolve?, referenceId?, plain]
      · obtain ⟨y, hy⟩ := Option.isSome_iff_exists.mp (there key (Option.isSome_of_eq_some hx))
        exact ⟨y, hy, parts key x y hx hy⟩
  | @reference id gs _ known found there parts =>
      refine ⟨gs, ?_, fun key x hx => ?_⟩
      · rw [resolve?, referenceId?_eq_some_iff.mpr rfl]
        exact found
      · obtain ⟨y, hy⟩ := Option.isSome_iff_exists.mp (there key (Option.isSome_of_eq_some hx))
        exact ⟨y, hy, parts key x y hx hy⟩

theorem resolve?_leaf (h : Stands table ids w v) (hl : v.isLeaf = true) :
    w.resolve? table = some v := by
  cases h with
  | list items => cases hl
  | object => cases hl
  | reference => cases hl
  | scalar whole =>
      cases w with
      | object fs => cases whole
      | _ => rfl

theorem exists_descend? {keys : List String} {x : Json} (h : Stands table ids w v)
    (hx : v.memberAt? keys = some x) :
    ∃ y, descend? table w keys = some y ∧ Stands table ids y x := by
  induction keys generalizing w v with
  | nil =>
      obtain rfl := Option.some.inj hx
      exact ⟨w, rfl, h⟩
  | cons key keys ih =>
      obtain ⟨u, hu, hbelow⟩ := Option.bind_eq_some_iff.mp hx
      cases v with
      | object fs =>
          obtain ⟨gs, hresolve, hmembers⟩ := h.exists_members
          obtain ⟨y, hy, hstands⟩ := hmembers key u hu
          obtain ⟨z, hz, hzx⟩ := ih hstands hbelow
          refine ⟨z, ?_, hzx⟩
          have hstep : (Json.object gs).step? key = some y := hy
          rw [descend?, hresolve, Option.bind_some, hstep, Option.bind_some]
          exact hz
      | _ => cases hu

end Stands
end Json

namespace Cache

theorem read_value (c : Cache) (path : CachePath) : (c.read path).1.value =
    (c.store.valueAt? path).bind (·.resolve? c.store.objects) := by
  rw [read]
  cases hc : Recency.peek? c.store.containers (keyOf path) with
  | none =>
      simp only
      rw [Store.valueAt?_eq_descend?, hc]
      rfl
  | some container => rfl

/-- The caches hold the same data, whatever was used last. -/
structure Alike (c d : Cache) : Prop where
  options : d.options = c.options
  objects : d.store.objects = c.store.objects
  containers : ∀ key, Recency.peek? d.store.containers key = Recency.peek? c.store.containers key

theorem Alike.trans {c d e : Cache} (h : Alike c d) (h' : Alike d e) : Alike c e :=
  ⟨h'.options.trans h.options, h'.objects.trans h.objects,
    fun key => (h'.containers key).trans (h.containers key)⟩

theorem alike_read (c : Cache) (path : CachePath) : Alike c (c.read path).2 := by
  rw [read]
  split
  · exact ⟨rfl, rfl, fun _ => rfl⟩
  · exact ⟨rfl, rfl, fun key => Recency.peek?_touch _ _ key⟩

theorem Alike.valueAt? {c d : Cache} (h : Alike c d) (path : CachePath) :
    d.store.valueAt? path = c.store.valueAt? path := by
  rw [Store.valueAt?_eq_descend?, Store.valueAt?_eq_descend?, h.objects, h.containers]

theorem Alike.read_value {c d : Cache} (h : Alike c d) (path : CachePath) :
    (d.read path).1.value = (c.read path).1.value := by
  rw [Cache.read_value, Cache.read_value, h.valueAt?, h.objects]

/-- All that lies below the root fields of a response can be read: objects as objects, and leaves
as they are. -/
structure Shows (c : Cache) (fs : Fields Json) : Prop where
  object : ∀ field rest gs, (Json.object fs).memberAt? (field :: rest) = some (.object gs) →
    ∃ hs, (c.read { root := .query, field, rest }).1.value = some (.object hs)
  leaf : ∀ field rest v, (Json.object fs).memberAt? (field :: rest) = some v → v.isLeaf = true →
    (c.read { root := .query, field, rest }).1.value = some v

theorem shows_of_presents {c : Cache} {fs : Fields Json}
    (h : ∀ q ∈ fs, ∃ ids, c.store.Presents ids q.1 q.2) : c.Shows fs := by
  have hread : ∀ field rest v, (Json.object fs).memberAt? (field :: rest) = some v →
      ∃ y ids, Json.Stands c.store.objects ids y v ∧
        (c.read { root := .query, field, rest }).1.value = y.resolve? c.store.objects := by
    intro field rest v hv
    obtain ⟨u, hu, hv⟩ := Option.bind_eq_some_iff.mp hv
    obtain ⟨ids, container, hsecure, hstands⟩ := h (field, u) (Fields.mem_of_get? hu)
    obtain ⟨y, hy, hstands⟩ := hstands.exists_descend? hv
    refine ⟨y, ids, hstands, ?_⟩
    have hkey : Recency.peek? c.store.containers (keyOf { root := .query, field, rest }) =
        some container := hsecure.there
    rw [read_value, Store.valueAt?_eq_descend?, hkey, Option.bind_some, hy, Option.bind_some]
  constructor
  case object =>
    intro field rest gs hv
    obtain ⟨y, ids, hstands, hvalue⟩ := hread field rest _ hv
    obtain ⟨hs, hresolve, _⟩ := hstands.exists_members
    exact ⟨hs, hvalue.trans hresolve⟩
  case leaf =>
    intro field rest v hv hl
    obtain ⟨y, ids, hstands, hvalue⟩ := hread field rest v hv
    exact hvalue.trans (hstands.resolve?_leaf hl)

end Cache
end LazyGraph
