import LazyGraph.Cache.Reference
import LazyGraph.Proofs.Fields

/-!
References in values: which identities a value refers to, which it leads to through a table of
objects, and that `reach` finds these and no others.
-/
namespace LazyGraph.Json

/-- Induction over a value with the parts of arrays and objects. -/
theorem induction {P : Json → Prop} (null : P .null) (bool : ∀ b, P (.bool b))
    (number : ∀ n, P (.number n)) (string : ∀ s, P (.string s))
    (array : ∀ items, (∀ v ∈ items, P v) → P (.array items))
    (object : ∀ fs, (∀ p ∈ fs, P p.2) → P (.object fs)) (v : Json) : P v :=
  Json.rec (motive_1 := P) (motive_2 := fun items => ∀ v ∈ items, P v)
    (motive_3 := fun fs => ∀ p ∈ fs, P p.2) (motive_4 := fun p => P p.2)
    null bool number string array object (fun _ h => nomatch h)
    (fun _ _ hv hrest => List.forall_mem_cons.mpr ⟨hv, hrest⟩) (fun _ h => nomatch h)
    (fun _ _ hp hrest => List.forall_mem_cons.mpr ⟨hp, hrest⟩) (fun _ _ hv => hv) v

/-! ### Reference objects -/

theorem referenceIn?_eq_some_iff {fs : List (String × Json)} {id : String} :
    referenceIn? fs = some id ↔ fs = [(referenceKey, .string id)] := by
  constructor
  · intro h
    unfold referenceIn? at h
    split at h
    · rename_i key text
      split at h
      · cases h
        rw [‹key = referenceKey›]
      · cases h
    · cases h
  · rintro rfl
    rfl

theorem referenceId?_eq_some_iff {v : Json} {id : String} :
    v.referenceId? = some id ↔ v = .reference id := by
  cases v with
  | object fs =>
      rw [referenceId?, referenceIn?_eq_some_iff, reference]
      exact ⟨congrArg Json.object, Json.object.inj⟩
  | null => exact ⟨nofun, nofun⟩
  | bool b => exact ⟨nofun, nofun⟩
  | number n => exact ⟨nofun, nofun⟩
  | string s => exact ⟨nofun, nofun⟩
  | array items => exact ⟨nofun, nofun⟩

theorem referenceIn?_eq_none {fs : List (String × Json)} (h : referenceKey ∉ Fields.keys fs) :
    referenceIn? fs = none := by
  cases hr : referenceIn? fs with
  | none => rfl
  | some id =>
      rw [referenceIn?_eq_some_iff] at hr
      subst hr
      exact absurd List.mem_cons_self h

theorem mem_referencesInItems {items : List Json} {id : String} :
    id ∈ referencesInItems items ↔ ∃ v ∈ items, id ∈ v.references := by
  induction items with
  | nil => simp [referencesInItems]
  | cons v items ih => simp [referencesInItems, ih]

theorem mem_referencesInFields {fs : List (String × Json)} {id : String} :
    id ∈ referencesInFields fs ↔ ∃ p ∈ fs, id ∈ p.2.references := by
  induction fs with
  | nil => simp [referencesInFields]
  | cons p fs ih => simp [referencesInFields, ih]

theorem references_array (items : List Json) :
    references (.array items) = referencesInItems items := by
  rw [references]

theorem references_object {fs : List (String × Json)} (h : referenceIn? fs = none) :
    references (.object fs) = referencesInFields fs := by
  rw [references, h]

/-! ### Conditions on all objects of a value -/

mutual
/-- Whether all objects in a value are as asked. -/
def Everywhere (P : List (String × Json) → Prop) : Json → Prop
  | .object fs => P fs ∧ EverywhereInFields P fs
  | .array items => EverywhereInItems P items
  | _ => True

def EverywhereInItems (P : List (String × Json) → Prop) : List Json → Prop
  | [] => True
  | v :: rest => Everywhere P v ∧ EverywhereInItems P rest

def EverywhereInFields (P : List (String × Json) → Prop) : List (String × Json) → Prop
  | [] => True
  | (_, v) :: rest => Everywhere P v ∧ EverywhereInFields P rest
end

variable {P Q : List (String × Json) → Prop}

mutual
def decideEverywhere [DecidablePred P] : (v : Json) → Decidable (Everywhere P v)
  | .object fs => @instDecidableAnd _ _ _ (decideEverywhereInFields fs)
  | .array items => decideEverywhereInItems items
  | .null | .bool _ | .number _ | .string _ => instDecidableTrue

def decideEverywhereInItems [DecidablePred P] :
    (items : List Json) → Decidable (EverywhereInItems P items)
  | [] => instDecidableTrue
  | v :: rest => @instDecidableAnd _ _ (decideEverywhere v) (decideEverywhereInItems rest)

def decideEverywhereInFields [DecidablePred P] :
    (fs : List (String × Json)) → Decidable (EverywhereInFields P fs)
  | [] => instDecidableTrue
  | (_, v) :: rest => @instDecidableAnd _ _ (decideEverywhere v) (decideEverywhereInFields rest)
end

instance [DecidablePred P] (v : Json) : Decidable (Everywhere P v) := decideEverywhere v

theorem everywhere_array {items : List Json} :
    Everywhere P (.array items) ↔ ∀ v ∈ items, Everywhere P v := by
  rw [Everywhere]
  induction items with
  | nil => simp [EverywhereInItems]
  | cons v items ih => rw [EverywhereInItems, ih, List.forall_mem_cons]

theorem everywhereInFields {fs : List (String × Json)} :
    EverywhereInFields P fs ↔ ∀ p ∈ fs, Everywhere P p.2 := by
  induction fs with
  | nil => simp [EverywhereInFields]
  | cons p fs ih => rw [EverywhereInFields, ih, List.forall_mem_cons]

theorem everywhere_object {fs : List (String × Json)} :
    Everywhere P (.object fs) ↔ P fs ∧ ∀ p ∈ fs, Everywhere P p.2 := by
  rw [Everywhere, everywhereInFields]

theorem Everywhere.mono (hPQ : ∀ fs, P fs → Q fs) {v : Json} (h : Everywhere P v) :
    Everywhere Q v := by
  induction v using Json.induction with
  | null => trivial
  | bool b => trivial
  | number n => trivial
  | string s => trivial
  | array items ih =>
      rw [everywhere_array] at h ⊢
      exact fun v hv => ih v hv (h v hv)
  | object fs ih =>
      rw [everywhere_object] at h ⊢
      exact ⟨hPQ fs h.1, fun p hp => ih p hp (h.2 p hp)⟩

/-! ### Values whose references are known -/

/-- Every object with the key of references is a reference, to an identity as given. -/
def Grounded (ids : String → Prop) : Json → Prop :=
  Everywhere fun fs => referenceKey ∈ Fields.keys fs →
    ∃ id, ids id ∧ fs = [(referenceKey, .string id)]

/-- No object has the key of references. -/
def Plain : Json → Prop := Everywhere fun fs => referenceKey ∉ Fields.keys fs

instance (v : Json) : Decidable (Plain v) :=
  inferInstanceAs (Decidable (Everywhere (fun fs => referenceKey ∉ Fields.keys fs) v))

variable {ids other : String → Prop}

theorem grounded_array {items : List Json} :
    Grounded ids (.array items) ↔ ∀ v ∈ items, Grounded ids v := everywhere_array

theorem grounded_object {fs : List (String × Json)} (h : referenceKey ∉ Fields.keys fs) :
    Grounded ids (.object fs) ↔ ∀ p ∈ fs, Grounded ids p.2 := by
  rw [Grounded, everywhere_object]
  exact and_iff_right fun hk => absurd hk h

theorem grounded_reference {id : String} (h : ids id) : Grounded ids (reference id) := by
  refine everywhere_object.mpr ⟨fun _ => ⟨id, h, rfl⟩, ?_⟩
  rintro p hp
  rw [List.mem_singleton.mp hp]
  trivial

theorem Plain.grounded {v : Json} (h : Plain v) : Grounded ids v :=
  h.mono fun _ hk hm => absurd hm hk

theorem Grounded.mono {v : Json} (h : Grounded ids v) (hi : ∀ id, ids id → other id) :
    Grounded other v :=
  Everywhere.mono (fun _ hP hk => (hP hk).imp fun id hid => ⟨hi id hid.1, hid.2⟩) h

/-- An object is grounded as a reference, or by its members. -/
theorem Grounded.object_cases {fs : List (String × Json)} (h : Grounded ids (.object fs)) :
    (∃ id, ids id ∧ fs = [(referenceKey, .string id)]) ∨
    (referenceKey ∉ Fields.keys fs ∧ ∀ p ∈ fs, Grounded ids p.2) := by
  obtain ⟨hP, hparts⟩ := everywhere_object.mp h
  by_cases hk : referenceKey ∈ Fields.keys fs
  · exact .inl (hP hk)
  · exact .inr ⟨hk, hparts⟩

theorem Grounded.not_mem_keys {fs : List (String × Json)} (h : Grounded ids (.object fs))
    (hr : referenceIn? fs = none) : referenceKey ∉ Fields.keys fs := by
  rcases h.object_cases with ⟨id, _, rfl⟩ | ⟨hk, _⟩
  · cases hr
  · exact hk

theorem Grounded.references {v : Json} (h : Grounded ids v) : ∀ id ∈ v.references, ids id := by
  induction v using Json.induction with
  | null => exact fun _ hid => nomatch hid
  | bool b => exact fun _ hid => nomatch hid
  | number n => exact fun _ hid => nomatch hid
  | string s => exact fun _ hid => nomatch hid
  | array items ih =>
      intro id hid
      rw [references_array, mem_referencesInItems] at hid
      obtain ⟨v, hv, hid⟩ := hid
      exact ih v hv (grounded_array.mp h v hv) id hid
  | object fs ih =>
      intro id hid
      rcases h.object_cases with ⟨other, ho, rfl⟩ | ⟨hk, hparts⟩
      · rw [List.mem_singleton.mp hid]
        exact ho
      · rw [references_object (referenceIn?_eq_none hk), mem_referencesInFields] at hid
        obtain ⟨p, hp, hid⟩ := hid
        exact ih p hp (hparts p hp) id hid

/-- What counts for the identities that a value refers to is enough. -/
theorem Grounded.of_references {v : Json} (h : Grounded ids v)
    (hi : ∀ id ∈ v.references, other id) : Grounded other v := by
  induction v using Json.induction with
  | null => trivial
  | bool b => trivial
  | number n => trivial
  | string s => trivial
  | array items ih =>
      rw [grounded_array] at h ⊢
      intro v hv
      refine ih v hv (h v hv) fun id hid => hi id ?_
      rw [references_array, mem_referencesInItems]
      exact ⟨v, hv, hid⟩
  | object fs ih =>
      rcases h.object_cases with ⟨id, _, rfl⟩ | ⟨hk, hparts⟩
      · exact grounded_reference (hi id List.mem_cons_self)
      · rw [grounded_object hk]
        intro p hp
        refine ih p hp (hparts p hp) fun id hid => hi id ?_
        rw [references_object (referenceIn?_eq_none hk), mem_referencesInFields]
        exact ⟨p, hp, hid⟩

/-! ### What values lead to -/

/-- A value leads to the identities that it refers to, and to those that their objects do. -/
inductive Leads (table : ObjectTable) (v : Json) : String → Prop
  | here {id : String} (h : id ∈ v.references) : Leads table v id
  | through {id other : String} {u : Json} (h : Leads table v id)
      (found : Fields.get? table id = some u) (ho : other ∈ u.references) : Leads table v other

/-- What the object of a reference leads to, the value with the reference leads to. -/
theorem Leads.descend {table : ObjectTable} {v u : Json} {id other : String}
    (hv : id ∈ v.references) (found : Fields.get? table id = some u) (h : Leads table u other) :
    Leads table v other := by
  induction h with
  | here ho => exact .through (.here hv) found ho
  | through _ next ho ih => exact .through ih next ho

theorem Leads.of_references {table : ObjectTable} {v u : Json} {id : String} (h : Leads table u id)
    (hsub : u.references ⊆ v.references) : Leads table v id := by
  induction h with
  | here hid => exact .here (hsub hid)
  | through _ found ho ih => exact .through ih found ho

theorem not_leads_of_references {table : ObjectTable} {v : Json} {id : String} (h : v.references = []) :
    ¬ Leads table v id := by
  intro hl
  induction hl with
  | here hid => exact List.not_mem_nil (h ▸ hid)
  | through _ _ _ ih => exact ih

/-- What a value leads to stays among identities that are closed under the references of their
objects. -/
theorem Leads.mem_of_closed {table : ObjectTable} {v : Json} {id : String} {ids : List String}
    (hv : v.references ⊆ ids) (closed : ∀ p ∈ table, p.1 ∈ ids → p.2.references ⊆ ids)
    (h : Leads table v id) : id ∈ ids := by
  induction h with
  | here hid => exact hv hid
  | through _ found ho ih => exact closed _ (Fields.mem_of_get? found) ih ho

/-- A value leads to the same through tables that agree on what it leads to. -/
theorem leads_congr {table other : ObjectTable} {v : Json}
    (same : ∀ id, Leads table v id → Fields.get? other id = Fields.get? table id)
    (id : String) : Leads other v id ↔ Leads table v id := by
  constructor
  · intro h
    induction h with
    | here hid => exact .here hid
    | through _ found ho ih => exact .through ih ((same _ ih).symm.trans found) ho
  · intro h
    induction h with
    | here hid => exact .here hid
    | through hl found ho ih => exact .through ih ((same _ hl).trans found) ho

/-- The identities of a table that have not been seen. -/
def unseen (table : ObjectTable) (seen : List String) : List String :=
  (Fields.keys table).filter fun id => !seen.contains id

theorem unseen_length_lt (table : ObjectTable) (seen : List String) :
    (unseen table seen).length < table.length + 1 := by
  have hkeys : (Fields.keys table).length = table.length := List.length_map _
  exact Nat.lt_succ_of_le (Nat.le_trans (List.length_filter_le _ _) (Nat.le_of_eq hkeys))

theorem unseen_append_lt {table : ObjectTable} {seen ids : List String} {id : String}
    (hid : id ∈ ids) (hs : id ∉ seen) (hk : id ∈ Fields.keys table) :
    (unseen table (seen ++ ids)).length < (unseen table seen).length := by
  have heq : unseen table (seen ++ ids) =
      (unseen table seen).filter fun id => !ids.contains id := by
    rw [unseen, unseen, List.filter_filter]
    refine List.filter_congr fun x _ => ?_
    simp [Bool.and_comm]
  rw [heq]
  refine List.length_filter_lt_length_iff_exists.mpr ⟨id, ?_, ?_⟩
  · simp [unseen, hs, hk]
  · simp [hid]

/-- The identities of one round. -/
theorem mem_fresh {seen : List String} {values : List Json} {id : String} :
    id ∈ ((values.flatMap references).filter fun id => !seen.contains id).eraseDups ↔
      (∃ v ∈ values, id ∈ v.references) ∧ id ∉ seen := by
  simp [List.mem_eraseDups]

theorem seen_subset_reachWithin (table : ObjectTable) (fuel : Nat) (seen : List String)
    (values : List Json) : seen ⊆ reachWithin table fuel seen values := by
  induction fuel generalizing seen values with
  | zero => exact List.Subset.refl seen
  | succ fuel ih =>
      rw [reachWithin]
      split
      · exact List.Subset.refl seen
      · exact List.Subset.trans (List.subset_append_left _ _) (ih _ _)

/-- All that is found was seen before, or the values lead to it. -/
theorem reachWithin_sound {table : ObjectTable} {fuel : Nat} {seen : List String}
    {values : List Json} {id : String} (h : id ∈ reachWithin table fuel seen values) :
    id ∈ seen ∨ ∃ v ∈ values, Leads table v id := by
  induction fuel generalizing seen values with
  | zero => exact .inl h
  | succ fuel ih =>
      rw [reachWithin] at h
      split at h
      · exact .inl h
      · rename_i first rest hfresh
        have hround : ∀ x ∈ first :: rest, ∃ v ∈ values, x ∈ v.references :=
          fun x hx => (mem_fresh.mp (hfresh ▸ hx)).1
        rcases ih h with h | ⟨u, hu, hl⟩
        · refine (List.mem_append.mp h).imp_right fun hid => ?_
          obtain ⟨v, hv, hid⟩ := hround id hid
          exact ⟨v, hv, .here hid⟩
        · obtain ⟨x, hx, hxu⟩ := List.mem_filterMap.mp hu
          obtain ⟨v, hv, hxv⟩ := hround x hx
          exact .inr ⟨v, hv, hl.descend hxv hxu⟩

/-- With enough rounds the result holds the identities of the values, and is closed under the
references in the objects that it adds to those seen before. -/
theorem reachWithin_closed {table : ObjectTable} {fuel : Nat} {seen : List String}
    (values : List Json) (h : values = [] ∨ (unseen table seen).length < fuel) :
    (∀ v ∈ values, v.references ⊆ reachWithin table fuel seen values) ∧
    ∀ id ∈ reachWithin table fuel seen values, id ∉ seen → ∀ u, Fields.get? table id = some u →
      u.references ⊆ reachWithin table fuel seen values := by
  induction fuel generalizing seen values with
  | zero =>
      obtain rfl : values = [] := h.resolve_right (Nat.not_lt_zero _)
      exact ⟨fun v hv => absurd hv List.not_mem_nil, fun id hid hs => absurd hid hs⟩
  | succ fuel ih =>
      rw [reachWithin]
      split
      · rename_i hfresh
        refine ⟨fun v hv id hid => ?_, fun id hid hs => absurd hid hs⟩
        refine Decidable.byContradiction fun hs => ?_
        have hm := mem_fresh.mpr ⟨⟨v, hv, hid⟩, hs⟩
        rw [hfresh] at hm
        cases hm
      · rename_i first rest hfresh
        have hround : ∀ x ∈ first :: rest, x ∉ seen := fun x hx => (mem_fresh.mp (hfresh ▸ hx)).2
        have hle : values ≠ [] := by
          rintro rfl
          cases hfresh
        have hlt := h.resolve_left hle
        have hnext : (first :: rest).filterMap (Fields.get? table ·) = [] ∨
            (unseen table (seen ++ first :: rest)).length < fuel := by
          by_cases hne : (first :: rest).filterMap (Fields.get? table ·) = []
          · exact .inl hne
          · obtain ⟨u, hu⟩ := List.exists_mem_of_ne_nil _ hne
            obtain ⟨x, hx, hxu⟩ := List.mem_filterMap.mp hu
            have hk := Fields.mem_keys_of_mem (Fields.mem_of_get? hxu)
            have hless := unseen_append_lt hx (hround x hx) hk
            exact .inr (Nat.lt_of_lt_of_le hless (Nat.lt_succ_iff.mp hlt))
        obtain ⟨hvalues, hclosed⟩ := ih _ hnext
        have hseen := seen_subset_reachWithin table fuel (seen ++ first :: rest)
          ((first :: rest).filterMap (Fields.get? table ·))
        refine ⟨fun v hv id hid => ?_, fun id hid hs u hu => ?_⟩
        · by_cases hs : id ∈ seen
          · exact hseen (List.mem_append_left _ hs)
          · exact hseen (List.mem_append_right _ (hfresh ▸ mem_fresh.mpr ⟨⟨v, hv, hid⟩, hs⟩))
        · by_cases hx : id ∈ first :: rest
          · exact hvalues u (List.mem_filterMap.mpr ⟨id, hx, hu⟩)
          · refine hclosed id hid ?_ u hu
            exact fun hm => (List.mem_append.mp hm).elim hs hx

/-- The size of the table is enough rounds, whatever was seen before. -/
theorem reach_closed (table : ObjectTable) (seen : List String) (values : List Json) :
    (∀ v ∈ values, v.references ⊆ reach table seen values) ∧
    ∀ id ∈ reach table seen values, id ∉ seen → ∀ u, Fields.get? table id = some u →
      u.references ⊆ reach table seen values :=
  reachWithin_closed values (.inr (unseen_length_lt table seen))

/-- What is reached from values are exactly the identities that one of them leads to. -/
theorem mem_reach_iff {table : ObjectTable} {values : List Json} {id : String} :
    id ∈ reach table [] values ↔ ∃ v ∈ values, Leads table v id := by
  obtain ⟨hvalues, hclosed⟩ := reach_closed table [] values
  constructor
  · exact fun h => (reachWithin_sound h).resolve_left List.not_mem_nil
  · rintro ⟨v, hv, hl⟩
    induction hl with
    | here hid => exact hvalues v hv hid
    | through _ found ho ih => exact hclosed _ ih List.not_mem_nil _ found ho

end LazyGraph.Json
