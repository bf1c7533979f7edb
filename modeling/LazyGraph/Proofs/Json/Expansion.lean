import LazyGraph.Proofs.Json.References

/-!
Expansion of references: what it depends on, and which values it leaves as they are.
-/
namespace LazyGraph.Json

/-! ### Values in the place of references -/

theorem replaceInItems_eq_map (f : String → Option Json) (items : List Json) :
    replaceInItems f items = items.map (replaceReferences f) := by
  induction items with
  | nil => rfl
  | cons v items ih => rw [replaceInItems, ih, List.map_cons]

theorem replaceInFields_eq_map (f : String → Option Json) (fs : List (String × Json)) :
    replaceInFields f fs = fs.map fun p => (p.1, p.2.replaceReferences f) := by
  induction fs with
  | nil => rfl
  | cons p fs ih => rw [replaceInFields, ih, List.map_cons]

/-- What takes the place of other references than those of a value does not matter. -/
theorem replaceReferences_congr {f g : String → Option Json} {v : Json}
    (h : ∀ id ∈ v.references, f id = g id) :
    v.replaceReferences f = v.replaceReferences g := by
  induction v using Json.induction with
  | null => rfl
  | bool b => rfl
  | number n => rfl
  | string s => rfl
  | array items ih =>
      rw [references_array] at h
      rw [replaceReferences, replaceReferences, replaceInItems_eq_map, replaceInItems_eq_map]
      refine congrArg Json.array (List.map_congr_left fun v hv => ih v hv fun id hid => ?_)
      exact h id (mem_referencesInItems.mpr ⟨v, hv, hid⟩)
  | object fs ih =>
      rw [replaceReferences, replaceReferences]
      cases hr : referenceIn? fs with
      | some id =>
          have hid : id ∈ (Json.object fs).references := by
            rw [references, hr]
            exact List.mem_cons_self
          simp only [h id hid]
      | none =>
          rw [references_object hr] at h
          simp only [replaceInFields_eq_map]
          refine congrArg Json.object (List.map_congr_left fun p hp => ?_)
          refine congrArg (Prod.mk p.1) (ih p hp fun id hid => h id ?_)
          exact mem_referencesInFields.mpr ⟨p, hp, hid⟩

theorem replaceReferences_none (v : Json) : v.replaceReferences (fun _ => none) = v := by
  induction v using Json.induction with
  | null => rfl
  | bool b => rfl
  | number n => rfl
  | string s => rfl
  | array items ih =>
      rw [replaceReferences, replaceInItems_eq_map]
      exact congrArg Json.array ((List.map_congr_left ih).trans (List.map_id' items))
  | object fs ih =>
      rw [replaceReferences]
      cases referenceIn? fs with
      | some id => rfl
      | none =>
          simp only [replaceInFields_eq_map]
          have hsame : ∀ p ∈ fs, (p.1, p.2.replaceReferences fun _ => none) = p :=
            fun p hp => congrArg (Prod.mk p.1) (ih p hp)
          exact congrArg Json.object ((List.map_congr_left hsame).trans (List.map_id' fs))

/-! ### Expansion -/

theorem unseen_cons_lt {table : ObjectTable} {opened : List String} {id : String}
    (ho : id ∉ opened) (hk : id ∈ Fields.keys table) :
    (unseen table (id :: opened)).length < (unseen table opened).length := by
  have hsame : unseen table (id :: opened) = unseen table (opened ++ [id]) := by
    refine List.filter_congr fun other _ => ?_
    simp [Bool.and_comm]
  rw [hsame]
  exact unseen_append_lt List.mem_cons_self ho hk

/-- With enough fuel, expansion depends on the objects that the value leads to, and not on the rest
of the table. Every reference that is opened leaves fewer identities of either table to open. -/
theorem expandWithin_congr {table other : ObjectTable} {fuel fuel' : Nat} {opened : List String}
    {v : Json} (same : ∀ id, Leads table v id → Fields.get? other id = Fields.get? table id)
    (h : (unseen table opened).length < fuel) (h' : (unseen other opened).length < fuel') :
    expandWithin other fuel' opened v = expandWithin table fuel opened v := by
  induction fuel generalizing fuel' opened v with
  | zero => exact absurd h (Nat.not_lt_zero _)
  | succ fuel ih =>
      cases fuel' with
      | zero => exact absurd h' (Nat.not_lt_zero _)
      | succ fuel' =>
          rw [expandWithin, expandWithin]
          refine replaceReferences_congr fun id hid => ?_
          by_cases ho : id ∈ opened
          · simp only [List.contains_eq_mem, ho, decide_true, if_true]
          · simp only [List.contains_eq_mem, ho, decide_false, Bool.false_eq_true, if_false]
            rw [same id (.here hid)]
            cases hu : Fields.get? table id with
            | none => rfl
            | some u =>
                have hkeys := Fields.mem_keys_of_mem (Fields.mem_of_get? hu)
                have hother : id ∈ Fields.keys other :=
                  Fields.mem_keys_of_mem (Fields.mem_of_get? ((same id (.here hid)).trans hu))
                refine congrArg some (ih (fun next hl => same next (hl.descend hid hu)) ?_ ?_)
                · exact Nat.lt_of_lt_of_le (unseen_cons_lt ho hkeys) (Nat.lt_succ_iff.mp h)
                · exact Nat.lt_of_lt_of_le (unseen_cons_lt ho hother) (Nat.lt_succ_iff.mp h')

theorem expand_congr {table other : ObjectTable} {v : Json}
    (same : ∀ id, Leads table v id → Fields.get? other id = Fields.get? table id) :
    v.expand other = v.expand table :=
  expandWithin_congr same (unseen_length_lt table []) (unseen_length_lt other [])

/-- A value with no object that has the key of references stays as it is. -/
theorem Plain.expand {v : Json} (h : v.Plain) (table : ObjectTable) : v.expand table = v := by
  rw [Json.expand, expandWithin]
  have hnone : v.Grounded fun _ => False := h.grounded
  exact (replaceReferences_congr fun id hid => (hnone.references id hid).elim).trans
    (replaceReferences_none v)

end LazyGraph.Json
