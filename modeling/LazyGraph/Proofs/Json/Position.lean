import LazyGraph.Cache.Position
import LazyGraph.Proofs.Json.References

/-!
Values at a position and their changes: what a change puts in place, and that it keeps objects
with the key of references apart from those that have members of their own.
-/
namespace LazyGraph.Json

variable {ids : String → Prop}

/-! ### The way down -/

theorem walk?_cons (v : Json) (segment : String) (rest : List String) :
    v.walk? (segment :: rest) = (v.step? segment).bind (walk? · rest) := rfl

theorem walk?_append (v : Json) (path rest : List String) :
    v.walk? (path ++ rest) = (v.walk? path).bind (walk? · rest) := by
  induction path generalizing v with
  | nil => rfl
  | cons segment path ih =>
      rw [List.cons_append, walk?_cons, walk?_cons, Option.bind_assoc]
      exact congrArg _ (funext fun u => ih u)

theorem walk?_singleton (v : Json) (segment : String) : v.walk? [segment] = v.step? segment := by
  rw [walk?_cons]
  exact Option.bind_fun_some _

theorem Grounded.step? {v u : Json} {segment : String} (h : Grounded ids v)
    (hs : v.step? segment = some u) : Grounded ids u := by
  cases v with
  | object fs => exact (everywhere_object.mp h).2 (segment, u) (Fields.mem_of_get? hs)
  | array items =>
      obtain ⟨i, _, hi⟩ := Option.bind_eq_some_iff.mp hs
      exact grounded_array.mp h u (List.mem_of_getElem? hi)
  | null => cases hs
  | bool b => cases hs
  | number n => cases hs
  | string s => cases hs

/-- The references below a value are among its own. -/
theorem references_of_walk? {v u : Json} {path : List String} (hw : v.walk? path = some u)
    {id : String} (hid : id ∈ u.references) : id ∈ v.references := by
  induction path generalizing v with
  | nil =>
      cases hw
      exact hid
  | cons segment path ih =>
      obtain ⟨w, hs, hw⟩ := Option.bind_eq_some_iff.mp hw
      have hbelow := ih hw
      cases v with
      | object fs =>
          cases hr : referenceIn? fs with
          | none =>
              rw [references_object hr]
              exact mem_referencesInFields.mpr ⟨_, Fields.mem_of_get? hs, hbelow⟩
          | some other =>
              rw [referenceIn?_eq_some_iff.mp hr, Json.step?, Fields.get?_cons] at hs
              split at hs <;> cases hs
              exact absurd hbelow List.not_mem_nil
      | array items =>
          obtain ⟨i, _, hi⟩ := Option.bind_eq_some_iff.mp hs
          rw [references_array]
          exact mem_referencesInItems.mpr ⟨w, List.mem_of_getElem? hi, hbelow⟩
      | null => cases hs
      | bool b => cases hs
      | number n => cases hs
      | string s => cases hs

/-- A reference has no way down but by its key. -/
theorem step?_reference {id segment : String} (h : segment ≠ referenceKey) :
    (reference id).step? segment = none := by
  rw [reference, Json.step?, Fields.get?_cons, if_neg h.symm, Fields.get?_nil]

/-! ### Changes one segment down -/

/-- The object or the array that has a value in place of the one a segment down. -/
theorem alter?_cases {v w : Json} {segment : String} {f : Json → Option Json}
    (h : v.alter? segment f = some w) :
    ∃ u u', v.step? segment = some u ∧ f u = some u' ∧
      ((∃ fs, v = .object fs ∧ w = .object (Fields.insert fs segment u')) ∨
      (∃ items i, v = .array items ∧ Text.index? segment = some i ∧ i < items.length ∧
        w = .array (items.set i u'))) := by
  cases v with
  | object fs =>
      obtain ⟨u, hu, h⟩ := Option.bind_eq_some_iff.mp h
      obtain ⟨u', hf, h⟩ := Option.bind_eq_some_iff.mp h
      exact ⟨u, u', hu, hf, .inl ⟨fs, rfl, (Option.some.inj h).symm⟩⟩
  | array items =>
      obtain ⟨i, hi, h⟩ := Option.bind_eq_some_iff.mp h
      obtain ⟨u, hu, h⟩ := Option.bind_eq_some_iff.mp h
      obtain ⟨u', hf, h⟩ := Option.bind_eq_some_iff.mp h
      obtain ⟨hlt, _⟩ := List.getElem?_eq_some_iff.mp hu
      refine ⟨u, u', ?_, hf, .inr ⟨items, i, rfl, hi, hlt, (Option.some.inj h).symm⟩⟩
      rw [Json.step?, hi]
      exact hu
  | null => cases h
  | bool b => cases h
  | number n => cases h
  | string s => cases h

theorem alter?_of_step? {v u u' : Json} {segment : String} {f : Json → Option Json}
    (hs : v.step? segment = some u) (hf : f u = some u') :
    ∃ w, v.alter? segment f = some w ∧ w.step? segment = some u' := by
  cases v with
  | object fs =>
      refine ⟨.object (Fields.insert fs segment u'), ?_, Fields.get?_insert_self fs segment u'⟩
      rw [Json.step?] at hs
      simp only [alter?, hs, hf, Option.bind_eq_bind, Option.bind_some]
  | array items =>
      obtain ⟨i, hi, hu⟩ := Option.bind_eq_some_iff.mp hs
      obtain ⟨hlt, _⟩ := List.getElem?_eq_some_iff.mp hu
      refine ⟨.array (items.set i u'), ?_, ?_⟩
      · simp only [alter?, hi, hu, hf, Option.bind_eq_bind, Option.bind_some]
      · rw [Json.step?, hi, Option.bind_some, List.getElem?_set_self hlt]
  | null => cases hs
  | bool b => cases hs
  | number n => cases hs
  | string s => cases hs

theorem Grounded.set {items : List Json} {i : Nat} {u : Json} (h : Grounded ids (.array items))
    (hu : Grounded ids u) : Grounded ids (.array (items.set i u)) := by
  rw [grounded_array] at h ⊢
  intro v hv
  rcases List.mem_or_eq_of_mem_set hv with hv | rfl
  · exact h v hv
  · exact hu

theorem Grounded.insert {fs : List (String × Json)} {key : String} {u : Json}
    (h : Grounded ids (.object fs)) (hr : referenceKey ∉ Fields.keys fs)
    (hk : key ≠ referenceKey) (hu : Grounded ids u) :
    Grounded ids (.object (Fields.insert fs key u)) := by
  have hki : referenceKey ∉ Fields.keys (Fields.insert fs key u) := fun hm =>
    (Fields.mem_keys_insert.mp hm).elim (fun e => hk e.symm) hr
  rw [grounded_object hki]
  intro p hp
  rcases Fields.mem_of_mem_insert hp with rfl | hp
  · exact hu
  · exact (grounded_object hr).mp h p hp

theorem Grounded.alter? {v w : Json} {segment : String} {f : Json → Option Json}
    (h : Grounded ids v) (hk : segment ≠ referenceKey) (ha : v.alter? segment f = some w)
    (hf : ∀ u u', v.step? segment = some u → f u = some u' → Grounded ids u') :
    Grounded ids w := by
  obtain ⟨u, u', hs, hu, ⟨fs, rfl, rfl⟩ | ⟨items, i, rfl, _, _, rfl⟩⟩ := alter?_cases ha
  · rcases h.object_cases with ⟨id, _, rfl⟩ | ⟨hr, _⟩
    · rw [← reference, step?_reference hk] at hs
      cases hs
    · exact h.insert hr hk (hf u u' hs hu)
  · exact h.set (hf u u' hs hu)

theorem Grounded.put? {v w value : Json} {segment : String} (h : Grounded ids v)
    (hr : v.referenceId? = none) (hk : segment ≠ referenceKey) (hv : Grounded ids value)
    (hp : v.put? segment value = some w) : Grounded ids w := by
  cases v with
  | object fs =>
      cases hp
      exact h.insert (h.not_mem_keys hr) hk hv
  | array items =>
      simp only [Json.put?] at hp
      split at hp
      · split at hp
        · cases hp
          exact h.set hv
        · split at hp
          · cases hp
            rw [grounded_array] at h ⊢
            intro u hu
            rcases List.mem_append.mp hu with hu | hu
            · exact h u hu
            · rw [List.mem_singleton.mp hu]
              exact hv
          · cases hp
      · cases hp
  | null => cases hp
  | bool b => cases hp
  | number n => cases hp
  | string s => cases hp

theorem Grounded.drop? {v w : Json} {segment : String} (h : Grounded ids v)
    (hk : segment ≠ referenceKey) (hd : v.drop? segment = some w) : Grounded ids w := by
  cases v with
  | object fs =>
      simp only [Json.drop?] at hd
      split at hd
      · rename_i hc
        cases hd
        rcases h.object_cases with ⟨id, _, rfl⟩ | ⟨hr, hparts⟩
        · exact absurd (List.mem_singleton.mp (Fields.contains_iff.mp hc)) hk
        · have hre : referenceKey ∉ Fields.keys (Fields.erase fs segment) := fun hm => by
            obtain ⟨p, hp, e⟩ := List.mem_map.mp hm
            exact hr (e ▸ Fields.mem_keys_of_mem (Fields.mem_erase.mp hp).1)
          rw [grounded_object hre]
          exact fun p hp => hparts p (Fields.mem_erase.mp hp).1
      · cases hd
  | array items =>
      simp only [Json.drop?] at hd
      split at hd
      · split at hd
        · cases hd
          exact h.set trivial
        · cases hd
      · cases hd
  | null => cases hd
  | bool b => cases hd
  | number n => cases hd
  | string s => cases hd

/-! ### Changes at the end of a way down -/

theorem writeAt?_cons (v value : Json) (segment : String) {rest : List String} (h : rest ≠ []) :
    v.writeAt? value (segment :: rest) = v.alter? segment fun u => u.writeAt? value rest := by
  cases rest with
  | nil => exact absurd rfl h
  | cons next rest => rfl

/-- A write keeps a value grounded, if the parent of its position is not a reference. -/
theorem Grounded.writeAt? {v w value : Json} {path : List String} (h : Grounded ids v)
    (hk : referenceKey ∉ path) (hv : Grounded ids value)
    (hr : ∀ u, v.walk? path.dropLast = some u → u.referenceId? = none)
    (hw : v.writeAt? value path = some w) : Grounded ids w := by
  induction path generalizing v w with
  | nil =>
      cases hw
      exact hv
  | cons segment rest ih =>
      rw [List.mem_cons, not_or] at hk
      cases rest with
      | nil => exact h.put? (hr v rfl) (Ne.symm hk.1) hv hw
      | cons next rest =>
          refine h.alter? (Ne.symm hk.1) hw fun u u' hs hu => ?_
          refine ih (h.step? hs) hk.2 (fun t ht => hr t ?_) hu
          rw [List.dropLast_cons_cons, walk?_cons, hs]
          exact ht

theorem Grounded.removeAt? {v w : Json} {path : List String} (h : Grounded ids v)
    (hk : referenceKey ∉ path) (hw : v.removeAt? path = some w) : Grounded ids w := by
  induction path generalizing v w with
  | nil => cases hw
  | cons segment rest ih =>
      rw [List.mem_cons, not_or] at hk
      cases rest with
      | nil => exact h.drop? (Ne.symm hk.1) hw
      | cons next rest =>
          exact h.alter? (Ne.symm hk.1) hw fun u u' hs hu => ih (h.step? hs) hk.2 hu

theorem Grounded.removeAt {v : Json} {path : List String} (h : Grounded ids v)
    (hk : referenceKey ∉ path) : Grounded ids (v.removeAt path) := by
  rw [Json.removeAt]
  cases hw : v.removeAt? path with
  | none => exact h
  | some w => exact h.removeAt? hk hw

/-- A write below a reference gives it a member beside its key. -/
theorem writeAt?_below_reference (ids : String → Prop) (value : Json) {v : Json}
    {parents : List String} {id last : String}
    (hw : v.walk? parents = some (reference id)) (hk : last ≠ referenceKey) :
    ∃ w, v.writeAt? value (parents ++ [last]) = some w ∧ ¬ Grounded ids w := by
  induction parents generalizing v with
  | nil =>
      cases hw
      refine ⟨.object (Fields.insert [(referenceKey, .string id)] last value), rfl, fun h => ?_⟩
      rcases h.object_cases with ⟨other, _, he⟩ | ⟨hr, _⟩
      · have hm := Fields.mem_insert_self [(referenceKey, Json.string id)] last value
        rw [he] at hm
        exact hk (congrArg Prod.fst (List.mem_singleton.mp hm))
      · exact hr (Fields.mem_keys_insert.mpr (.inr List.mem_cons_self))
  | cons segment parents ih =>
      obtain ⟨u, hs, hu⟩ := Option.bind_eq_some_iff.mp hw
      obtain ⟨u', hu', hg⟩ := ih hu
      obtain ⟨w, ha, hsw⟩ :=
        alter?_of_step? (f := fun u => u.writeAt? value (parents ++ [last])) hs hu'
      refine ⟨w, ?_, fun h => hg (h.step? hsw)⟩
      rw [List.cons_append, writeAt?_cons v value segment (List.append_ne_nil_of_right_ne_nil _
        (List.cons_ne_nil last []))]
      exact ha

/-! ### Objects that are not references -/

/-- An object with members of its own. -/
def IsEntry (v : Json) : Prop := ∃ fs, v = .object fs ∧ referenceKey ∉ Fields.keys fs

theorem IsEntry.referenceId? {v : Json} (h : IsEntry v) : v.referenceId? = none := by
  obtain ⟨fs, rfl, hk⟩ := h
  exact referenceIn?_eq_none hk

theorem IsEntry.insert {fs : List (String × Json)} {key : String} {u : Json}
    (h : referenceKey ∉ Fields.keys fs) (hk : key ≠ referenceKey) :
    IsEntry (.object (Fields.insert fs key u)) :=
  ⟨_, rfl, fun hm => (Fields.mem_keys_insert.mp hm).elim (fun e => hk e.symm) h⟩

theorem IsEntry.alter? {v w : Json} {segment : String} {f : Json → Option Json} (h : IsEntry v)
    (hk : segment ≠ referenceKey) (ha : v.alter? segment f = some w) : IsEntry w := by
  obtain ⟨fs, rfl, hr⟩ := h
  obtain ⟨u, u', _, _, ⟨gs, he, rfl⟩ | ⟨items, i, he, _⟩⟩ := alter?_cases ha
  · cases he
    exact .insert hr hk
  · cases he

theorem IsEntry.writeAt? {v w value : Json} {path : List String} (h : IsEntry v)
    (hn : path ≠ []) (hk : referenceKey ∉ path) (hw : v.writeAt? value path = some w) :
    IsEntry w := by
  cases path with
  | nil => exact absurd rfl hn
  | cons segment rest =>
      rw [List.mem_cons, not_or] at hk
      cases rest with
      | nil =>
          obtain ⟨fs, rfl, hr⟩ := h
          cases hw
          exact .insert hr (Ne.symm hk.1)
      | cons next rest => exact h.alter? (Ne.symm hk.1) hw

theorem IsEntry.removeAt? {v w : Json} {path : List String} (h : IsEntry v)
    (hk : referenceKey ∉ path) (hw : v.removeAt? path = some w) : IsEntry w := by
  cases path with
  | nil => cases hw
  | cons segment rest =>
      rw [List.mem_cons, not_or] at hk
      cases rest with
      | nil =>
          obtain ⟨fs, rfl, hr⟩ := h
          simp only [Json.removeAt?, Json.drop?] at hw
          split at hw
          · cases hw
            refine ⟨_, rfl, fun hm => ?_⟩
            obtain ⟨p, hp, e⟩ := List.mem_map.mp hm
            exact hr (e ▸ Fields.mem_keys_of_mem (Fields.mem_erase.mp hp).1)
          · cases hw
      | cons next rest => exact h.alter? (Ne.symm hk.1) hw

theorem IsEntry.removeAt {v : Json} {path : List String} (h : IsEntry v)
    (hk : referenceKey ∉ path) : IsEntry (v.removeAt path) := by
  rw [Json.removeAt]
  cases hw : v.removeAt? path with
  | none => exact h
  | some w => exact h.removeAt? hk hw

end LazyGraph.Json
