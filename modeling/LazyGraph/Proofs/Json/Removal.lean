import LazyGraph.Proofs.Json.Position

/-!
Taking values away from ordered values. The order of the removals does not matter, and taking away
what was put where nothing stood leaves the value that was there before.
-/
namespace LazyGraph.Json

/-- The members of all objects in a value stand in the order of their keys. -/
def InOrder (v : Json) : Prop := v.Everywhere Fields.Ascending

instance (v : Json) : Decidable v.InOrder := inferInstanceAs (Decidable (v.Everywhere _))

variable {v w : Json} {fs : Fields Json} {items : List Json} {segment : String}
  {path rest : List String}

theorem inOrder_object :
    InOrder (.object fs) ↔ Fields.Ascending fs ∧ ∀ p ∈ fs, InOrder p.2 := everywhere_object

theorem inOrder_array : InOrder (.array items) ↔ ∀ v ∈ items, InOrder v := everywhere_array

theorem InOrder.get? (h : InOrder (.object fs)) {key : String} (hv : Fields.get? fs key = some v) :
    v.InOrder := (inOrder_object.mp h).2 _ (Fields.mem_of_get? hv)

theorem InOrder.getElem? (h : InOrder (.array items)) {i : Nat} (hv : items[i]? = some v) :
    v.InOrder := inOrder_array.mp h v (List.mem_of_getElem? hv)

theorem InOrder.insert (h : InOrder (.object fs)) (key : String) (hv : v.InOrder) :
    InOrder (.object (Fields.insert fs key v)) := by
  obtain ⟨hascending, hparts⟩ := inOrder_object.mp h
  apply inOrder_object.mpr
  refine ⟨hascending.insert key v, fun p hp => ?_⟩
  rcases Fields.mem_of_mem_insert hp with rfl | hp
  · exact hv
  · exact hparts p hp

theorem InOrder.set (h : InOrder (.array items)) (i : Nat) (hv : v.InOrder) :
    InOrder (.array (items.set i v)) := by
  apply inOrder_array.mpr
  intro u hu
  rcases List.mem_or_eq_of_mem_set hu with hu | rfl
  · exact inOrder_array.mp h u hu
  · exact hv

theorem InOrder.alter? {f : Json → Option Json} (h : v.InOrder) (ha : v.alter? segment f = some w)
    (hf : ∀ u u', v.step? segment = some u → u.InOrder → f u = some u' → u'.InOrder) :
    w.InOrder := by
  obtain ⟨u, u', hs, hu, ⟨fs, rfl, rfl⟩ | ⟨items, i, rfl, hi, _, rfl⟩⟩ := alter?_cases ha
  · exact h.insert segment (hf u u' hs (h.get? hs) hu)
  · have hitem : items[i]? = some u := by
      rw [Json.step?, hi] at hs
      exact hs
    exact h.set i (hf u u' hs (h.getElem? hitem) hu)

theorem InOrder.writeAt? {value : Json} (h : v.InOrder) (hvalue : value.InOrder)
    (hw : v.writeAt? value path = some w) : w.InOrder := by
  induction path generalizing v w with
  | nil =>
      cases hw
      exact hvalue
  | cons segment rest ih =>
      cases rest with
      | cons next rest => exact h.alter? hw fun u u' _ hu hu' => ih hu hu'
      | nil =>
          cases v with
          | object fs =>
              cases hw
              exact h.insert segment hvalue
          | array items =>
              simp only [Json.writeAt?, put?] at hw
              split at hw
              · split at hw
                · cases hw
                  exact h.set _ hvalue
                · split at hw
                  · cases hw
                    apply inOrder_array.mpr
                    intro u hu
                    rcases List.mem_append.mp hu with hu | hu
                    · exact inOrder_array.mp h u hu
                    · rw [List.mem_singleton.mp hu]
                      exact hvalue
                  · cases hw
              · cases hw
          | _ => cases hw

/-! ### What is left of objects and arrays -/

theorem removeAt_cons_of_alter? (h : rest ≠ []) :
    v.removeAt (segment :: rest) = (v.alter? segment fun u => u.removeAt? rest).getD v := by
  cases rest with
  | nil => exact absurd rfl h
  | cons next rest => rfl

/-- What stands under the key at which a way goes on has its part taken away, and what stands at the
last key of a way is gone. -/
theorem object_removeAt (h : Fields.Ascending fs) (segment : String) (rest : List String) :
    ∃ gs, (Json.object fs).removeAt (segment :: rest) = .object gs ∧ Fields.Ascending gs ∧
      ∀ key, Fields.get? gs key = if key = segment then
        (if rest = [] then none else (Fields.get? fs key).map (·.removeAt rest))
        else Fields.get? fs key := by
  cases rest with
  | nil =>
      have herase : ∀ key, Fields.get? (Fields.erase fs segment) key =
          if key = segment then none else Fields.get? fs key := by
        intro key
        have hfilter := Fields.get?_filter (· != segment) fs key
        simp only [Fields.erase, hfilter, bne_iff_ne, ite_not]
      simp only [removeAt, removeAt?, drop?]
      split
      · exact ⟨_, rfl, h.filter _, herase⟩
      · rename_i habsent
        refine ⟨fs, rfl, h, fun key => ?_⟩
        split
        · rename_i hkey
          subst hkey
          exact Option.not_isSome_iff_eq_none.mp habsent
        · rfl
  | cons next rest =>
      rw [removeAt_cons_of_alter? (List.cons_ne_nil next rest), alter?]
      simp only [List.cons_ne_nil, if_false]
      cases hu : Fields.get? fs segment with
      | none =>
          refine ⟨fs, rfl, h, fun key => ?_⟩
          split
          · rename_i hkey
            rw [hkey, hu]
            rfl
          · rfl
      | some u =>
          cases hu' : u.removeAt? (next :: rest) with
          | none =>
              refine ⟨fs, by simp [hu'], h, fun key => ?_⟩
              split
              · rename_i hkey
                rw [hkey, hu, Option.map_some, removeAt, hu']
                rfl
              · rfl
          | some u' =>
              refine ⟨Fields.insert fs segment u', by simp [hu'], h.insert segment u', fun key => ?_⟩
              rw [Fields.get?_insert]
              split
              · rename_i hkey
                rw [hkey, hu, Option.map_some, removeAt, hu']
                rfl
              · rfl

/-- What is left of an item at the end of a way. -/
def emptied : List String → Json → Json
  | [], _ => .null
  | segment :: rest, u => u.removeAt (segment :: rest)

/-- The item at which a way goes on has its part taken away, and null stands for one at the end of a
way. -/
theorem array_removeAt (items : List Json) (segment : String) (rest : List String) :
    ∃ left, (Json.array items).removeAt (segment :: rest) = .array left ∧
      ∀ i, left[i]? = if Text.index? segment = some i then items[i]?.map (emptied rest)
        else items[i]? := by
  have hset : ∀ (i : Nat) (u : Json) (f : Json → Json), items[i]? = some u → ∀ j,
      (items.set i (f u))[j]? = if some i = some j then items[j]?.map f else items[j]? := by
    intro i u f hu j
    rw [List.getElem?_set]
    by_cases hij : i = j
    · subst hij
      obtain ⟨hlt, _⟩ := List.getElem?_eq_some_iff.mp hu
      rw [if_pos rfl, if_pos hlt, if_pos rfl, hu]
      rfl
    · rw [if_neg hij, if_neg fun e => hij (Option.some.inj e)]
  have hsame : (∀ i, Text.index? segment = some i → items[i]?.map (emptied rest) = items[i]?) →
      ∀ i, items[i]? = if Text.index? segment = some i then items[i]?.map (emptied rest)
        else items[i]? := by
    intro hkept i
    split
    · exact (hkept i ‹_›).symm
    · rfl
  cases rest with
  | nil =>
      simp only [removeAt, removeAt?, drop?]
      cases hi : Text.index? segment with
      | none => exact ⟨items, rfl, hi ▸ hsame fun i he => by rw [hi] at he; cases he⟩
      | some i =>
          simp only
          split
          · rename_i hlt
            exact ⟨_, rfl, hset i items[i] (emptied []) (List.getElem?_eq_getElem hlt)⟩
          · rename_i hout
            refine ⟨items, rfl, hi ▸ hsame fun j he => ?_⟩
            obtain rfl := Option.some.inj (hi.symm.trans he)
            rw [List.getElem?_eq_none (Nat.not_lt.mp hout)]
            rfl
  | cons next rest =>
      rw [removeAt_cons_of_alter? (List.cons_ne_nil next rest), alter?]
      cases hi : Text.index? segment with
      | none => exact ⟨items, rfl, hi ▸ hsame fun i he => by rw [hi] at he; cases he⟩
      | some i =>
          cases hu : items[i]? with
          | none =>
              refine ⟨items, by simp [hu], hi ▸ hsame fun j he => ?_⟩
              obtain rfl := Option.some.inj (hi.symm.trans he)
              rw [hu]
              rfl
          | some u =>
              cases hu' : u.removeAt? (next :: rest) with
              | none =>
                  refine ⟨items, by simp [hu, hu'], hi ▸ hsame fun j he => ?_⟩
                  obtain rfl := Option.some.inj (hi.symm.trans he)
                  rw [hu, Option.map_some, emptied, removeAt, hu']
                  rfl
              | some u' =>
                  have hemptied : emptied (next :: rest) u = u' := by
                    rw [emptied, removeAt, hu']
                    rfl
                  refine ⟨items.set i u', by simp [hu, hu'], ?_⟩
                  rw [← hemptied]
                  exact hset i u _ hu

theorem removeAt_of_scalar (hobject : v.asObject? = none) (harray : v.asArray? = none)
    (path : List String) : v.removeAt path = v := by
  cases path with
  | nil => rfl
  | cons segment rest =>
      cases v with
      | object fs => cases hobject
      | array items => cases harray
      | _ => cases rest <;> rfl

theorem emptied_null (path : List String) : emptied path .null = .null := by
  cases path with
  | nil => rfl
  | cons segment rest => exact removeAt_of_scalar rfl rfl _

theorem InOrder.removeAt (h : v.InOrder) (path : List String) : (v.removeAt path).InOrder := by
  induction path generalizing v with
  | nil => exact h
  | cons segment rest ih =>
      cases v with
      | object fs =>
          obtain ⟨hascending, hparts⟩ := inOrder_object.mp h
          obtain ⟨gs, hgs, hleft, hget⟩ := object_removeAt hascending segment rest
          rw [hgs]
          apply inOrder_object.mpr
          refine ⟨hleft, fun p hp => ?_⟩
          have hvalue := hget p.1
          rw [hleft.get?_of_mem hp] at hvalue
          split at hvalue
          · split at hvalue
            · cases hvalue
            · obtain ⟨u, hu, hp⟩ := Option.map_eq_some_iff.mp hvalue.symm
              rw [← hp]
              exact ih (h.get? hu)
          · exact h.get? hvalue.symm
      | array items =>
          obtain ⟨left, hleft, hget⟩ := array_removeAt items segment rest
          rw [hleft]
          apply inOrder_array.mpr
          intro w hw
          obtain ⟨i, hi⟩ := List.mem_iff_getElem?.mp hw
          have hvalue := hget i
          rw [hi] at hvalue
          split at hvalue
          · obtain ⟨u, hu, rfl⟩ := Option.map_eq_some_iff.mp hvalue.symm
            cases rest with
            | nil => trivial
            | cons next rest => exact ih (h.getElem? hu)
          · exact h.getElem? hvalue.symm
      | _ =>
          rw [removeAt_of_scalar rfl rfl]
          exact h

/-! ### The order of removals -/

/-- Two changes, each made on a condition, change places if they do where both are made. -/
theorem ite_change_comm {α : Type} {p q : Prop} [Decidable p] [Decidable q] (f g : α → α) {a : α}
    (h : p → q → g (f a) = f (g a)) :
    (if q then g (if p then f a else a) else if p then f a else a) =
      if p then f (if q then g a else a) else if q then g a else a := by
  by_cases hp : p
  · by_cases hq : q
    · simp only [if_pos hp, if_pos hq, h hp hq]
    · simp only [if_pos hp, if_neg hq]
  · simp only [if_neg hp]

/-- It does not matter which of two values is taken away first. -/
theorem removeAt_comm (h : v.InOrder) (path other : List String) :
    (v.removeAt path).removeAt other = (v.removeAt other).removeAt path := by
  induction path generalizing v other with
  | nil => rfl
  | cons segment rest ih =>
      cases other with
      | nil => rfl
      | cons segment' rest' =>
          cases v with
          | object fs =>
              have hascending := (inOrder_object.mp h).1
              obtain ⟨gs, hgs, hga, hg⟩ := object_removeAt hascending segment rest
              obtain ⟨gs', hgs', hga', hg'⟩ := object_removeAt hascending segment' rest'
              obtain ⟨ks, hks, hka, hk⟩ := object_removeAt hga segment' rest'
              obtain ⟨ks', hks', hka', hk'⟩ := object_removeAt hga' segment rest
              rw [hgs, hgs', hks, hks']
              refine congrArg Json.object (hka.ext hka' fun key => ?_)
              rw [hk, hk', hg, hg']
              refine ite_change_comm (p := key = segment) (q := key = segment')
                (fun held : Option Json => if rest = [] then none else held.map (·.removeAt rest))
                (fun held => if rest' = [] then none else held.map (·.removeAt rest'))
                fun _ _ => ?_
              by_cases hrest : rest = []
              · by_cases hrest' : rest' = [] <;> simp [hrest, hrest']
              · by_cases hrest' : rest' = []
                · simp [hrest, hrest']
                · simp only [if_neg hrest, if_neg hrest']
                  cases hu : Fields.get? fs key with
                  | none => rfl
                  | some u => exact congrArg some (ih (h.get? hu) rest')
          | array items =>
              obtain ⟨left, hleft, hl⟩ := array_removeAt items segment rest
              obtain ⟨left', hleft', hl'⟩ := array_removeAt items segment' rest'
              obtain ⟨both, hboth, hb⟩ := array_removeAt left segment' rest'
              obtain ⟨both', hboth', hb'⟩ := array_removeAt left' segment rest
              rw [hleft, hleft', hboth, hboth']
              refine congrArg Json.array (List.ext_getElem? fun i => ?_)
              rw [hb, hb', hl, hl']
              refine ite_change_comm (Option.map (emptied rest)) (Option.map (emptied rest'))
                fun _ _ => ?_
              cases hu : items[i]? with
              | none => rfl
              | some u =>
                  refine congrArg some ?_
                  cases rest with
                  | nil => exact emptied_null rest'
                  | cons next rest =>
                      cases rest' with
                      | nil => exact (emptied_null (next :: rest)).symm
                      | cons next' rest' => exact ih (h.getElem? hu) (next' :: rest')
          | _ => cases rest <;> cases rest' <;> rfl

theorem drop?_isSome_iff : (v.drop? segment).isSome ↔ (v.step? segment).isSome := by
  cases v with
  | object fs =>
      have hstep : (Json.object fs).step? segment = Fields.get? fs segment := rfl
      rw [drop?, hstep]
      split
      · exact iff_of_true rfl ‹_›
      · exact iff_of_false Bool.false_ne_true ‹_›
  | array items =>
      rw [drop?, step?]
      cases Text.index? segment with
      | none => rfl
      | some i =>
          simp only [Option.bind_some]
          split
          · rw [List.getElem?_eq_getElem ‹_›]
            exact Iff.rfl
          · rw [List.getElem?_eq_none (Nat.not_lt.mp ‹_›)]
  | _ => rfl

/-- What can be taken away is what stands at the end of a way, the whole value apart. -/
theorem removeAt?_isSome_iff (hne : path ≠ []) :
    (v.removeAt? path).isSome ↔ (v.walk? path).isSome := by
  induction path generalizing v with
  | nil => exact absurd rfl hne
  | cons segment rest ih =>
      cases rest with
      | nil =>
          rw [walk?_singleton]
          exact drop?_isSome_iff
      | cons next rest =>
          rw [walk?_cons]
          constructor
          · intro h
            obtain ⟨w, hw⟩ := Option.isSome_iff_exists.mp h
            obtain ⟨u, u', hs, hu, _⟩ := alter?_cases hw
            rw [hs, Option.bind_some]
            exact (ih (List.cons_ne_nil next rest)).mp (Option.isSome_of_eq_some hu)
          · intro h
            obtain ⟨t, ht⟩ := Option.isSome_iff_exists.mp h
            obtain ⟨u, hs, hbelow⟩ := Option.bind_eq_some_iff.mp ht
            have hremoved := (ih (List.cons_ne_nil next rest)).mpr (Option.isSome_of_eq_some hbelow)
            obtain ⟨u', hu⟩ := Option.isSome_iff_exists.mp hremoved
            obtain ⟨w, hw, _⟩ := alter?_of_step? (f := fun u => u.removeAt? (next :: rest)) hs hu
            exact Option.isSome_of_eq_some hw

/-- Nothing is taken away where nothing stands. -/
theorem removeAt_of_walk?_eq_none (h : v.walk? path = none) : v.removeAt path = v := by
  have hnone : v.removeAt? path = none := by
    cases path with
    | nil => rfl
    | cons segment rest =>
        rw [← Option.not_isSome_iff_eq_none, removeAt?_isSome_iff (List.cons_ne_nil segment rest), h]
        exact Bool.false_ne_true
  rw [removeAt, hnone]
  rfl

/-- A value put under a key where nothing stood can be taken away again. -/
theorem removeAt_of_put? {value : Json} (hv : v.InOrder) (hw : v.put? segment value = some w)
    (absent : v.step? segment = none) (hkey : Text.index? segment = none) :
    w.removeAt [segment] = v := by
  cases v with
  | object fs =>
      cases hw
      have hascending := (inOrder_object.mp hv).1
      obtain ⟨gs, hgs, hga, hg⟩ := object_removeAt (hascending.insert segment value) segment []
      rw [hgs]
      refine congrArg Json.object (hga.ext hascending fun key => ?_)
      rw [hg, Fields.get?_insert]
      split
      · rename_i he
        rw [he, if_pos rfl]
        exact absent.symm
      · rfl
  | array items =>
      simp only [put?, hkey] at hw
      cases hw
  | _ => cases hw

/-- A change one segment down is taken back by what takes it back there. -/
theorem removeAt_of_alter? {f : Json → Option Json} (hv : v.InOrder)
    (ha : v.alter? segment f = some w) (hrest : rest ≠ [])
    (hback : ∀ u u', v.step? segment = some u → u.InOrder → f u = some u' → u'.removeAt rest = u) :
    w.removeAt (segment :: rest) = v := by
  obtain ⟨u, u', hs, hu, ⟨fs, rfl, rfl⟩ | ⟨items, i, rfl, hi, hlt, rfl⟩⟩ := alter?_cases ha
  · have hascending := (inOrder_object.mp hv).1
    obtain ⟨gs, hgs, hga, hg⟩ := object_removeAt (hascending.insert segment u') segment rest
    rw [hgs]
    refine congrArg Json.object (hga.ext hascending fun key => ?_)
    rw [hg, Fields.get?_insert]
    split
    · rename_i hkey
      rw [Option.map_some, hback u u' hs (hv.get? hs) hu, hkey]
      exact hs.symm
    · rfl
  · have hitem : items[i]? = some u := by
      rw [step?, hi] at hs
      exact hs
    obtain ⟨next, rest, rfl⟩ := List.exists_cons_of_ne_nil hrest
    obtain ⟨left, hleft, hl⟩ := array_removeAt (items.set i u') segment (next :: rest)
    rw [hleft]
    refine congrArg Json.array (List.ext_getElem? fun j => ?_)
    rw [hl, hi, List.getElem?_set]
    by_cases hij : i = j
    · subst hij
      rw [if_pos rfl, if_pos rfl, if_pos hlt, Option.map_some, hitem]
      exact congrArg some (hback u u' hs (hv.getElem? hitem) hu)
    · rw [if_neg fun e => hij (Option.some.inj e), if_neg hij]

/-- What was put at the end of a way, under a key where nothing stood, can be taken away again. -/
theorem removeAt_of_writeAt? {value : Json} (hv : v.InOrder) (hw : v.writeAt? value path = some w)
    (hne : path ≠ []) (absent : v.walk? path = none)
    (hlast : ∀ segment ∈ path.getLast?, Text.index? segment = none) : w.removeAt path = v := by
  induction path generalizing v w with
  | nil => exact absurd rfl hne
  | cons segment rest ih =>
      cases rest with
      | nil =>
          rw [walk?_singleton] at absent
          exact removeAt_of_put? hv hw absent (hlast segment rfl)
      | cons next rest =>
          refine removeAt_of_alter? hv hw (List.cons_ne_nil next rest) fun u u' hs ho hu => ?_
          rw [walk?_cons, hs, Option.bind_some] at absent
          rw [List.getLast?_cons_cons] at hlast
          exact ih ho hu (List.cons_ne_nil next rest) absent hlast

/-! ### Many removals -/

/-- It does not matter in which order parts are taken away. -/
theorem foldl_removeAt_perm (h : v.InOrder) {paths others : List (List String)}
    (perm : paths.Perm others) : paths.foldl removeAt v = others.foldl removeAt v := by
  induction perm generalizing v with
  | nil => rfl
  | cons path _ ih => exact ih (h.removeAt path)
  | swap first second paths =>
      rw [List.foldl_cons, List.foldl_cons, List.foldl_cons, List.foldl_cons, removeAt_comm h]
  | trans _ _ ih ih' => exact (ih h).trans (ih' h)

theorem foldl_removeAt_comm (h : v.InOrder) (path : List String) (paths : List (List String)) :
    paths.foldl removeAt (v.removeAt path) = (paths.foldl removeAt v).removeAt path := by
  have hlast := foldl_removeAt_perm h (List.perm_append_singleton path paths)
  rw [List.foldl_concat] at hlast
  exact hlast.symm

/-- What is among those taken away may be taken away once more before. -/
theorem foldl_removeAt_of_mem (h : v.InOrder) {paths : List (List String)} (hp : path ∈ paths)
    (twice : (v.removeAt path).removeAt path = v.removeAt path) :
    paths.foldl removeAt (v.removeAt path) = paths.foldl removeAt v := by
  have hfirst := List.perm_cons_erase hp
  rw [foldl_removeAt_perm (h.removeAt path) hfirst, foldl_removeAt_perm h hfirst, List.foldl_cons,
    List.foldl_cons, twice]

end LazyGraph.Json
