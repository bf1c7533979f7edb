import LazyGraph.Proofs.Cache.PlainRun
import LazyGraph.Proofs.Cache.Standing
import LazyGraph.Proofs.Cache.Touched

/-!
What becomes of a member of an identified object as a payload is stored. The objects of the payload
go into the table one after the other, and each value that arrives for the member takes its place,
save a list that is as long as the one there. A placeholder in the member is forgotten either way.
-/
namespace LazyGraph

/-- The value of a member of an identified object. -/
def ObjectTable.member? (table : ObjectTable) (id key : String) : Option Json :=
  (Fields.get? table id).bind (·.member? key)

namespace Normalizer

/-! ### The objects that are stored -/

mutual
/-- The identified objects of a value with their parts normalized, in the order in which they are
stored. -/
def deposits (n : Normalizer) (levels : Nat) : Json → List (String × Fields Json)
  | .array items =>
    match levels with
    | 0 => []
    | levels + 1 => depositsInItems n levels items
  | .object fs =>
    match levels with
    | 0 => []
    | levels + 1 =>
      match Json.referenceIn? fs with
      | some _ => []
      | none =>
        let members := (n.normalizeFields levels { table := [] } fs).1
        depositsInFields n levels fs ++ ((n.identity members).map fun id => (id, members)).toList
  | _ => []

def depositsInItems (n : Normalizer) (levels : Nat) : List Json → List (String × Fields Json)
  | [] => []
  | v :: rest => deposits n levels v ++ depositsInItems n levels rest

def depositsInFields (n : Normalizer) (levels : Nat) :
    List (String × Json) → List (String × Fields Json)
  | [] => []
  | (_, v) :: rest => deposits n levels v ++ depositsInFields n levels rest
end

/-- Stores objects one after the other. -/
def storeAll (n : Normalizer) (objects : List (String × Fields Json)) (p : Progress) : Progress :=
  objects.foldl (fun p object => n.store object.1 object.2 p) p

theorem storeAll_append (n : Normalizer) (objects more : List (String × Fields Json))
    (p : Progress) : n.storeAll (objects ++ more) p = n.storeAll more (n.storeAll objects p) :=
  List.foldl_append

section Parts

variable {n : Normalizer} {levels : Nat}

theorem normalizeItems_snd {items : List Json}
    (hparts : ∀ v ∈ items, ∀ p,
      (n.normalizeWithin levels p v).2 = n.storeAll (n.deposits levels v) p) (p : Progress) :
    (n.normalizeItems levels p items).2 = n.storeAll (n.depositsInItems levels items) p := by
  induction items generalizing p with
  | nil =>
      rw [normalizeItems]
      rfl
  | cons v items ih =>
      obtain ⟨hv, hrest⟩ := List.forall_mem_cons.mp hparts
      rw [normalizeItems, depositsInItems, storeAll_append, ← hv p]
      exact ih hrest _

theorem normalizeFields_snd {fs : List (String × Json)}
    (hparts : ∀ q ∈ fs, ∀ p,
      (n.normalizeWithin levels p q.2).2 = n.storeAll (n.deposits levels q.2) p) (p : Progress) :
    (n.normalizeFields levels p fs).2 = n.storeAll (n.depositsInFields levels fs) p := by
  induction fs generalizing p with
  | nil =>
      rw [normalizeFields]
      rfl
  | cons q fs ih =>
      obtain ⟨hq, hrest⟩ := List.forall_mem_cons.mp hparts
      rw [normalizeFields, depositsInFields, storeAll_append, ← hq p]
      exact ih hrest _

end Parts

/-- Which objects a value gives to the table does not depend on the table. -/
theorem normalizeWithin_snd (n : Normalizer) (levels : Nat) (v : Json) (p : Progress) :
    (n.normalizeWithin levels p v).2 = n.storeAll (n.deposits levels v) p := by
  induction v using Json.induction generalizing levels p with
  | array items ih =>
      cases levels with
      | zero => rfl
      | succ levels =>
          rw [normalizeWithin, deposits]
          exact normalizeItems_snd (fun v hv => ih v hv levels) p
  | object fs ih =>
      cases levels with
      | zero => rfl
      | succ levels =>
          have hform : (n.normalizeFields levels { table := [] } fs).1 =
              (n.normalizeFields levels p fs).1 :=
            normalizeFields_fst (fun q _ => n.normalizeWithin_fst levels q.2) _ p
          rw [normalizeWithin, deposits]
          cases Json.referenceIn? fs with
          | some id => rfl
          | none =>
              simp only [settle, hform, storeAll_append,
                ← normalizeFields_snd (fun q hq => ih q hq levels) p]
              cases n.identity (n.normalizeFields levels p fs).1 with
              | none => rfl
              | some id => rfl
  | _ => rfl

section Keys

variable {n : Normalizer} {levels : Nat} {object : String × Fields Json}

theorem mem_depositsInItems {items : List Json} :
    object ∈ n.depositsInItems levels items ↔ ∃ v ∈ items, object ∈ n.deposits levels v := by
  induction items with
  | nil => simp [depositsInItems]
  | cons v items ih => simp [depositsInItems, ih]

theorem mem_depositsInFields {fs : List (String × Json)} :
    object ∈ n.depositsInFields levels fs ↔ ∃ q ∈ fs, object ∈ n.deposits levels q.2 := by
  induction fs with
  | nil => simp [depositsInFields]
  | cons q fs ih => simp [depositsInFields, ih]

/-- What objects are stored with is in order if the value is. -/
theorem ascending_of_mem_deposits {v : Json} (hv : v.Everywhere Fields.Ascending)
    (ho : object ∈ n.deposits levels v) : Fields.Ascending object.2 := by
  induction v using Json.induction generalizing levels with
  | array items ih =>
      cases levels with
      | zero => exact absurd ho List.not_mem_nil
      | succ levels =>
          obtain ⟨v, hmem, ho⟩ := mem_depositsInItems.mp ho
          exact ih v hmem (Json.everywhere_array.mp hv v hmem) ho
  | object fs ih =>
      cases levels with
      | zero => exact absurd ho List.not_mem_nil
      | succ levels =>
          obtain ⟨hascending, hparts⟩ := Json.everywhere_object.mp hv
          rw [deposits] at ho
          split at ho
          · exact absurd ho List.not_mem_nil
          · rcases List.mem_append.mp ho with ho | ho
            · obtain ⟨q, hmem, ho⟩ := mem_depositsInFields.mp ho
              exact ih q hmem (hparts q hmem) ho
            · obtain ⟨id, _, rfl⟩ := Option.map_eq_some_iff.mp (Option.mem_toList.mp ho)
              exact hascending.of_keys (keys_normalizeFields n levels _ fs)
  | _ => exact absurd ho List.not_mem_nil

end Keys

/-! ### What a member comes to -/

/-- The values that objects give to a member, in their order. -/
def given (objects : List (String × Fields Json)) (id key : String) : List Json :=
  objects.filterMap fun object => if object.1 = id then Fields.get? object.2 key else none

/-- What stands for a member after a value arrived for it. -/
def taken (n : Normalizer) (held : Option Json) (arriving : Json) : Option Json :=
  if n.keepsStored held arriving then held else some arriving

variable (n : Normalizer)

theorem get?_mergeMembers_eq {arriving : Fields Json} (hn : (Fields.keys arriving).Nodup)
    (stored : Fields Json) (key : String) :
    Fields.get? (n.mergeMembers stored arriving) key =
      (Fields.get? arriving key).elim (Fields.get? stored key) (n.taken (Fields.get? stored key)) := by
  induction arriving generalizing stored with
  | nil => rfl
  | cons p arriving ih =>
      obtain ⟨hp, hn⟩ := List.nodup_cons.mp hn
      have hstep : n.mergeMembers stored (p :: arriving) = n.mergeMembers
          (if n.keepsStored (Fields.get? stored p.1) p.2 then stored
            else Fields.insert stored p.1 p.2) arriving := rfl
      rw [hstep, Fields.get?_cons]
      by_cases hkey : p.1 = key
      · subst hkey
        rw [n.get?_mergeMembers_of_not_mem hp, if_pos rfl, Option.elim_some, taken]
        split
        · rfl
        · exact Fields.get?_insert_self stored p.1 p.2
      · have hother : Fields.get? (if n.keepsStored (Fields.get? stored p.1) p.2 then stored
            else Fields.insert stored p.1 p.2) key = Fields.get? stored key := by
          split
          · rfl
          · exact Fields.get?_insert_of_ne p.2 (Ne.symm hkey)
        rw [ih hn, hother, if_neg hkey]

/-- Nothing keeps an absent member. -/
theorem taken_none (arriving : Json) : n.taken none arriving = some arriving := by
  rw [taken, keepsStored.eq_def]
  simp

theorem member?_store (hr : n.resolver = none) {object : String × Fields Json}
    (hn : (Fields.keys object.2).Nodup) (p : Progress) (id key : String) :
    (n.store object.1 object.2 p).table.member? id key =
      (given [object] id key).foldl n.taken (p.table.member? id key) := by
  simp only [given, List.filterMap_cons, List.filterMap_nil, store, ObjectTable.member?]
  by_cases hid : object.1 = id
  · subst hid
    rw [Fields.get?_insert_self, if_pos rfl, Option.bind_some, Json.member?]
    split
    · rename_i stored hstored
      rw [merge, hr, hstored, n.get?_mergeMembers_eq hn stored key, Option.bind_some, Json.member?]
      cases Fields.get? object.2 key <;> rfl
    · rename_i hstored
      have hnone : (Fields.get? p.table object.1).bind (·.member? key) = none := by
        cases hv : Fields.get? p.table object.1 with
        | none => rfl
        | some v =>
            cases v with
            | object fs => exact absurd hv (hstored fs)
            | _ => rfl
      rw [hnone]
      cases Fields.get? object.2 key with
      | none => rfl
      | some v => exact (n.taken_none v).symm
  · rw [Fields.get?_insert_of_ne _ (Ne.symm hid), if_neg hid]
    rfl

theorem given_cons (object : String × Fields Json) (objects : List (String × Fields Json))
    (id key : String) : given (object :: objects) id key =
      given [object] id key ++ given objects id key := by
  simp only [given, List.filterMap_cons, List.filterMap_nil]
  split <;> rfl

/-- The values that arrive for a member are taken one after the other. -/
theorem member?_storeAll (hr : n.resolver = none) {objects : List (String × Fields Json)}
    (hn : ∀ object ∈ objects, (Fields.keys object.2).Nodup) (p : Progress) (id key : String) :
    (n.storeAll objects p).table.member? id key =
      (given objects id key).foldl n.taken (p.table.member? id key) := by
  induction objects generalizing p with
  | nil => rfl
  | cons object objects ih =>
      obtain ⟨ho, hrest⟩ := List.forall_mem_cons.mp hn
      rw [given_cons, List.foldl_append, ← n.member?_store hr ho]
      exact ih hrest _

/-- A member is recorded as written only if a value arrives for it. -/
theorem exists_given {objects : List (String × Fields Json)} {p : Progress} {id key : String}
    (h : (n.storeAll objects p).touched.has id key = true) :
    p.touched.has id key = true ∨ ∃ v, v ∈ given objects id key := by
  induction objects generalizing p with
  | nil => exact .inl h
  | cons object objects ih =>
      rw [given_cons]
      rcases ih h with hfirst | ⟨v, hv⟩
      · rcases (Touched.has_add _ _ _ _ _).mp hfirst with hp | ⟨rfl, hkey⟩
        · exact .inl hp
        · obtain ⟨v, hv⟩ := Option.isSome_iff_exists.mp (Fields.get?_isSome_iff.mpr hkey)
          refine .inr ⟨v, List.mem_append_left _ ?_⟩
          simp [given, hv]
      · exact .inr ⟨v, List.mem_append_right _ hv⟩

/-- What is kept by all that arrives stays. -/
theorem foldl_taken_of_kept {held : Option Json} {values : List Json}
    (h : ∀ v ∈ values, n.keepsStored held v = true) : values.foldl n.taken held = held := by
  induction values with
  | nil => rfl
  | cons v values ih =>
      obtain ⟨hv, hrest⟩ := List.forall_mem_cons.mp h
      rw [List.foldl_cons, taken, if_pos hv]
      exact ih hrest

/-- A member keeps its value or comes to one that arrived. -/
theorem foldl_taken_cases (held : Option Json) (values : List Json) :
    values.foldl n.taken held = held ∨ ∃ v ∈ values, values.foldl n.taken held = some v := by
  induction values generalizing held with
  | nil => exact .inl rfl
  | cons v values ih =>
      rw [List.foldl_cons]
      rcases ih (n.taken held v) with h | ⟨u, hu, h⟩
      · rw [h, taken]
        split
        · exact .inl rfl
        · exact .inr ⟨v, List.mem_cons_self, rfl⟩
      · exact .inr ⟨u, List.mem_cons_of_mem v hu, h⟩

/-- A value that is not kept for all that arrives gives way to one that arrived. -/
theorem exists_foldl_taken {held : Option Json} {values : List Json} {v : Json} (hv : v ∈ values)
    (h : n.keepsStored held v = false) : ∃ u ∈ values, values.foldl n.taken held = some u := by
  induction values with
  | nil => exact absurd hv List.not_mem_nil
  | cons w values ih =>
      rw [List.foldl_cons, taken]
      split
      · rename_i hkept
        have hv : v ∈ values := by
          rcases List.mem_cons.mp hv with rfl | hv
          · exact absurd (h.symm.trans hkept) Bool.noConfusion
          · exact hv
        obtain ⟨u, hu, hfold⟩ := ih hv
        exact ⟨u, List.mem_cons_of_mem w hu, hfold⟩
      · rcases n.foldl_taken_cases (some w) values with hfold | ⟨u, hu, hfold⟩
        · exact ⟨w, List.mem_cons_self, hfold⟩
        · exact ⟨u, List.mem_cons_of_mem w hu, hfold⟩

/-- Whether a list stays for all that arrives in its place, and is not among that. -/
def Outlasts (held : Option Json) (arriving : List Json) : Prop :=
  n.arrayMerge = .keepEqualLength ∧ ∃ old, held = some (.array old) ∧ .array old ∉ arriving ∧
    ∀ v ∈ arriving, ∃ items, v = .array items ∧ old.length = items.length

theorem foldl_taken_of_outlasts {held : Option Json} {arriving : List Json}
    (h : n.Outlasts held arriving) : arriving.foldl n.taken held = held := by
  obtain ⟨hmode, old, rfl, _, hlists⟩ := h
  apply n.foldl_taken_of_kept
  intro v hv
  obtain ⟨items, rfl, hlength⟩ := hlists v hv
  exact keepsStored_iff.mpr ⟨hmode, old, items, rfl, rfl, hlength⟩

/-- A member comes to a value that arrived, unless it holds a list that outlasts all of them. -/
theorem exists_foldl_taken_iff {held : Option Json} {arriving : List Json} (hne : arriving ≠ []) :
    (∃ v ∈ arriving, arriving.foldl n.taken held = some v) ↔ ¬ n.Outlasts held arriving := by
  constructor
  · rintro ⟨v, hv, hfold⟩ houtlasts
    rw [n.foldl_taken_of_outlasts houtlasts] at hfold
    obtain ⟨_, old, rfl, hnew, _⟩ := houtlasts
    cases hfold
    exact hnew hv
  · intro hnot
    by_cases hkept : ∀ v ∈ arriving, n.keepsStored held v = true
    · obtain ⟨v, hv⟩ := List.exists_mem_of_ne_nil arriving hne
      obtain ⟨hmode, old, _, rfl, _, _⟩ := keepsStored_iff.mp (hkept v hv)
      have hlists : ∀ v ∈ arriving, ∃ items, v = .array items ∧ old.length = items.length := by
        intro v hv
        obtain ⟨_, _, items, hold, rfl, hlength⟩ := keepsStored_iff.mp (hkept v hv)
        cases hold
        exact ⟨items, rfl, hlength⟩
      have hold : .array old ∈ arriving :=
        Classical.byContradiction fun hnew => hnot ⟨hmode, old, rfl, hnew, hlists⟩
      exact ⟨.array old, hold, n.foldl_taken_of_kept hkept⟩
    · obtain ⟨v, hv, hgives⟩ : ∃ v ∈ arriving, n.keepsStored held v = false := by
        simpa using hkept
      exact n.exists_foldl_taken hv hgives

end Normalizer

namespace Cache

/-- The identified objects of root fields, in the order in which they are stored. -/
def depositsOf (n : Normalizer) (fields : List (Operation × String × Json)) :
    List (String × Fields Json) :=
  fields.flatMap fun field => n.deposits (Normalizer.maxDepth + 1) field.2.2

/-- The values that a payload gives to a member of an identified object, normalized, in the order
in which they are stored. -/
def supplied (n : Normalizer) (payload : Json) (id key : String) : List Json :=
  match payload with
  | .object roots =>
    match payloadRoots roots with
    | .ok rs => Normalizer.given (depositsOf n (payloadFields rs)) id key
    | .error _ => []
  | _ => []

section Storing

variable {options : Options}

/-- Storing root fields stores the objects of all of them one after the other. -/
theorem progressOf_storeFields {n : Normalizer} (hn : options.normalizer = some n) (now : Nat)
    (s : Store) (fields : List (Operation × String × Json)) :
    progressOf (storeFields options now s fields) =
      n.storeAll (depositsOf n fields) { table := s.objects } := by
  have hfold : ∀ acc : Store × Touched,
      progressOf (fields.foldl (fun acc x => storeField options now x.1 acc x.2) acc) =
        n.storeAll (depositsOf n fields) (progressOf acc) := by
    induction fields with
    | nil => exact fun _ => rfl
    | cons field fields ih =>
        intro acc
        have hfield : progressOf (storeField options now field.1 acc field.2) =
            n.storeAll (n.deposits (Normalizer.maxDepth + 1) field.2.2) (progressOf acc) := by
          rw [← n.normalizeWithin_snd, storeField, normalized, hn]
          rfl
        rw [List.foldl_cons, depositsOf, List.flatMap_cons, n.storeAll_append, ← hfield]
        exact ih _
  exact hfold (s, [])

/-- Without a normalizer no object is written to. -/
theorem touched_storeFields (hn : options.normalizer = none) (now : Nat) (s : Store)
    (fields : List (Operation × String × Json)) : (storeFields options now s fields).2 = [] := by
  rw [storeFields]
  refine List.foldlRecOn (motive := fun acc : Store × Touched => acc.2 = []) fields _ rfl
    fun acc hacc field _ => ?_
  simp only [storeField, normalized, hn]
  exact hacc

end Storing

/-! ### Marks of identified objects -/

namespace Store

variable {s : Store} {mark : Slot} {id : String}

theorem mem_placeholders_dropContainer (ho : mark.owner = .object id) (hm : mark ∈ s.placeholders)
    (key : ContainerKey) : mark ∈ (s.dropContainer key).placeholders := by
  rw [dropContainer, List.mem_filter, ho]
  exact ⟨hm, by simp⟩

theorem mem_placeholders_dropContainers (ho : mark.owner = .object id)
    (hm : mark ∈ s.placeholders) (keys : List ContainerKey) :
    mark ∈ (keys.foldl dropContainer s).placeholders :=
  List.foldlRecOn (motive := fun t : Store => mark ∈ t.placeholders) keys _ hm
    fun _ ht key _ => mem_placeholders_dropContainer ho ht key

theorem mem_placeholders_enforceCapacity (ho : mark.owner = .object id)
    (hm : mark ∈ s.placeholders) (maxEntries : Nat) :
    mark ∈ (s.enforceCapacity maxEntries).placeholders :=
  enforceCapacity_induction (motive := fun t => mark ∈ t.placeholders) hm
    (fun _ key _ ht _ _ => mem_placeholders_dropContainer ho ht key) maxEntries

/-- An object that is still led to is the one that was there. -/
theorem get?_objects_collectObjects (h : Fields.contains s.collectObjects.objects id = true) :
    Fields.get? s.collectObjects.objects id = Fields.get? s.objects id := by
  obtain ⟨v, hv⟩ := Option.isSome_iff_exists.mp h
  exact hv.trans (get?_of_collectObjects hv).2.symm

theorem mem_placeholders_collectObjects (ho : mark.owner = .object id)
    (hm : mark ∈ s.placeholders) (hstays : Fields.contains s.collectObjects.objects id = true) :
    mark ∈ s.collectObjects.placeholders := by
  rw [objects_collectObjects] at hstays
  rcases s.collectObjects_cases with ⟨h, _⟩ | h
  · rwa [h]
  · rw [h, List.mem_filter, ho]
    exact ⟨hm, hstays⟩

/-- Of the marks of an object that stays, a set drops those whose members were written. -/
theorem mem_placeholders_setStore {options : Options} {now : Nat} (ho : mark.owner = .object id)
    (hm : mark ∈ s.placeholders) {fields : List (Operation × String × Json)}
    (hstays : Fields.contains (setStore options now s fields).objects id = true)
    (hkept : isReplaced (storeFields options now s fields).2 mark = false) :
    mark ∈ (setStore options now s fields).placeholders := by
  have hstored : mark ∈ (storeFields options now s fields).1.placeholders := by
    rw [storeFields]
    refine List.foldlRecOn (motive := fun acc : Store × Touched => mark ∈ acc.1.placeholders)
      fields _ hm fun acc hacc field _ => ?_
    simp only [storeField, fillContainer, putContainer, dropContainerPlaceholders,
      List.mem_filter, ho]
    exact ⟨hacc, by simp⟩
  have hleft : mark ∈ ((storeFields options now s fields).1.dropReplacedPlaceholders
      (storeFields options now s fields).2).placeholders := by
    rw [dropReplacedPlaceholders, List.mem_filter, hkept]
    exact ⟨hstored, rfl⟩
  rw [setStore, (shrinks_enforceCapacity _ _).objects] at hstays
  apply mem_placeholders_enforceCapacity ho
  refine mem_placeholders_collectObjects ho (mem_placeholders_dropContainers ho hleft _) ?_
  exact hstays

end Store

theorem member?_setStore {options : Options} {now : Nat} {s : Store} {id : String}
    {fields : List (Operation × String × Json)}
    (hstays : Fields.contains (setStore options now s fields).objects id = true) (key : String) :
    (setStore options now s fields).objects.member? id key =
      (progressOf (storeFields options now s fields)).table.member? id key := by
  rw [setStore, (Store.shrinks_enforceCapacity _ _).objects] at hstays ⊢
  rw [ObjectTable.member?, ObjectTable.member?, Store.sweep,
    Store.get?_objects_collectObjects hstays, (Store.shrinks_dropContainers _ _).objects]
  rfl

/-- As a payload is stored, a mark in a member of an identified object that stays is dropped only
if values arrive for the member. It then holds one of these, unless it is a list that stays for all
of them: then it holds what it held, the placeholder in it included. -/
theorem replaced_iff {c d : Cache} {now : Nat} {payload : Json} {skipNotify : Bool}
    {notice : Notice} (merges : c.options.MergesByMember)
    (ordered : payload.Everywhere Fields.Ascending)
    (done : c.set now payload skipNotify = .ok (d, notice)) {id key : String} {rest : List String}
    (marked : { owner := .object id, path := key :: rest } ∈ c.store.placeholders)
    (dropped : { owner := .object id, path := key :: rest } ∉ d.store.placeholders)
    (stays : Fields.contains d.store.objects id = true) :
    ∃ n, c.options.normalizer = some n ∧
      let held := c.store.objects.member? id key
      let arriving := supplied n payload id key
      ((∃ v ∈ arriving, d.store.objects.member? id key = some v) ↔ ¬ n.Outlasts held arriving) ∧
      (n.Outlasts held arriving → d.store.objects.member? id key = held) := by
  obtain ⟨roots, rs, rfl, hroots, _, hstore⟩ := set_eq_ok done
  rw [hstore] at dropped stays ⊢
  have htouched : (storeFields c.options now c.store (payloadFields rs)).2.has id key = true := by
    apply Classical.byContradiction
    intro hnot
    exact dropped (Store.mem_placeholders_setStore rfl marked stays (Bool.not_eq_true _ ▸ hnot))
  cases hn : c.options.normalizer with
  | none =>
      rw [touched_storeFields hn] at htouched
      cases htouched
  | some n =>
      have hr := merges n hn
      have hprogress := progressOf_storeFields hn now c.store (payloadFields rs)
      have hfields := payloadFields_everywhere hroots (Json.everywhere_object.mp ordered).2
      have hnodup : ∀ object ∈ depositsOf n (payloadFields rs), (Fields.keys object.2).Nodup := by
        intro object ho
        obtain ⟨field, hfield, ho⟩ := List.mem_flatMap.mp ho
        exact (Normalizer.ascending_of_mem_deposits (hfields field hfield) ho).nodup_keys
      have hvalue : (setStore c.options now c.store (payloadFields rs)).objects.member? id key =
          (Normalizer.given (depositsOf n (payloadFields rs)) id key).foldl n.taken
            (c.store.objects.member? id key) := by
        rw [member?_setStore stays, hprogress, n.member?_storeAll hr hnodup]
      have hne : Normalizer.given (depositsOf n (payloadFields rs)) id key ≠ [] := by
        have hhas : (progressOf (storeFields c.options now c.store (payloadFields rs))).touched.has
            id key = true := htouched
        rw [hprogress] at hhas
        rcases n.exists_given hhas with h | ⟨v, hv⟩
        · cases h
        · exact List.ne_nil_of_mem hv
      refine ⟨n, rfl, ?_⟩
      simp only [supplied, hroots, hvalue]
      exact ⟨n.exists_foldl_taken_iff hne, n.foldl_taken_of_outlasts⟩

/-! ### A placeholder in a list -/

/-- The payload with a user who has the items of some names. -/
def itemsPayload (names : List String) : Json :=
  .object [("query", .object [("user", .object [("__typename", .string "U"), ("id", .int 1),
    ("items", .array (names.map fun name => .object [("name", .string name)]))])])]

/-- A user with one item, and a placeholder for the friend of that item. -/
def awaitedFriend : Cache :=
  (new {}).after 0 [.set (itemsPayload ["a"]) false,
    .seed { root := .query, field := "user", rest := ["items", "0", "friend"] } (.object [])]

/-- The mark of that placeholder. -/
def friendMark : Slot := { owner := .object "U:1", path := ["items", "0", "friend"] }

/-- The user once items of some names have arrived. -/
def refreshed (names : List String) : Cache :=
  (awaitedFriend.act 0 (.set (itemsPayload names) false)).cache

theorem merges_awaitedFriend : awaitedFriend.options.MergesByMember := by
  intro n hn
  cases hn
  rfl

/-- Two items take the place of the one with the placeholder. -/
theorem replaced_iff_two_items :
    (awaitedFriend.options.MergesByMember ∧
      (itemsPayload ["a", "b"]).Everywhere Fields.Ascending ∧
      (∃ notice, awaitedFriend.set 0 (itemsPayload ["a", "b"]) false =
        .ok (refreshed ["a", "b"], notice)) ∧
      friendMark ∈ awaitedFriend.store.placeholders ∧
      friendMark ∉ (refreshed ["a", "b"]).store.placeholders ∧
      Fields.contains (refreshed ["a", "b"]).store.objects "U:1" = true) ∧
    ∃ n, awaitedFriend.options.normalizer = some n ∧
      let held := awaitedFriend.store.objects.member? "U:1" "items"
      let after := (refreshed ["a", "b"]).store.objects.member? "U:1" "items"
      let arriving := supplied n (itemsPayload ["a", "b"]) "U:1" "items"
      ((∃ v ∈ arriving, after = some v) ↔ ¬ n.Outlasts held arriving) ∧
      (n.Outlasts held arriving → after = held) := by
  have hset : ∃ notice, awaitedFriend.set 0 (itemsPayload ["a", "b"]) false =
      .ok (refreshed ["a", "b"], notice) := ⟨_, rfl⟩
  have hordered : (itemsPayload ["a", "b"]).Everywhere Fields.Ascending := by
    decide +kernel
  have hmarked : friendMark ∈ awaitedFriend.store.placeholders := by decide +kernel
  have hdropped : friendMark ∉ (refreshed ["a", "b"]).store.placeholders := by decide +kernel
  have hstays : Fields.contains (refreshed ["a", "b"]).store.objects "U:1" = true := by
    decide +kernel
  obtain ⟨notice, hdone⟩ := hset
  exact ⟨⟨merges_awaitedFriend, hordered, ⟨notice, hdone⟩, hmarked, hdropped, hstays⟩,
    replaced_iff merges_awaitedFriend hordered hdone hmarked hdropped hstays⟩

/-- One item arrives that is another one. The stored list stays with the placeholder in it, whose
mark is dropped. -/
theorem friend_unmarked :
    Options.MergesByMember awaitedFriend.options ∧ Reachable {} 0 awaitedFriend ∧
    (∃ notice, awaitedFriend.set 0 (itemsPayload ["b"]) false = .ok (refreshed ["b"], notice)) ∧
    friendMark ∈ awaitedFriend.store.placeholders ∧
    friendMark ∉ (refreshed ["b"]).store.placeholders ∧
    Fields.contains (refreshed ["b"]).store.objects "U:1" = true ∧
    ¬ ∃ v ∈ supplied default (itemsPayload ["b"]) "U:1" "items",
      (refreshed ["b"]).store.objects.member? "U:1" "items" = some v := by
  refine ⟨merges_awaitedFriend, (Reachable.new 0).after _, ⟨_, rfl⟩, by decide +kernel,
    by decide +kernel, by decide +kernel, ?_⟩
  have harriving : supplied default (itemsPayload ["b"]) "U:1" "items" =
      [.array [.object [("name", .string "b")]]] := rfl
  have hafter : (refreshed ["b"]).store.objects.member? "U:1" "items" =
      some (.array [.object [("friend", .object []), ("name", .string "a")]]) := rfl
  rw [harriving, hafter]
  rintro ⟨v, hv, he⟩
  obtain rfl := List.mem_singleton.mp hv
  simp at he

end Cache
end LazyGraph
