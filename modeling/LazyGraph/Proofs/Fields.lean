import Mathlib.Data.List.Forall2
import LazyGraph.Fields

/-!
Tables keyed by text: what each operation does to the members and to the value under a key.
A table in ascending order is determined by the values under its keys.
-/
namespace LazyGraph.Fields

variable {α β : Type}

instance (fs : Fields α) : Decidable (Ascending fs) :=
  inferInstanceAs (Decidable (fs.Pairwise fun p q => p.1 < q.1))

/-! ### The value under a key -/

@[simp] theorem get?_nil (key : String) : get? ([] : Fields α) key = none := rfl

theorem get?_cons (p : String × α) (fs : Fields α) (key : String) :
    get? (p :: fs) key = if p.1 = key then some p.2 else get? fs key := rfl

theorem mem_of_get? {fs : Fields α} {key : String} {v : α} (h : get? fs key = some v) :
    (key, v) ∈ fs := by
  induction fs with
  | nil => cases h
  | cons p fs ih =>
      rw [get?_cons] at h
      split at h
      · rename_i hk
        cases h
        exact hk ▸ List.mem_cons_self
      · exact List.mem_cons_of_mem p (ih h)

theorem get?_isSome_iff {fs : Fields α} {key : String} :
    (get? fs key).isSome ↔ key ∈ keys fs := by
  induction fs with
  | nil => simp [keys]
  | cons p fs ih =>
      rw [get?_cons, keys, List.map_cons, List.mem_cons]
      split
      · simp [*]
      · rename_i hk
        rw [ih, keys]
        exact ⟨.inr, fun h => h.resolve_left fun e => hk e.symm⟩

theorem contains_iff {fs : Fields α} {key : String} :
    contains fs key = true ↔ key ∈ keys fs := get?_isSome_iff

theorem get?_eq_none_iff {fs : Fields α} {key : String} :
    get? fs key = none ↔ key ∉ keys fs := by
  rw [← get?_isSome_iff]
  cases get? fs key <;> simp

theorem mem_keys_of_mem {fs : Fields α} {p : String × α} (h : p ∈ fs) : p.1 ∈ keys fs :=
  List.mem_map_of_mem h

/-! ### Putting a value under a key -/

theorem insert_cons (k : String) (v : α) (rest : Fields α) (key : String) (value : α) :
    insert ((k, v) :: rest) key value =
      if key = k then (key, value) :: rest
      else if key < k then (key, value) :: (k, v) :: rest
      else (k, v) :: insert rest key value := rfl

theorem mem_insert_self (fs : Fields α) (key : String) (value : α) :
    (key, value) ∈ insert fs key value := by
  induction fs with
  | nil => exact List.mem_cons_self
  | cons p fs ih =>
      obtain ⟨k, v⟩ := p
      rw [insert_cons]
      split
      · exact List.mem_cons_self
      · split
        · exact List.mem_cons_self
        · exact List.mem_cons_of_mem _ ih

theorem mem_of_mem_insert {fs : Fields α} {key : String} {value : α} {p : String × α}
    (h : p ∈ insert fs key value) : p = (key, value) ∨ p ∈ fs := by
  induction fs with
  | nil => exact .inl (List.mem_singleton.mp h)
  | cons q fs ih =>
      obtain ⟨k, v⟩ := q
      rw [insert_cons] at h
      split at h
      · exact (List.mem_cons.mp h).imp_right (List.mem_cons_of_mem _)
      · split at h
        · exact List.mem_cons.mp h
        · rcases List.mem_cons.mp h with rfl | h
          · exact .inr List.mem_cons_self
          · exact (ih h).imp_right (List.mem_cons_of_mem _)

@[simp] theorem get?_insert_self (fs : Fields α) (key : String) (value : α) :
    get? (insert fs key value) key = some value := by
  induction fs with
  | nil => simp [insert, get?_cons]
  | cons p fs ih =>
      obtain ⟨k, v⟩ := p
      rw [insert_cons]
      split
      · simp [get?_cons]
      · rename_i hk
        split
        · simp [get?_cons]
        · rw [get?_cons, if_neg (Ne.symm hk), ih]

theorem get?_insert_of_ne {fs : Fields α} {key other : String} (value : α) (h : other ≠ key) :
    get? (insert fs key value) other = get? fs other := by
  induction fs with
  | nil => simp [insert, get?_cons, h.symm]
  | cons p fs ih =>
      obtain ⟨k, v⟩ := p
      rw [insert_cons]
      split
      · rename_i e
        subst e
        rw [get?_cons, get?_cons, if_neg h.symm, if_neg h.symm]
      · split
        · rw [get?_cons, if_neg h.symm]
        · rw [get?_cons, get?_cons, ih]

theorem get?_insert (fs : Fields α) (key other : String) (value : α) :
    get? (insert fs key value) other = if other = key then some value else get? fs other := by
  split
  · rename_i h
    rw [h, get?_insert_self]
  · exact get?_insert_of_ne value ‹_›

theorem mem_keys_insert {fs : Fields α} {key other : String} {value : α} :
    other ∈ keys (insert fs key value) ↔ other = key ∨ other ∈ keys fs := by
  rw [← get?_isSome_iff, get?_insert]
  split
  · simp [*]
  · simp [*, get?_isSome_iff]

/-! ### Taking a key away -/

theorem mem_erase {fs : Fields α} {key : String} {p : String × α} :
    p ∈ erase fs key ↔ p ∈ fs ∧ p.1 ≠ key := by
  simp [erase]

theorem get?_filter (q : String → Bool) (fs : Fields α) (key : String) :
    get? (fs.filter fun p => q p.1) key = if q key then get? fs key else none := by
  induction fs with
  | nil => simp
  | cons p fs ih =>
      by_cases hp : q p.1 = true
      · rw [List.filter_cons_of_pos (by exact hp), get?_cons, get?_cons, ih]
        split
        · rename_i e
          simp [← e, hp]
        · rfl
      · rw [List.filter_cons_of_neg (by simpa using hp), ih, get?_cons]
        by_cases e : p.1 = key
        · simp [← e, hp]
        · rw [if_neg e]

/-! ### Changing the values -/

theorem get?_mapValues (f : α → β) (fs : Fields α) (key : String) :
    get? (mapValues f fs) key = (get? fs key).map f := by
  induction fs with
  | nil => rfl
  | cons p fs ih =>
      rw [mapValues, List.map_cons, ← mapValues, get?_cons, get?_cons, ih]
      split <;> rfl

theorem keys_mapValues (f : α → β) (fs : Fields α) : keys (mapValues f fs) = keys fs :=
  List.map_map

/-! ### Two tables side by side -/

section Pairs

variable {R : α → β → Prop} {fs : Fields α} {gs : Fields β}

theorem keys_of_forall₂ (h : List.Forall₂ (fun p q => p.1 = q.1 ∧ R p.2 q.2) fs gs) :
    keys fs = keys gs := by
  induction h with
  | nil => rfl
  | cons hpq _ ih => exact List.cons_eq_cons.mpr ⟨hpq.1, ih⟩

theorem of_forall₂ (h : List.Forall₂ (fun p q => p.1 = q.1 ∧ R p.2 q.2) fs gs) {key : String}
    {u : α} {v : β} (hu : get? fs key = some u) (hv : get? gs key = some v) : R u v := by
  induction h with
  | nil => cases hu
  | cons hpq _ ih =>
      rw [get?_cons] at hu hv
      rw [← hpq.1] at hv
      split at hu
      · rw [if_pos ‹_›] at hv
        obtain rfl := Option.some.inj hu
        obtain rfl := Option.some.inj hv
        exact hpq.2
      · rw [if_neg ‹_›] at hv
        exact ih hu hv

end Pairs

/-! ### Order -/

theorem ascending_iff {fs : Fields α} : Ascending fs ↔ (keys fs).Pairwise (· < ·) :=
  List.pairwise_map.symm

/-- The order of a table is that of its keys. -/
theorem Ascending.of_keys {fs : Fields α} {gs : Fields β} (h : Ascending fs)
    (hk : keys gs = keys fs) : Ascending gs := by
  rw [ascending_iff, hk]
  exact ascending_iff.mp h

theorem Ascending.nil : Ascending ([] : Fields α) := List.Pairwise.nil

theorem Ascending.insert {fs : Fields α} (h : Ascending fs) (key : String) (value : α) :
    Ascending (insert fs key value) := by
  induction fs with
  | nil => exact List.pairwise_singleton _ _
  | cons p fs ih =>
      obtain ⟨k, v⟩ := p
      obtain ⟨hhead, htail⟩ := List.pairwise_cons.mp h
      rw [insert_cons]
      split
      · rename_i e
        exact List.pairwise_cons.mpr ⟨fun q hq => e ▸ hhead q hq, htail⟩
      · rename_i e
        split
        · rename_i hlt
          refine List.pairwise_cons.mpr ⟨fun q hq => ?_, h⟩
          rcases List.mem_cons.mp hq with rfl | hq
          · exact hlt
          · exact String.lt_trans hlt (hhead q hq)
        · rename_i hlt
          refine List.pairwise_cons.mpr ⟨fun q hq => ?_, ih htail⟩
          rcases mem_of_mem_insert hq with rfl | hq
          · refine Decidable.byContradiction fun hge => ?_
            exact e (String.le_antisymm (String.not_lt.mp hge) (String.not_lt.mp hlt))
          · exact hhead q hq

/-- A value that takes the place of another one leaves the keys as they are. -/
theorem Ascending.keys_insert_of_mem {fs : Fields α} (h : Ascending fs) {key : String}
    (hk : key ∈ keys fs) (value : α) : keys (Fields.insert fs key value) = keys fs := by
  induction fs with
  | nil => exact absurd hk List.not_mem_nil
  | cons p fs ih =>
      obtain ⟨hhead, htail⟩ := List.pairwise_cons.mp h
      rw [insert_cons]
      by_cases hp : key = p.1
      · rw [if_pos hp]
        exact congrArg (· :: keys fs) hp
      · have hrest : key ∈ keys fs := (List.mem_cons.mp hk).resolve_left hp
        obtain ⟨q, hq, he⟩ := List.mem_map.mp hrest
        have hlt := hhead q hq
        rw [he] at hlt
        rw [if_neg hp, if_neg (String.lt_asymm hlt)]
        exact congrArg (p.1 :: ·) (ih htail hrest)

theorem Ascending.filter {fs : Fields α} (h : Ascending fs) (q : String × α → Bool) :
    Ascending (fs.filter q) :=
  List.Pairwise.filter q h

theorem Ascending.get?_of_mem {fs : Fields α} (h : Ascending fs) {key : String} {v : α}
    (hm : (key, v) ∈ fs) : get? fs key = some v := by
  induction fs with
  | nil => cases hm
  | cons p fs ih =>
      obtain ⟨hhead, htail⟩ := List.pairwise_cons.mp h
      rw [get?_cons]
      rcases List.mem_cons.mp hm with rfl | hm
      · exact if_pos rfl
      · rw [if_neg, ih htail hm]
        intro e
        exact String.lt_irrefl _ (e ▸ hhead _ hm)

theorem Ascending.get?_eq_some_iff {fs : Fields α} (h : Ascending fs) {key : String} {v : α} :
    get? fs key = some v ↔ (key, v) ∈ fs :=
  ⟨mem_of_get?, h.get?_of_mem⟩

theorem Ascending.nodup_keys {fs : Fields α} (h : Ascending fs) : (keys fs).Nodup := by
  refine List.pairwise_map.mpr (List.Pairwise.imp ?_ h)
  intro p q hlt e
  rw [e] at hlt
  exact String.lt_irrefl _ hlt

/-- A table in ascending order is known by the values under its keys. -/
theorem Ascending.ext {fs gs : Fields α} (hf : Ascending fs) (hg : Ascending gs)
    (h : ∀ key, get? fs key = get? gs key) : fs = gs := by
  induction fs generalizing gs with
  | nil =>
      cases gs with
      | nil => rfl
      | cons q gs =>
          have hq := h q.1
          rw [get?_cons, if_pos rfl] at hq
          cases hq
  | cons p fs ih =>
      cases gs with
      | nil =>
          have hp := h p.1
          rw [get?_cons, if_pos rfl] at hp
          cases hp
      | cons q gs =>
          obtain ⟨hfh, hft⟩ := List.pairwise_cons.mp hf
          obtain ⟨hgh, hgt⟩ := List.pairwise_cons.mp hg
          have hpq : p ∈ q :: gs := mem_of_get? ((h p.1).symm.trans (if_pos rfl))
          have hqp : q ∈ p :: fs := mem_of_get? ((h q.1).trans (if_pos rfl))
          have heq : p = q := by
            rcases List.mem_cons.mp hpq with e | hp
            · exact e
            · rcases List.mem_cons.mp hqp with e | hq
              · exact e.symm
              · exact absurd (hgh p hp) (String.lt_asymm (hfh q hq))
          subst heq
          refine congrArg (p :: ·) (ih hft hgt fun key => ?_)
          by_cases hk : p.1 = key
          · subst hk
            rw [get?_eq_none_iff.mpr, get?_eq_none_iff.mpr]
            · intro hm
              obtain ⟨r, hr, e⟩ := List.mem_map.mp hm
              exact String.lt_irrefl _ (e ▸ hgh r hr)
            · intro hm
              obtain ⟨r, hr, e⟩ := List.mem_map.mp hm
              exact String.lt_irrefl _ (e ▸ hfh r hr)
          · have hkey := h key
            rwa [get?_cons, get?_cons, if_neg hk, if_neg hk] at hkey

/-! ### Tables of pairs -/

/-- Pairs put into a table one after the other. -/
theorem foldl_insert_ascending (pairs : List (String × α)) {fs : Fields α} (h : Ascending fs) :
    Ascending (pairs.foldl (fun fs p => insert fs p.1 p.2) fs) := by
  induction pairs generalizing fs with
  | nil => exact h
  | cons p pairs ih => exact ih (h.insert p.1 p.2)

theorem mem_of_mem_foldl_insert {pairs : List (String × α)} {fs : Fields α} {p : String × α}
    (h : p ∈ pairs.foldl (fun fs p => insert fs p.1 p.2) fs) : p ∈ pairs ∨ p ∈ fs := by
  induction pairs generalizing fs with
  | nil => exact .inr h
  | cons q pairs ih =>
      rcases ih h with h | h
      · exact .inl (List.mem_cons_of_mem q h)
      · rcases mem_of_mem_insert h with rfl | h
        · exact .inl List.mem_cons_self
        · exact .inr h

theorem get?_foldl_insert_of_not_mem {pairs : List (String × α)} {fs : Fields α} {key : String}
    (h : key ∉ keys pairs) :
    get? (pairs.foldl (fun fs p => insert fs p.1 p.2) fs) key = get? fs key := by
  induction pairs generalizing fs with
  | nil => rfl
  | cons p pairs ih =>
      rw [keys, List.map_cons, List.mem_cons, not_or] at h
      rw [List.foldl_cons, ih h.2, get?_insert_of_ne p.2 h.1]

theorem get?_foldl_insert {pairs : List (String × α)} (hn : (keys pairs).Nodup) {fs : Fields α}
    {p : String × α} (h : p ∈ pairs) :
    get? (pairs.foldl (fun fs p => insert fs p.1 p.2) fs) p.1 = some p.2 := by
  induction pairs generalizing fs with
  | nil => cases h
  | cons q pairs ih =>
      obtain ⟨hq, hn⟩ := List.nodup_cons.mp hn
      rw [List.foldl_cons]
      rcases List.mem_cons.mp h with rfl | h
      · rw [get?_foldl_insert_of_not_mem hq, get?_insert_self]
      · exact ih hn h

theorem mem_keys_overlay {fs other : Fields α} {key : String} :
    key ∈ keys (overlay fs other) ↔ key ∈ keys other ∨ key ∈ keys fs := by
  induction other generalizing fs with
  | nil => exact ⟨.inr, fun h => h.resolve_left List.not_mem_nil⟩
  | cons p other ih =>
      have hstep : key ∈ keys (overlay fs (p :: other)) ↔
          key ∈ keys (overlay (insert fs p.1 p.2) other) := Iff.rfl
      rw [hstep, ih, mem_keys_insert, keys, keys, keys, List.map_cons, List.mem_cons]
      exact ⟨fun h => h.elim (fun h => .inl (.inr h)) (Or.imp_left .inl),
        fun h => h.elim (fun h => h.elim (fun e => .inr (.inl e)) .inl) fun h => .inr (.inr h)⟩

theorem ofList_ascending (pairs : List (String × α)) : Ascending (ofList pairs) :=
  foldl_insert_ascending pairs .nil

theorem mem_of_mem_ofList {pairs : List (String × α)} {p : String × α} (h : p ∈ ofList pairs) :
    p ∈ pairs :=
  (mem_of_mem_foldl_insert h).resolve_right List.not_mem_nil

theorem get?_ofList {pairs : List (String × α)} (hn : (keys pairs).Nodup) {p : String × α}
    (h : p ∈ pairs) : get? (ofList pairs) p.1 = some p.2 :=
  get?_foldl_insert hn h

theorem get?_ofList_eq_some_iff {pairs : List (String × α)} (hn : (keys pairs).Nodup)
    {key : String} {v : α} : get? (ofList pairs) key = some v ↔ (key, v) ∈ pairs :=
  ⟨fun h => mem_of_mem_ofList (mem_of_get? h), get?_ofList (p := (key, v)) hn⟩

/-- Putting the entries of an ascending table into an empty one gives it again. -/
theorem Ascending.ofList_eq {fs : Fields α} (h : Ascending fs) : ofList fs = fs := by
  have hn := h.nodup_keys
  refine (ofList_ascending fs).ext h fun key => ?_
  refine Option.ext fun v => ?_
  rw [get?_ofList_eq_some_iff hn, h.get?_eq_some_iff]

/-! ### Tables put over tables -/

theorem Ascending.overlay {fs : Fields α} (h : Ascending fs) (other : Fields α) :
    Ascending (Fields.overlay fs other) :=
  foldl_insert_ascending other h

/-- Under a key stands the later value, if there is one. -/
theorem get?_overlay (fs : Fields α) {other : Fields α} (hn : (keys other).Nodup) (key : String) :
    get? (overlay fs other) key = (get? other key).or (get? fs key) := by
  cases hv : get? other key with
  | none => exact get?_foldl_insert_of_not_mem (get?_eq_none_iff.mp hv)
  | some v => exact get?_foldl_insert hn (mem_of_get? hv)

theorem overlay_assoc {fs gs hs : Fields α} (hf : Ascending fs) (hg : Ascending gs)
    (hh : Ascending hs) : overlay (overlay fs gs) hs = overlay fs (overlay gs hs) := by
  refine ((hf.overlay gs).overlay hs).ext (hf.overlay _) fun key => ?_
  rw [get?_overlay _ hh.nodup_keys, get?_overlay _ hg.nodup_keys,
    get?_overlay _ (hg.overlay hs).nodup_keys, get?_overlay _ hh.nodup_keys, Option.or_assoc]

end LazyGraph.Fields
