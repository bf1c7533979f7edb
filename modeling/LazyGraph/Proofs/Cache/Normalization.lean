import LazyGraph.Cache.Normalizer
import LazyGraph.Proofs.Json.Position

/-!
Normalization keeps the identities of its table, and puts into the table and in the place of a
value no reference but to identities that the table then has.
-/
namespace LazyGraph

/-- Every object of a table has members of its own, and all references in it are known. -/
def ObjectTable.Grounded (ids : String → Prop) (table : ObjectTable) : Prop :=
  ∀ p ∈ table, p.2.IsEntry ∧ p.2.Grounded ids

theorem ObjectTable.Grounded.insert {ids : String → Prop} {table : ObjectTable} {id : String}
    {v : Json} (h : table.Grounded ids) (he : v.IsEntry) (hv : v.Grounded ids) :
    ObjectTable.Grounded ids (Fields.insert table id v) := by
  intro p hp
  rcases Fields.mem_of_mem_insert hp with rfl | hp
  · exact ⟨he, hv⟩
  · exact h p hp

theorem ObjectTable.Grounded.mono {ids other : String → Prop} {table : ObjectTable}
    (h : table.Grounded ids) (hi : ∀ id, ids id → other id) : table.Grounded other :=
  fun p hp => ⟨(h p hp).1, (h p hp).2.mono hi⟩

theorem ObjectTable.Grounded.get? {ids : String → Prop} {table : ObjectTable} {id : String}
    {v : Json} (h : table.Grounded ids) (hv : Fields.get? table id = some v) :
    v.IsEntry ∧ v.Grounded ids := h (id, v) (Fields.mem_of_get? hv)

namespace Touched

theorem has_add (t : Touched) (id : String) (keys : List String) (other key : String) :
    (t.add id keys).has other key = true ↔ t.has other key = true ∨ (other = id ∧ key ∈ keys) := by
  simp only [has, add, List.contains_iff_mem]
  rw [Fields.get?_insert]
  by_cases h : other = id
  · subst h
    simp only [if_pos, Option.getD_some, List.mem_append, List.mem_filter, true_and,
      Bool.not_eq_true', List.contains_eq_mem, decide_eq_false_iff_not]
    by_cases hk : key ∈ (Fields.get? t other).getD []
    · exact ⟨fun _ => .inl hk, fun _ => .inl hk⟩
    · exact ⟨Or.imp_right And.left, Or.imp_right fun hm => ⟨hm, hk⟩⟩
  · rw [if_neg h]
    exact ⟨.inl, fun hor => hor.resolve_right fun he => h he.1⟩

end Touched

namespace Normalizer

/-! ### Merging -/

/-- Whatever a merge without a resolver puts together was stored or arrives. -/
theorem mem_of_mem_mergeMembers {n : Normalizer} {stored arriving : Fields Json}
    {q : String × Json} (h : q ∈ n.mergeMembers stored arriving) : q ∈ stored ∨ q ∈ arriving := by
  rw [mergeMembers] at h
  induction arriving generalizing stored with
  | nil => exact .inl h
  | cons p arriving ih =>
      rw [List.foldl_cons] at h
      rcases ih h with h | h
      · split at h
        · exact .inl h
        · rcases Fields.mem_of_mem_insert h with rfl | h
          · exact .inr List.mem_cons_self
          · exact .inl h
      · exact .inr (List.mem_cons_of_mem p h)

/-- A stored list stays in place of a list of its length, in one of the modes. -/
theorem keepsStored_iff {n : Normalizer} {stored : Option Json} {arriving : Json} :
    n.keepsStored stored arriving = true ↔ n.arrayMerge = .keepEqualLength ∧
      ∃ old items, stored = some (.array old) ∧ arriving = .array items ∧
        old.length = items.length := by
  rw [keepsStored.eq_def]
  split
  · rename_i old items hmode
    simp [hmode]
  · rename_i hother
    refine ⟨fun h => absurd h Bool.noConfusion, ?_⟩
    rintro ⟨hmode, old, items, rfl, rfl, _⟩
    exact absurd rfl (hother old items hmode rfl)

theorem get?_mergeMembers_of_not_mem (n : Normalizer) {arriving : Fields Json} {key : String}
    (h : key ∉ Fields.keys arriving) (stored : Fields Json) :
    Fields.get? (n.mergeMembers stored arriving) key = Fields.get? stored key := by
  rw [mergeMembers]
  induction arriving generalizing stored with
  | nil => rfl
  | cons p arriving ih =>
      rw [Fields.keys, List.map_cons, List.mem_cons, not_or] at h
      rw [List.foldl_cons, ih h.2]
      split
      · rfl
      · exact Fields.get?_insert_of_ne p.2 h.1

/-- An arriving member that is no list takes the place of a stored one. -/
theorem get?_mergeMembers (n : Normalizer) {arriving : Fields Json}
    (hn : (Fields.keys arriving).Nodup) (stored : Fields Json) {key : String} {y : Json}
    (hy : Fields.get? arriving key = some y) :
    ∃ z, Fields.get? (n.mergeMembers stored arriving) key = some z ∧
      (z = y ∨ ∃ items, y = .array items) := by
  induction arriving generalizing stored with
  | nil => cases hy
  | cons p arriving ih =>
      obtain ⟨hp, hn⟩ := List.nodup_cons.mp hn
      have hstep : ∀ stored, n.mergeMembers stored (p :: arriving) = n.mergeMembers
          (if n.keepsStored (Fields.get? stored p.1) p.2 then stored
            else Fields.insert stored p.1 p.2) arriving := fun _ => rfl
      rw [Fields.get?_cons] at hy
      rw [hstep]
      split at hy
      · rename_i hkey
        obtain rfl := Option.some.inj hy
        subst hkey
        rw [n.get?_mergeMembers_of_not_mem hp]
        split
        · rename_i hkeeps
          obtain ⟨_, old, items, hold, harriving, _⟩ := keepsStored_iff.mp hkeeps
          exact ⟨_, hold, .inr ⟨items, harriving⟩⟩
        · exact ⟨p.2, Fields.get?_insert_self stored p.1 p.2, .inl rfl⟩
      · exact ih hn _ hy

/-- The members under which an object is stored. -/
theorem store_table (n : Normalizer) (hr : n.resolver = none) (id : String)
    (object : Fields Json) (p : Progress) :
    ∃ members, (n.store id object p).table = Fields.insert p.table id (.object members) ∧
      ∀ q ∈ members, q ∈ object ∨
        ∃ stored, Fields.get? p.table id = some (.object stored) ∧ q ∈ stored := by
  rw [store]
  split
  · rename_i stored hs
    refine ⟨n.merge id stored object, rfl, fun q hq => ?_⟩
    rw [merge, hr] at hq
    rcases mem_of_mem_mergeMembers hq with hq | hq
    · exact .inr ⟨stored, hs, hq⟩
    · exact .inl hq
  · exact ⟨object, rfl, fun q hq => .inl hq⟩

/-! ### What normalization keeps -/

section Progress

variable {motive : Progress → Prop} {n : Normalizer} {levels : Nat} {p : Progress}

theorem normalizeItems_progress {items : List Json}
    (hparts : ∀ v ∈ items, ∀ p, motive p → motive (n.normalizeWithin levels p v).2)
    (h : motive p) : motive (n.normalizeItems levels p items).2 := by
  induction items generalizing p with
  | nil =>
      rw [normalizeItems]
      exact h
  | cons v items ih =>
      rw [normalizeItems]
      exact ih (fun u hu => hparts u (List.mem_cons_of_mem v hu))
        (hparts v List.mem_cons_self p h)

theorem normalizeFields_progress {fs : List (String × Json)}
    (hparts : ∀ q ∈ fs, ∀ p, motive p → motive (n.normalizeWithin levels p q.2).2)
    (h : motive p) : motive (n.normalizeFields levels p fs).2 := by
  induction fs generalizing p with
  | nil =>
      rw [normalizeFields]
      exact h
  | cons q fs ih =>
      rw [normalizeFields]
      exact ih (fun u hu => hparts u (List.mem_cons_of_mem q hu))
        (hparts q List.mem_cons_self p h)

variable (store : ∀ id object p, motive p → motive (n.store id object p))

include store

theorem settle_progress (object : Fields Json) (h : motive p) :
    motive (n.settle object p).2 := by
  rw [settle]
  split
  · exact h
  · exact store _ object p h

/-- What every stored object keeps, a whole value keeps. -/
theorem normalizeWithin_progress (levels : Nat) (v : Json) (h : motive p) :
    motive (n.normalizeWithin levels p v).2 := by
  induction v using Json.induction generalizing levels p with
  | null => exact h
  | bool b => exact h
  | number m => exact h
  | string s => exact h
  | array items ih =>
      cases levels with
      | zero => exact h
      | succ levels =>
          rw [normalizeWithin]
          exact normalizeItems_progress (fun v hv p hp => ih v hv levels hp) h
  | object fs ih =>
      cases levels with
      | zero => exact h
      | succ levels =>
          rw [normalizeWithin]
          split
          · exact h
          · refine settle_progress store _ ?_
            exact normalizeFields_progress (fun q hq p hp => ih q hq levels hp) h

end Progress

section Table

variable {motive : ObjectTable → Prop}
  (insert : ∀ table id members, motive table → motive (Fields.insert table id (.object members)))

include insert

theorem settle_table (n : Normalizer) (object : Fields Json) {p : Progress}
    (h : motive p.table) : motive (n.settle object p).2.table :=
  settle_progress (motive := fun p => motive p.table) (fun _ _ p hp => insert p.table _ _ hp)
    object h

/-- The table changes by objects put into it, and in no other way. -/
theorem normalizeWithin_table (n : Normalizer) (levels : Nat) {p : Progress} (v : Json)
    (h : motive p.table) : motive (n.normalizeWithin levels p v).2.table :=
  normalizeWithin_progress (motive := fun p => motive p.table)
    (fun _ _ p hp => insert p.table _ _ hp) levels v h

end Table

section Identities

variable (n : Normalizer) (levels : Nat) (p : Progress)

theorem keys_subset_insert (table : ObjectTable) (id : String) (v : Json) :
    Fields.keys table ⊆ Fields.keys (Fields.insert table id v) :=
  fun _ hk => Fields.mem_keys_insert.mpr (.inr hk)

theorem keys_subset_settle (object : Fields Json) :
    Fields.keys p.table ⊆ Fields.keys (n.settle object p).2.table :=
  settle_table (motive := (Fields.keys p.table ⊆ Fields.keys ·))
    (fun _ _ _ h => List.Subset.trans h (keys_subset_insert _ _ _)) n object
    (List.Subset.refl _)

theorem keys_subset_normalizeWithin (v : Json) :
    Fields.keys p.table ⊆ Fields.keys (n.normalizeWithin levels p v).2.table :=
  normalizeWithin_table (motive := (Fields.keys p.table ⊆ Fields.keys ·))
    (fun _ _ _ h => List.Subset.trans h (keys_subset_insert _ _ _)) n levels v
    (List.Subset.refl _)

theorem keys_subset_normalizeItems (items : List Json) :
    Fields.keys p.table ⊆ Fields.keys (n.normalizeItems levels p items).2.table :=
  normalizeItems_progress (motive := fun q => Fields.keys p.table ⊆ Fields.keys q.table)
    (fun v _ q hq => List.Subset.trans hq (keys_subset_normalizeWithin n levels q v))
    (List.Subset.refl _)

theorem keys_subset_normalizeFields (fs : List (String × Json)) :
    Fields.keys p.table ⊆ Fields.keys (n.normalizeFields levels p fs).2.table :=
  normalizeFields_progress (motive := fun q => Fields.keys p.table ⊆ Fields.keys q.table)
    (fun q _ r hr => List.Subset.trans hr (keys_subset_normalizeWithin n levels r q.2))
    (List.Subset.refl _)

end Identities

/-! ### References -/

/-- What one step of normalization keeps: with a grounded table before, it leaves a grounded
table and a grounded value, as far as all identities of the table after it count. -/
def Keeps (ids : String → Prop) (p : Progress) (r : Json × Progress) : Prop :=
  (∀ id ∈ Fields.keys r.2.table, ids id) → p.table.Grounded ids →
    r.1.Grounded ids ∧ r.2.table.Grounded ids

theorem keeps_settle {ids : String → Prop} {n : Normalizer} (hr : n.resolver = none)
    {object : Fields Json} {p : Progress} (hk : referenceKey ∉ Fields.keys object)
    (ho : ∀ q ∈ object, q.2.Grounded ids) : Keeps ids p (n.settle object p) := by
  intro hids hp
  rw [settle] at hids ⊢
  split at hids
  · exact ⟨(Json.grounded_object hk).mpr ho, hp⟩
  · rename_i id _
    obtain ⟨members, ht, hm⟩ := n.store_table hr id object p
    have hid : ids id := hids id (ht ▸ Fields.mem_keys_insert.mpr (.inl rfl))
    refine ⟨Json.grounded_reference hid, ?_⟩
    have hsource : ∀ q ∈ members, q.1 ≠ referenceKey ∧ q.2.Grounded ids := by
      intro q hq
      rcases hm q hq with hq | ⟨stored, hs, hq⟩
      · exact ⟨fun e => hk (e ▸ Fields.mem_keys_of_mem hq), ho q hq⟩
      · obtain ⟨⟨fs, he, hfs⟩, hg⟩ := hp.get? hs
        cases he
        exact ⟨fun e => hfs (e ▸ Fields.mem_keys_of_mem hq), (Json.grounded_object hfs).mp hg q hq⟩
    have hmk : referenceKey ∉ Fields.keys members := by
      intro hm
      obtain ⟨q, hq, e⟩ := List.mem_map.mp hm
      exact (hsource q hq).1 e
    rw [ht]
    exact hp.insert ⟨members, rfl, hmk⟩
      ((Json.grounded_object hmk).mpr fun q hq => (hsource q hq).2)

theorem normalizeItems_grounded {ids : String → Prop} {n : Normalizer} {levels : Nat}
    {items : List Json} (h : ∀ v ∈ items, ∀ p, Keeps ids p (n.normalizeWithin levels p v))
    {p : Progress} (hids : ∀ id ∈ Fields.keys (n.normalizeItems levels p items).2.table, ids id)
    (hp : p.table.Grounded ids) :
    (∀ v ∈ (n.normalizeItems levels p items).1, v.Grounded ids) ∧
      (n.normalizeItems levels p items).2.table.Grounded ids := by
  induction items generalizing p with
  | nil =>
      rw [normalizeItems]
      exact ⟨fun v hv => absurd hv List.not_mem_nil, hp⟩
  | cons v items ih =>
      rw [normalizeItems] at hids ⊢
      have hrest := fun u hu => h u (List.mem_cons_of_mem v hu)
      have hsub := keys_subset_normalizeItems n levels (n.normalizeWithin levels p v).2 items
      obtain ⟨hv, ht⟩ := h v List.mem_cons_self p (fun id hid => hids id (hsub hid)) hp
      obtain ⟨hvs, hts⟩ := ih hrest hids ht
      exact ⟨List.forall_mem_cons.mpr ⟨hv, hvs⟩, hts⟩

theorem keys_normalizeFields (n : Normalizer) (levels : Nat) (p : Progress)
    (fs : List (String × Json)) :
    Fields.keys (n.normalizeFields levels p fs).1 = Fields.keys fs := by
  induction fs generalizing p with
  | nil =>
      rw [normalizeFields]
  | cons q fs ih =>
      rw [normalizeFields]
      exact congrArg (q.1 :: ·) (ih _)

theorem normalizeFields_grounded {ids : String → Prop} {n : Normalizer} {levels : Nat}
    {fs : List (String × Json)}
    (h : ∀ q ∈ fs, ∀ p, Keeps ids p (n.normalizeWithin levels p q.2))
    {p : Progress} (hids : ∀ id ∈ Fields.keys (n.normalizeFields levels p fs).2.table, ids id)
    (hp : p.table.Grounded ids) :
    (∀ q ∈ (n.normalizeFields levels p fs).1, q.2.Grounded ids) ∧
      (n.normalizeFields levels p fs).2.table.Grounded ids := by
  induction fs generalizing p with
  | nil =>
      rw [normalizeFields]
      exact ⟨fun q hq => absurd hq List.not_mem_nil, hp⟩
  | cons q fs ih =>
      rw [normalizeFields] at hids ⊢
      have hrest := fun u hu => h u (List.mem_cons_of_mem q hu)
      have hsub := keys_subset_normalizeFields n levels (n.normalizeWithin levels p q.2).2 fs
      obtain ⟨hv, ht⟩ := h q List.mem_cons_self p (fun id hid => hids id (hsub hid)) hp
      obtain ⟨hvs, hts⟩ := ih hrest hids ht
      exact ⟨List.forall_mem_cons.mpr ⟨hv, hvs⟩, hts⟩

/-- A value without the key of references is normalized to references into the table. -/
theorem normalizeWithin_grounded {ids : String → Prop} {n : Normalizer} (hr : n.resolver = none)
    (levels : Nat) (p : Progress) {v : Json} (hv : v.Plain) :
    Keeps ids p (n.normalizeWithin levels p v) := by
  induction v using Json.induction generalizing levels p with
  | null => exact fun _ hp => ⟨trivial, hp⟩
  | bool b => exact fun _ hp => ⟨trivial, hp⟩
  | number m => exact fun _ hp => ⟨trivial, hp⟩
  | string s => exact fun _ hp => ⟨trivial, hp⟩
  | array items ih =>
      intro hids hp
      cases levels with
      | zero => exact ⟨hv.grounded, hp⟩
      | succ levels =>
          rw [normalizeWithin] at hids ⊢
          have hitems := fun v hm p => ih v hm levels p (Json.everywhere_array.mp hv v hm)
          obtain ⟨hvs, ht⟩ := normalizeItems_grounded hitems hids hp
          exact ⟨Json.grounded_array.mpr hvs, ht⟩
  | object fs ih =>
      intro hids hp
      obtain ⟨hk, hparts⟩ := Json.everywhere_object.mp hv
      cases levels with
      | zero => exact ⟨hv.grounded, hp⟩
      | succ levels =>
          simp only [normalizeWithin, Json.referenceIn?_eq_none hk] at hids ⊢
          have hfields := fun q hq p => ih q hq levels p (hparts q hq)
          have hsub := n.keys_subset_settle (n.normalizeFields levels p fs).2
            (n.normalizeFields levels p fs).1
          obtain ⟨hvs, ht⟩ := normalizeFields_grounded hfields
            (fun id hid => hids id (hsub hid)) hp
          exact keeps_settle hr (keys_normalizeFields n levels p fs ▸ hk) hvs hids ht

end Normalizer
end LazyGraph
