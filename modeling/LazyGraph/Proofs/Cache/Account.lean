import LazyGraph.Proofs.Cache.Touched

/-!
The record of a normalization accounts for all that it changes. An identity that is not recorded has
the object that it had. A recorded one has an object in which the recorded keys are present, and what
stands under any other key is as it was.
-/
namespace LazyGraph

/-- Under each identity of the table stands an object. -/
def ObjectTable.HoldsObjects (table : ObjectTable) : Prop :=
  ∀ id v, Fields.get? table id = some v → ∃ fs, v = .object fs

/-- The keys that are recorded for an identity are present in its members, and under the others the
members hold what the value before held. -/
structure Touched.Frames (t : Touched) (id : String) (before : Option Json) (members : Fields Json) :
    Prop where
  present : ∀ key, t.has id key = true → key ∈ Fields.keys members
  kept : ∀ key, t.has id key = false → Fields.get? members key = before.bind (·.member? key)

namespace Touched

variable {t : Touched} {id other key : String} {keys : List String} {before : Option Json}
  {members arriving : Fields Json}

theorem has_eq_false_of_not_mem (h : id ∉ t.ids) : t.has id key = false := by
  rw [has, Fields.get?_eq_none_iff.mpr h]
  rfl

/-- What is recorded for one identity says nothing of another one. -/
theorem has_add_of_ne (h : other ≠ id) : (t.add id keys).has other key = t.has other key := by
  rw [has, add, Fields.get?_insert_of_ne _ h]
  rfl

theorem not_has_add (h : (t.add id keys).has id key = false) :
    t.has id key = false ∧ key ∉ keys := by
  have hnone : ¬ (t.add id keys).has id key = true := Bool.eq_false_iff.mp h
  rw [has_add, not_or] at hnone
  exact ⟨Bool.eq_false_iff.mpr hnone.1, fun hk => hnone.2 ⟨rfl, hk⟩⟩

theorem Frames.add_of_ne (h : t.Frames other before members) (hne : other ≠ id) :
    (t.add id keys).Frames other before members where
  present key hk := h.present key (has_add_of_ne hne ▸ hk)
  kept key hk := h.kept key (has_add_of_ne hne ▸ hk)

/-- An object that was not there has the recorded members and no others. -/
theorem Frames.fresh (h : ∀ key, t.has id key = false) (members : Fields Json) :
    (t.add id (Fields.keys members)).Frames id none members where
  present key hk := by
    rcases (t.has_add id _ id key).mp hk with hk | ⟨_, hk⟩
    · rw [h key] at hk
      cases hk
    · exact hk
  kept key hk := Fields.get?_eq_none_iff.mpr (not_has_add hk).2

end Touched

namespace Normalizer

variable {n : Normalizer} {table : ObjectTable} {p : Progress}

/-- A merge takes no key away, and all keys that arrive are there after it. -/
theorem mem_keys_mergeMembers {stored arriving : Fields Json} {key : String}
    (h : key ∈ Fields.keys stored ∨ key ∈ Fields.keys arriving) :
    key ∈ Fields.keys (n.mergeMembers stored arriving) := by
  rw [mergeMembers]
  induction arriving generalizing stored with
  | nil => exact h.resolve_right List.not_mem_nil
  | cons q arriving ih =>
      have hkeys : key ∈ Fields.keys stored ∨ key = q.1 ∨ key ∈ Fields.keys arriving :=
        h.imp_right List.mem_cons.mp
      rw [List.foldl_cons]
      apply ih
      split
      · rename_i hkeeps
        obtain ⟨_, old, _, hold, _⟩ := keepsStored_iff.mp hkeeps
        have hq : q.1 ∈ Fields.keys stored := Fields.get?_isSome_iff.mp (Option.isSome_of_eq_some hold)
        rcases hkeys with h | rfl | h
        · exact .inl h
        · exact .inl hq
        · exact .inr h
      · rw [Fields.mem_keys_insert]
        rcases hkeys with h | h | h
        · exact .inl (.inr h)
        · exact .inl (.inl h)
        · exact .inr h

/-- What is put together of framed members and others is framed by the keys of both. -/
theorem frames_mergeMembers {t : Touched} {id : String} {before : Option Json}
    {members : Fields Json} (h : t.Frames id before members) (n : Normalizer)
    (arriving : Fields Json) :
    (t.add id (Fields.keys arriving)).Frames id before (n.mergeMembers members arriving) where
  present key hk := by
    apply mem_keys_mergeMembers
    rcases (t.has_add id _ id key).mp hk with hk | ⟨_, hk⟩
    · exact .inl (h.present key hk)
    · exact .inr hk
  kept key hk := by
    obtain ⟨hbefore, harriving⟩ := Touched.not_has_add hk
    exact (n.get?_mergeMembers_of_not_mem harriving members).trans (h.kept key hbefore)

/-- What was recorded on the way from the table accounts for all that is different by now. -/
structure Progress.Accounts (table : ObjectTable) (p : Progress) : Prop where
  kept : ∀ id, id ∉ p.touched.ids → Fields.get? p.table id = Fields.get? table id
  written : ∀ id ∈ p.touched.ids, ∃ members, Fields.get? p.table id = some (.object members) ∧
    p.touched.Frames id (Fields.get? table id) members

namespace Progress.Accounts

theorem start (table : ObjectTable) : Accounts table { table } where
  kept _ _ := rfl
  written _ h := absurd h List.not_mem_nil

/-- Either an identity has no object and had none, or its members are accounted for. -/
theorem cases (h : p.Accounts table) (objects : table.HoldsObjects) (id : String) :
    (Fields.get? p.table id = none ∧ Fields.get? table id = none ∧ id ∉ p.touched.ids) ∨
    ∃ members, Fields.get? p.table id = some (.object members) ∧
      p.touched.Frames id (Fields.get? table id) members := by
  by_cases hid : id ∈ p.touched.ids
  · exact .inr (h.written id hid)
  · rw [h.kept id hid]
    cases hbefore : Fields.get? table id with
    | none => exact .inl ⟨rfl, rfl, hid⟩
    | some v =>
        obtain ⟨members, rfl⟩ := objects id v hbefore
        refine .inr ⟨members, rfl, fun key hk => ?_, fun key _ => rfl⟩
        rw [Touched.has_eq_false_of_not_mem hid] at hk
        cases hk

/-- One object is stored. -/
theorem store (h : p.Accounts table) (objects : table.HoldsObjects) (hr : n.resolver = none)
    (id : String) (object : Fields Json) : (n.store id object p).Accounts table where
  kept other ho := by
    rw [Normalizer.store] at ho ⊢
    rw [mem_ids_add, not_or] at ho
    exact (Fields.get?_insert_of_ne _ ho.1).trans (h.kept other ho.2)
  written other ho := by
    rw [Normalizer.store] at ho ⊢
    by_cases hother : other = id
    · subst hother
      refine ⟨_, Fields.get?_insert_self _ _ _, ?_⟩
      rcases h.cases objects other with ⟨hnone, hbefore, hid⟩ | ⟨members, hsome, hframes⟩
      · rw [hnone, hbefore]
        exact .fresh (fun key => Touched.has_eq_false_of_not_mem hid) object
      · simp only [hsome, Normalizer.merge, hr]
        exact frames_mergeMembers hframes n object
    · obtain ⟨members, hsome, hframes⟩ := h.written other ((mem_ids_add.mp ho).resolve_left hother)
      exact ⟨members, (Fields.get?_insert_of_ne _ hother).trans hsome, hframes.add_of_ne hother⟩

/-- A value is normalized after others. -/
theorem normalizeWithin (h : p.Accounts table) (objects : table.HoldsObjects)
    (hr : n.resolver = none) (levels : Nat) (v : Json) :
    (n.normalizeWithin levels p v).2.Accounts table :=
  normalizeWithin_progress (fun id object _ hp => hp.store objects hr id object) levels v h

end Progress.Accounts

/-- What normalizing a value records accounts for all that it changes in a table of objects: an
identity that is not recorded has what it had; one that is recorded has an object, with all keys
that are recorded for it, and with what stood there before under every other key. -/
theorem normalize_accounts (n : Normalizer) (hr : n.resolver = none) (table : ObjectTable)
    (objects : table.HoldsObjects) (v : Json) : (n.normalize table v).2.Accounts table :=
  (Progress.Accounts.start table).normalizeWithin objects hr (maxDepth + 1) v

/-! ### A user inside of itself -/

/-- A user that is stored with a name and two tags. -/
def storedUser : ObjectTable :=
  [("U:1", .object [("__typename", .string "U"), ("id", .int 1), ("name", .string "Ada"),
    ("tags", .array [.int 1, .int 2])])]

/-- The user as its own best friend, who has two other tags and an age. -/
def ownFriend : Json :=
  .object [("__typename", .string "U"),
    ("best", .object [("__typename", .string "U"), ("age", .int 36), ("id", .int 1),
      ("tags", .array [.int 3, .int 4])]),
    ("id", .int 1)]

/-- Both occurrences are recorded together: the tags count as written although the stored ones stay,
and the name is as it was. -/
theorem normalize_accounts_ownFriend :
    (default : Normalizer).resolver = none ∧ storedUser.HoldsObjects ∧
    ((default : Normalizer).normalize storedUser ownFriend).2.touched =
      [("U:1", ["__typename", "age", "id", "tags", "best"])] ∧
    ∃ members, Fields.get? ((default : Normalizer).normalize storedUser ownFriend).2.table "U:1" =
        some (.object members) ∧
      "tags" ∈ Fields.keys members ∧ Fields.get? members "name" = some (.string "Ada") ∧
      Fields.get? members "email" = none := by
  have objects : storedUser.HoldsObjects := by
    intro id v h
    obtain ⟨⟩ := List.mem_singleton.mp (Fields.mem_of_get? h)
    exact ⟨_, rfl⟩
  have recorded : ((default : Normalizer).normalize storedUser ownFriend).2.touched =
      [("U:1", ["__typename", "age", "id", "tags", "best"])] := by decide +kernel
  have accounts := normalize_accounts default rfl storedUser objects ownFriend
  have hid : "U:1" ∈ ((default : Normalizer).normalize storedUser ownFriend).2.touched.ids := by
    rw [recorded]
    exact List.mem_singleton.mpr rfl
  obtain ⟨members, hmembers, hframes⟩ := accounts.written "U:1" hid
  rw [recorded] at hframes
  exact ⟨rfl, objects, recorded, members, hmembers, hframes.present "tags" (by decide),
    hframes.kept "name" (by decide), hframes.kept "email" (by decide)⟩

end Normalizer

namespace Cache

open Normalizer (Progress)

/-- Root fields are stored one after the other with one record, which accounts for what all of them
change. -/
theorem storeFields_accounts {options : Options}
    (hr : ∀ n, options.normalizer = some n → n.resolver = none) (now : Nat) (s : Store)
    (objects : s.objects.HoldsObjects) (fields : List (Operation × String × Json)) :
    (progressOf (storeFields options now s fields)).Accounts s.objects := by
  rw [storeFields]
  refine List.foldlRecOn (motive := fun acc : Store × Touched =>
    (progressOf acc).Accounts s.objects) fields _ (.start s.objects) ?_
  rintro acc h x _
  show (normalized options acc.1.objects acc.2 x.2.2).2.Accounts s.objects
  rw [normalized]
  split
  · exact h.normalizeWithin objects (hr _ ‹_›) _ _
  · exact h

end Cache
end LazyGraph
