import Mathlib.Data.List.Forall2
import LazyGraph.Proofs.Json.Equality
import LazyGraph.Proofs.Json.Removal
import LazyGraph.Proofs.Json.Unfolding

/-!
What stored values stand for. A stored value mirrors an original one if it has its parts, or has a
reference where an object with that identity belongs. Where every object of a table mirrors the one
original object of its identity, expansion gives the original value again.

Originals are compared through a view, so that the same holds of values and of their forms.
-/
namespace LazyGraph.Json

/-! ### The objects of a value -/

mutual
/-- The objects in a value, at any depth. -/
def objects : Json → List (Fields Json)
  | .object fs => fs :: objectsInFields fs
  | .array items => objectsInItems items
  | _ => []

def objectsInItems : List Json → List (Fields Json)
  | [] => []
  | v :: rest => objects v ++ objectsInItems rest

def objectsInFields : List (String × Json) → List (Fields Json)
  | [] => []
  | (_, v) :: rest => objects v ++ objectsInFields rest
end

theorem mem_objects_array {items : List Json} {fs : Fields Json} :
    fs ∈ objects (.array items) ↔ ∃ v ∈ items, fs ∈ v.objects := by
  rw [objects]
  induction items with
  | nil => simp [objectsInItems]
  | cons v items ih => simp [objectsInItems, ih]

theorem mem_objects_object {gs fs : Fields Json} :
    fs ∈ objects (.object gs) ↔ fs = gs ∨ ∃ p ∈ gs, fs ∈ p.2.objects := by
  have hparts : ∀ members : List (String × Json),
      fs ∈ objectsInFields members ↔ ∃ p ∈ members, fs ∈ p.2.objects := by
    intro members
    induction members with
    | nil => simp [objectsInFields]
    | cons p members ih => simp [objectsInFields, ih]
  rw [objects, List.mem_cons, hparts]

/-! ### Views -/

/-- A view of a value is made of the views of its parts. -/
structure Partwise (view : Json → Json) : Prop where
  array : ∀ items, view (.array items) = .array (items.map view)
  object : ∀ fs, view (.object fs) = .object (Fields.mapValues view fs)

theorem partwise_id : Partwise id where
  array items := by simp
  object fs := by simp [Fields.mapValues]

theorem partwise_form : Partwise form where
  array items := by
    have hparts : ∀ items, formItems items = items.map form := by
      intro items
      induction items with
      | nil => rfl
      | cons v items ih => rw [formItems, ih, List.map_cons]
    rw [form, hparts]
  object fs := by
    have hparts : ∀ fs, formFields fs = Fields.mapValues form fs := by
      intro fs
      induction fs with
      | nil => rfl
      | cons p fs ih =>
          rw [formFields, ih]
          rfl
    rw [form, hparts]

/-! ### Stored values and originals -/

/-- The first value is stored in the place of an original with the second one as its view. `origin`
tells the views of the originals of each identity. -/
inductive Mirrors (view : Json → Json) (origin : String → Json → Prop) : Json → Json → Prop
  | scalar {w x : Json} (hobject : w.asObject? = none) (harray : w.asArray? = none)
    (same : view w = x) : Mirrors view origin w x
  | array {items xs : List Json} (length : items.length = xs.length)
    (parts : ∀ (i : Nat) (w x : Json), items[i]? = some w → xs[i]? = some x →
      Mirrors view origin w x) : Mirrors view origin (.array items) (.array xs)
  | object {gs xs : Fields Json} (plain : referenceKey ∉ Fields.keys xs)
    (ascending : Fields.Ascending xs) (keys : Fields.keys gs = Fields.keys xs)
    (parts : ∀ key w x, Fields.get? gs key = some w → Fields.get? xs key = some x →
      Mirrors view origin w x) : Mirrors view origin (.object gs) (.object xs)
  | reference {id : String} {x : Json} (known : origin id x) : Mirrors view origin (.reference id) x

/-- The members of a stored object mirror those of an original. -/
structure MirrorsMembers (view : Json → Json) (origin : String → Json → Prop)
    (gs xs : Fields Json) : Prop where
  plain : referenceKey ∉ Fields.keys xs
  ascending : Fields.Ascending xs
  keys : Fields.keys gs = Fields.keys xs
  parts : ∀ key w x, Fields.get? gs key = some w → Fields.get? xs key = some x →
    Mirrors view origin w x

/-- Every object of a table mirrors the original of its identity. -/
def TableMirrors (view : Json → Json) (origin : String → Json → Prop) (table : ObjectTable) : Prop :=
  ∀ id u, Fields.get? table id = some u →
    ∃ gs xs, u = .object gs ∧ origin id (.object xs) ∧ MirrorsMembers view origin gs xs

variable {view : Json → Json} {origin : String → Json → Prop} {gs fs xs : Fields Json}

theorem MirrorsMembers.ascending_stored (h : MirrorsMembers view origin gs xs) :
    Fields.Ascending gs := h.ascending.of_keys h.keys

theorem MirrorsMembers.mirrors (h : MirrorsMembers view origin gs xs) :
    Mirrors view origin (.object gs) (.object xs) :=
  .object h.plain h.ascending h.keys h.parts

/-- Members that mirror those of an object, one by one, mirror its view. -/
theorem mirrorsMembers_of_forall₂ (plain : referenceKey ∉ Fields.keys fs)
    (ascending : Fields.Ascending fs) (h : List.Forall₂ (fun r q : String × Json =>
      r.1 = q.1 ∧ Mirrors view origin r.2 (view q.2)) gs fs) :
    MirrorsMembers view origin gs (Fields.mapValues view fs) := by
  let R : Json → Json → Prop := fun w v => Mirrors view origin w (view v)
  have hkeys : Fields.keys gs = Fields.keys fs := Fields.keys_of_forall₂ (R := R) h
  have hview := Fields.keys_mapValues view fs
  refine ⟨hview ▸ plain, ascending.of_keys hview, hkeys.trans hview.symm, ?_⟩
  intro key w x hw hx
  rw [Fields.get?_mapValues] at hx
  obtain ⟨v, hv, rfl⟩ := Option.map_eq_some_iff.mp hx
  exact Fields.of_forall₂ (R := R) h hw hv

section Views

variable (partwise : Partwise view)

include partwise

theorem mirrors_items {ws items : List Json}
    (h : List.Forall₂ (fun w v => Mirrors view origin w (view v)) ws items) :
    Mirrors view origin (.array ws) (view (.array items)) := by
  have hlength := h.length_eq
  rw [partwise.array]
  refine .array (by simpa using hlength) fun i w x hw hx => ?_
  rw [List.getElem?_map] at hx
  obtain ⟨v, hv, rfl⟩ := Option.map_eq_some_iff.mp hx
  obtain ⟨hi, rfl⟩ := List.getElem?_eq_some_iff.mp hw
  obtain ⟨hj, rfl⟩ := List.getElem?_eq_some_iff.mp hv
  exact h.get hi hj

/-- A value without the key of references mirrors itself. -/
theorem mirrors_self {v : Json} (plain : v.Plain) (ordered : v.InOrder) :
    Mirrors view origin v (view v) := by
  induction v using Json.induction with
  | array items ih =>
      refine mirrors_items partwise (List.forall₂_same.mpr fun v hv => ?_)
      exact ih v hv (everywhere_array.mp plain v hv) (inOrder_array.mp ordered v hv)
  | object fs ih =>
      obtain ⟨hplain, hplains⟩ := everywhere_object.mp plain
      obtain ⟨hascending, hordered⟩ := inOrder_object.mp ordered
      rw [partwise.object]
      refine (mirrorsMembers_of_forall₂ hplain hascending ?_).mirrors
      exact List.forall₂_same.mpr fun p hp => ⟨rfl, ih p hp (hplains p hp) (hordered p hp)⟩
  | _ => exact .scalar rfl rfl rfl

end Views

/-! ### Expansion -/

theorem sizeOf_item_lt {xs : List Json} {i : Nat} {x : Json} (h : xs[i]? = some x) :
    sizeOf x < sizeOf (Json.array xs) := by
  have hmem := List.sizeOf_lt_of_mem (List.mem_of_getElem? h)
  simp only [Json.array.sizeOf_spec]
  omega

theorem sizeOf_member_lt {key : String} {x : Json} (h : Fields.get? xs key = some x) :
    sizeOf x < sizeOf (Json.object xs) := by
  have hmem := List.sizeOf_lt_of_mem (Fields.mem_of_get? h)
  simp only [Prod.mk.sizeOf_spec, Json.object.sizeOf_spec] at hmem ⊢
  omega

section Expansion

variable {table : ObjectTable} {opened : List String} (partwise : Partwise view)

include partwise

theorem view_expandBelow_items {items xs : List Json} (length : items.length = xs.length)
    (parts : ∀ (i : Nat) (w x : Json), items[i]? = some w → xs[i]? = some x →
      view (expandBelow table opened w) = x) :
    view (expandBelow table opened (.array items)) = .array xs := by
  rw [(expands_expandBelow table).array, partwise.array, List.map_map]
  refine congrArg Json.array (List.ext_getElem (by simpa using length) fun i hi hj => ?_)
  rw [List.length_map] at hi
  rw [List.getElem_map]
  exact parts i items[i] xs[i] (List.getElem?_eq_getElem hi) (List.getElem?_eq_getElem hj)

theorem view_expandBelow_members (h : MirrorsMembers view origin gs xs)
    (parts : ∀ key w x, Fields.get? gs key = some w → Fields.get? xs key = some x →
      view (expandBelow table opened w) = x) :
    view (expandBelow table opened (.object gs)) = .object xs := by
  have hplain : referenceIn? gs = none := referenceIn?_eq_none (h.keys ▸ h.plain)
  have hexpanded : expandBelow table opened (.object gs) =
      .object (Fields.mapValues (expandBelow table opened) gs) :=
    (expands_expandBelow table).object opened gs hplain
  rw [hexpanded, partwise.object]
  have hkeys : Fields.keys (Fields.mapValues view (Fields.mapValues (expandBelow table opened) gs)) =
      Fields.keys xs := by
    rw [Fields.keys_mapValues, Fields.keys_mapValues, h.keys]
  apply congrArg Json.object
  apply (h.ascending.of_keys hkeys).ext h.ascending
  intro key
  rw [Fields.get?_mapValues, Fields.get?_mapValues]
  cases hw : Fields.get? gs key with
  | none =>
      rw [Fields.get?_eq_none_iff, h.keys, ← Fields.get?_eq_none_iff] at hw
      rw [hw]
      rfl
  | some w =>
      have hkey : key ∈ Fields.keys xs :=
        h.keys ▸ Fields.mem_keys_of_mem (Fields.mem_of_get? hw)
      obtain ⟨x, hx⟩ := Option.isSome_iff_exists.mp (Fields.get?_isSome_iff.mpr hkey)
      rw [hx, Option.map_some, Option.map_some, parts key w x hw hx]

/-- What mirrors an original expands to it, through a table that holds what it refers to and mirrors
one original for each identity. Below opened identities this holds of what is smaller than their
originals. -/
theorem view_expandBelow (unique : ∀ id x y, origin id x → origin id y → x = y)
    (mirrored : TableMirrors view origin table)
    (closed : ∀ id u, Fields.get? table id = some u → u.Grounded (Fields.contains table · = true))
    {w x : Json} (h : Mirrors view origin w x) (hg : w.Grounded (Fields.contains table · = true))
    (inside : ∀ id ∈ opened, ∀ y, origin id y → sizeOf x < sizeOf y) :
    view (expandBelow table opened w) = x := by
  have solves := expands_expandBelow table
  induction hn : sizeOf x using Nat.strongRecOn generalizing opened w x with
  | ind n ih =>
    subst hn
    have members : ∀ {gs xs opened}, x = .object xs → MirrorsMembers view origin gs xs →
        Grounded (Fields.contains table · = true) (.object gs) →
        (∀ id ∈ opened, ∀ y, origin id y → sizeOf x ≤ sizeOf y) →
        view (expandBelow table opened (.object gs)) = .object xs := by
      rintro gs xs opened rfl hm hg hinside
      have hparts := (grounded_object (hm.keys ▸ hm.plain)).mp hg
      apply view_expandBelow_members partwise hm
      intro key w x hw hx
      have hsmaller := sizeOf_member_lt hx
      exact ih _ hsmaller (hm.parts key w x hw hx) (hparts _ (Fields.mem_of_get? hw))
        (fun id hid y hy => Nat.lt_of_lt_of_le hsmaller (hinside id hid y hy)) rfl
    cases h with
    | scalar hobject harray same => rwa [solves.scalar opened w hobject harray]
    | @array items xs length parts =>
        apply view_expandBelow_items partwise length
        intro i w x hw hx
        have hsmaller := sizeOf_item_lt hx
        exact ih _ hsmaller (parts i w x hw hx) (grounded_array.mp hg w (List.mem_of_getElem? hw))
          (fun id hid y hy => Nat.lt_trans hsmaller (inside id hid y hy)) rfl
    | @object gs xs plain ascending keys parts =>
        exact members rfl ⟨plain, ascending, keys, parts⟩ hg fun id hid y hy =>
          Nat.le_of_lt (inside id hid y hy)
    | @reference id x known =>
        have hfresh : id ∉ opened := fun hid => Nat.lt_irrefl _ (inside id hid x known)
        have hthere : Fields.contains table id = true :=
          hg.references id (mem_references_reference id)
        obtain ⟨u, hu⟩ := Option.isSome_iff_exists.mp hthere
        obtain ⟨gs, xs, rfl, horigin, hm⟩ := mirrored id u hu
        obtain rfl := unique id _ _ known horigin
        rw [solves.entry opened id _ hfresh hu]
        refine members rfl hm (closed id _ hu) fun other ho y hy => ?_
        rcases List.mem_cons.mp ho with rfl | ho
        · exact Nat.le_of_eq (congrArg sizeOf (unique other _ _ known hy))
        · exact Nat.le_of_lt (inside other ho y hy)

end Expansion
end LazyGraph.Json
