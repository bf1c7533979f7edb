import LazyGraph.Proofs.Accessor.Pass

/-!
Through a placeholder come placeholders alone, and whatever is read or written through them is
inert.
-/
namespace LazyGraph

/-! ### Placeholders -/

/-- The value was not read: an object, a list or a union is a placeholder, and a scalar absent. -/
inductive FieldValue.Vacant : FieldValue → Prop
  | scalar : Vacant (.scalar none)
  | object {a : Accessor} (placeholder : a.isPlaceholder = true) : Vacant (.object (some a))
  | list {l : ListAccessor} (placeholder : l.isPlaceholder = true) : Vacant (.list (some l))
  | union {u : UnionAccessor} (placeholder : u.isPlaceholder = true) : Vacant (.union (some u))

namespace FieldValue.Vacant

theorem object_iff {a : Accessor} :
    Vacant (.object (some a)) ↔ a.isPlaceholder = true := by
  refine ⟨fun h => ?_, .object⟩
  cases h with
  | object placeholder => exact placeholder

theorem list_iff {l : ListAccessor} : Vacant (.list (some l)) ↔ l.isPlaceholder = true := by
  refine ⟨fun h => ?_, .list⟩
  cases h with
  | list placeholder => exact placeholder

theorem union_iff {u : UnionAccessor} : Vacant (.union (some u)) ↔ u.isPlaceholder = true := by
  refine ⟨fun h => ?_, .union⟩
  cases h with
  | union placeholder => exact placeholder

end FieldValue.Vacant

namespace Walk

/-- Whatever is resolved as a placeholder is one, and nothing is read for it. -/
theorem resolve_placeholder (x : Selection) (type : TypeRef) (path : CachePath)
    (operation : Operation) (s : Scene) :
    s.Inert ((resolve x type path operation true).run s).2 ∧
      ((resolve x type path operation true).run s).1.Vacant := by
  have hregister := inert_register x type s
  rw [resolve, run_bind]
  split
  · exact ⟨hregister.trans (inert_touchItem _ 0 _), .list rfl⟩
  · rw [run_get_bind]
    split
    · exact ⟨hregister, .scalar⟩
    · have hnew := inert_newAccessor x type.name operation (some path) true
      exact ⟨hregister.trans (hnew _), .object rfl⟩
    · exact ⟨hregister, .union rfl⟩

end Walk

/-! ### Lists, unions and objects -/

namespace ListAccessor

variable {l : ListAccessor} (placeholder : l.isPlaceholder = true)

include placeholder

theorem cachedLength_placeholder (s : Scene) : l.cachedLength.run s = (0, s) := by
  rw [cachedLength, if_pos placeholder]
  rfl

theorem length_placeholder (s : Scene) :
    s.Inert (l.length.run s).2 ∧ (l.length.run s).1 = 0 := by
  have htouch := Walk.inert_touchItem l 0 s
  rw [length, Walk.run_bind, cachedLength_placeholder placeholder]
  exact ⟨htouch, rfl⟩

theorem get_placeholder (position : Nat) (s : Scene) :
    s.Inert ((l.get position).run s).2 ∧ ∀ v ∈ ((l.get position).run s).1, v.Vacant := by
  rw [get, Walk.run_bind, cachedLength_placeholder placeholder]
  split
  · exact ⟨.refl s, fun v hv => absurd hv (Option.not_mem_none v)⟩
  · have hitem := Walk.inert_child l.selection (.index position) [] false s
    rw [if_neg (Nat.not_lt_zero position), Walk.run_bind, Walk.run_bind]
    obtain ⟨hresolve, hvacant⟩ := Walk.resolve_placeholder
      ((Walk.child l.selection (.index position)).run s).1 l.itemType
      (l.path.child (toString position)) l.operation
      ((Walk.child l.selection (.index position)).run s).2
    refine ⟨hitem.trans hresolve, ?_⟩
    intro v hv
    exact Option.some.inj hv ▸ hvacant

theorem byKey_placeholder (key : String) (s : Scene) :
    s.Inert ((l.byKey key).run s).2 ∧ ∀ v ∈ ((l.byKey key).run s).1, v.Vacant := by
  rw [byKey]
  split
  · exact get_placeholder placeholder _ s
  · exact ⟨.refl s, fun v hv => absurd hv (Option.not_mem_none v)⟩

theorem items_placeholder (s : Scene) :
    s.Inert (l.items.run s).2 ∧ (l.items.run s).1 = [] := by
  obtain ⟨hlength, hnone⟩ := length_placeholder placeholder s
  rw [items, Walk.run_bind, hnone]
  exact ⟨hlength, rfl⟩

/-- An item of a placeholder is not set. -/
theorem set_placeholder (position : Nat) (value : Json) (s : Scene) :
    (l.set position value).run s = (.error (.invalidArrayAssignment position 0), s) := by
  rw [set]
  refine (Attempt.run_bind_ok (Accessor.run_lift l.cachedLength s)).trans ?_
  rw [cachedLength_placeholder placeholder]
  simp only [placeholder, Bool.or_true, if_true]
  rfl

end ListAccessor

namespace UnionAccessor

variable {u : UnionAccessor} (placeholder : u.isPlaceholder = true)

include placeholder

theorem typename_placeholder (s : Scene) : u.typename.run s = (none, s) := by
  rw [typename, if_pos placeholder]
  rfl

theorem enter_placeholder (type : String) (s : Scene) :
    s.Inert ((u.enter type).run s).2 ∧ ((u.enter type).run s).1.isPlaceholder = true := by
  have hmarker := Walk.inert_child u.selection (.field unionMarker) [] false s
  rw [enter]
  simp only [placeholder, if_true]
  refine ⟨Walk.inert_bind hmarker ?_, rfl⟩
  refine Walk.inert_bind (Walk.inert_child _ _ _ _ _) ?_
  exact Walk.inert_bind (Walk.inert_selectIdentity _ _ _) (Walk.inert_newAccessor _ _ _ _ _ _)

theorem on_placeholder (type : String) (s : Scene) :
    s.Inert ((u.on type).run s).2 ∧
      ∀ a, ((u.on type).run s).1 = .ok (some a) → a.isPlaceholder = true := by
  rw [on_eq, typename_placeholder placeholder]
  split
  · obtain ⟨hinert, hbranch⟩ := enter_placeholder placeholder type s
    refine ⟨hinert, ?_⟩
    rintro a ha
    cases ha
    exact hbranch
  · refine ⟨.refl s, ?_⟩
    rintro a ha
    cases ha

end UnionAccessor

namespace Accessor

variable {a : Accessor}

/-- The selection of a field is asked for, or the field is refused. -/
theorem inert_child (a : Accessor) (name : String) (arguments : Fields Json) (s : Scene) :
    s.Inert ((a.child name arguments).run s).2 := by
  rcases a.child_cases name arguments s with ⟨e, hrun⟩ | ⟨d, typed, _, _, hrun⟩
  · rw [hrun]
    exact .refl s
  · rw [hrun]
    exact Walk.inert_child _ _ _ _ s

theorem field_placeholder (placeholder : a.isPlaceholder = true) (name : String)
    (arguments : Fields Json) (s : Scene) :
    s.Inert ((a.field name arguments).run s).2 ∧
      ∀ v, ((a.field name arguments).run s).1 = .ok v → v.Vacant := by
  have hchild := a.inert_child name arguments s
  rw [field_eq]
  cases hrun : (a.child name arguments).run s with
  | mk r t =>
      rw [hrun] at hchild
      cases r with
      | error e =>
          refine ⟨hchild, ?_⟩
          intro v hv
          cases hv
      | ok found =>
          obtain ⟨x, type, path⟩ := found
          obtain ⟨hresolve, hvacant⟩ := Walk.resolve_placeholder x type path a.operation t
          simp only [placeholder]
          refine ⟨hchild.trans hresolve, ?_⟩
          intro v hv
          exact Except.ok.inj hv ▸ hvacant

/-- A field of a placeholder is not set. -/
theorem set_placeholder (placeholder : a.isPlaceholder = true) (name : String)
    (arguments : Fields Json) (value : Json) (s : Scene) :
    s.Inert ((a.set name arguments value).run s).2 ∧
      ∃ e, ((a.set name arguments value).run s).1 = .error e := by
  have hchild := a.inert_child name arguments s
  rw [set]
  cases hrun : (a.child name arguments).run s with
  | mk r t =>
      rw [hrun] at hchild
      cases r with
      | error e =>
          rw [Attempt.run_bind_error hrun]
          exact ⟨hchild, e, rfl⟩
      | ok found =>
          obtain ⟨x, type, path⟩ := found
          rw [Attempt.run_bind_ok hrun]
          simp only [placeholder, if_true]
          exact ⟨hchild, _, rfl⟩

end Accessor

/-! ### Chains -/

/-- What is read through; the root of an operation is read through nothing. -/
def Look.handle? : Look → Option FieldValue
  | .root _ => none
  | .field a _ _ => some (.object (some a))
  | .length l => some (.list (some l))
  | .item l _ => some (.list (some l))
  | .byKey l _ => some (.list (some l))
  | .items l => some (.list (some l))
  | .typename u => some (.union (some u))
  | .branch u _ => some (.union (some u))

/-- What can be done through an accessor. -/
inductive Deed
  | read (look : Look)
  | set (a : Accessor) (name : String) (arguments : Fields Json) (value : Json)
  | setItem (l : ListAccessor) (position : Nat) (value : Json)

namespace Deed

/-- The value through whose accessor it is done. -/
def handle? : Deed → Option FieldValue
  | .read look => look.handle?
  | .set a _ _ _ => some (.object (some a))
  | .setItem l _ _ => some (.list (some l))

/-- Does it: the values that are obtained. -/
def run : Deed → Attempt (List FieldValue)
  | .read look => look.run
  | .set a name arguments value => do
    a.set name arguments value
    pure []
  | .setItem l position value => do
    l.set position value
    pure []

/-- The values that are obtained; there are none of what is refused. -/
def gives (d : Deed) (s : Scene) : List FieldValue := (d.run.run s).1.toOption.getD []

end Deed

/-- What is done one after the other, each time through a value that was there in the beginning or
was obtained since. -/
inductive Chain (start : FieldValue) (s : Scene) : Scene → List FieldValue → Prop
  | start : Chain start s s [start]
  | deed {t : Scene} {hand : List FieldValue} (chain : Chain start s t hand) (d : Deed)
    {v : FieldValue} (held : v ∈ hand) (handle : d.handle? = some v) :
    Chain start s (d.run.run t).2 (d.gives t ++ hand)

/-- A deed that leaves the scene as it is and obtains placeholders alone. -/
def Deed.Harmless (d : Deed) (s : Scene) : Prop :=
  s.Inert (d.run.run s).2 ∧ ∀ v ∈ d.gives s, v.Vacant

namespace Deed

variable {s : Scene}

theorem harmless_of_map {α : Type} {d : Deed} {m : Attempt α} {f : α → List FieldValue}
    (run : d.run = m >>= fun v => pure (f v)) (inert : s.Inert (m.run s).2)
    (vacant : ∀ v, (m.run s).1 = .ok v → ∀ w ∈ f v, w.Vacant) : d.Harmless s := by
  have hrun := Attempt.run_map m f s
  rw [← run] at hrun
  refine ⟨?_, ?_⟩
  · rw [hrun]
    exact inert
  · rw [gives, hrun]
    intro w hw
    cases hv : (m.run s).1 with
    | error e =>
        rw [hv] at hw
        exact absurd hw List.not_mem_nil
    | ok v =>
        rw [hv] at hw
        exact vacant v hv w hw

/-- What is obtained of a list is what its items give. -/
theorem harmless_of_option {d : Deed} {m : Walk (Option FieldValue)}
    (run : d.run = (liftM m : Attempt (Option FieldValue)) >>= fun v => pure v.toList)
    (h : s.Inert (m.run s).2 ∧ ∀ v ∈ (m.run s).1, v.Vacant) : d.Harmless s := by
  obtain ⟨inert, vacant⟩ := h
  apply harmless_of_map run inert
  intro v hv w hw
  cases hv
  exact vacant w (Option.mem_toList.mp hw)

/-- Where nothing is obtained, it is enough that the scene stays. -/
theorem harmless_of_nothing {α : Type} {d : Deed} {m : Attempt α}
    (run : d.run = m >>= fun _ => pure []) (inert : s.Inert (m.run s).2) : d.Harmless s :=
  harmless_of_map run inert fun _ _ _ hw => absurd hw List.not_mem_nil

open FieldValue (Vacant)

/-- Whatever is read through a placeholder is harmless. -/
theorem harmless_read (look : Look) {v : FieldValue} (handle : look.handle? = some v)
    (vacant : v.Vacant) (s : Scene) : (read look).Harmless s := by
  cases look with
  | root operation => cases handle
  | field a name arguments =>
      obtain rfl := Option.some.inj handle
      obtain ⟨inert, value⟩ :=
        Accessor.field_placeholder (Vacant.object_iff.mp vacant) name arguments s
      refine harmless_of_map (f := fun v => [v]) rfl inert fun v hv => ?_
      exact List.forall_mem_singleton.mpr (value v hv)
  | length l =>
      obtain rfl := Option.some.inj handle
      obtain ⟨inert, _⟩ := ListAccessor.length_placeholder (Vacant.list_iff.mp vacant) s
      exact harmless_of_nothing (m := liftM l.length) rfl inert
  | item l position =>
      obtain rfl := Option.some.inj handle
      have placeholder := Vacant.list_iff.mp vacant
      exact harmless_of_option rfl (ListAccessor.get_placeholder placeholder position s)
  | byKey l key =>
      obtain rfl := Option.some.inj handle
      have placeholder := Vacant.list_iff.mp vacant
      exact harmless_of_option rfl (ListAccessor.byKey_placeholder placeholder key s)
  | items l =>
      obtain rfl := Option.some.inj handle
      obtain ⟨inert, none⟩ := ListAccessor.items_placeholder (Vacant.list_iff.mp vacant) s
      have hgives : (read (.items l)).gives s = (l.items.run s).1 := rfl
      refine ⟨inert, ?_⟩
      rw [hgives, none]
      exact fun w hw => absurd hw List.not_mem_nil
  | typename u =>
      obtain rfl := Option.some.inj handle
      have unknown := UnionAccessor.typename_placeholder (Vacant.union_iff.mp vacant) s
      apply harmless_of_nothing (m := liftM u.typename) rfl
      rw [Accessor.run_lift, unknown]
      exact .refl s
  | branch u type =>
      obtain rfl := Option.some.inj handle
      obtain ⟨inert, branch⟩ :=
        UnionAccessor.on_placeholder (Vacant.union_iff.mp vacant) type s
      refine harmless_of_map (m := u.on type)
        (f := fun a => a.toList.map fun a => .object (some a)) rfl inert ?_
      intro a ha w hw
      obtain ⟨b, hb, rfl⟩ := List.mem_map.mp hw
      obtain rfl := Option.mem_toList.mp hb
      exact .object (branch b ha)

/-- Whatever is done through a placeholder is harmless. -/
theorem harmless (d : Deed) {v : FieldValue} (handle : d.handle? = some v) (vacant : v.Vacant)
    (s : Scene) : d.Harmless s := by
  cases d with
  | read look => exact harmless_read look handle vacant s
  | set a name arguments value =>
      obtain rfl := Option.some.inj handle
      obtain ⟨inert, _⟩ :=
        Accessor.set_placeholder (Vacant.object_iff.mp vacant) name arguments value s
      exact harmless_of_nothing rfl inert
  | setItem l position value =>
      obtain rfl := Option.some.inj handle
      have refused := ListAccessor.set_placeholder (Vacant.list_iff.mp vacant) position value s
      apply harmless_of_nothing (m := l.set position value) rfl
      rw [refused]
      exact .refl s

end Deed

namespace Chain

open FieldValue (Vacant)

variable {start : FieldValue} {s t : Scene} {hand : List FieldValue}

theorem vacant_of_start (vacant : start.Vacant) (chain : Chain start s t hand) :
    s.Inert t ∧ ∀ v ∈ hand, v.Vacant := by
  induction chain with
  | start => exact ⟨.refl s, List.forall_mem_singleton.mpr vacant⟩
  | @deed t hand chain d v held handle ih =>
      obtain ⟨inert, others⟩ := ih
      obtain ⟨step, given⟩ := d.harmless handle (others v held) t
      exact ⟨inert.trans step, List.forall_mem_append.mpr ⟨given, others⟩⟩

/-- Placeholders are inert. Whatever is done through one, and through what is obtained from it, the
cache stays as it is, and so does what was noted of how fresh the data was. What is obtained are
placeholders and absent scalars: no type is known of them, no items are in them, and nothing can be
set in them. -/
theorem inert (vacant : start.Vacant) (chain : Chain start s t hand) :
    s.Inert t ∧ (∀ v ∈ hand, v.Vacant) ∧
    (∀ a, .object (some a) ∈ hand → ∀ name arguments value,
      ∃ e, ((a.set name arguments value).run t).1 = .error e) ∧
    (∀ l, .list (some l) ∈ hand → ∀ position value,
      ((l.set position value).run t).1 = .error (.invalidArrayAssignment position 0)) ∧
    (∀ l, .list (some l) ∈ hand → (l.length.run t).1 = 0 ∧ (l.items.run t).1 = []) ∧
    ∀ u, .union (some u) ∈ hand → (u.typename.run t).1 = none := by
  obtain ⟨inert, others⟩ := vacant_of_start vacant chain
  refine ⟨inert, others, ?_, ?_, ?_, ?_⟩
  · intro a held name arguments value
    have placeholder := Vacant.object_iff.mp (others _ held)
    exact (Accessor.set_placeholder placeholder name arguments value t).2
  · intro l held position value
    rw [ListAccessor.set_placeholder (Vacant.list_iff.mp (others _ held))]
  · intro l held
    have placeholder := Vacant.list_iff.mp (others _ held)
    exact ⟨(ListAccessor.length_placeholder placeholder t).2,
      (ListAccessor.items_placeholder placeholder t).2⟩
  · intro u held
    rw [UnionAccessor.typename_placeholder (Vacant.union_iff.mp (others _ held))]

end Chain

/-! ### The first of no users -/

namespace Friendless

/-- A list that is not stored, and the scene once it was read. -/
def usersRead : Option ListAccessor × Scene :=
  match (reader.field "users").run scene with
  | (.ok (.list l), s) => (l, s)
  | (_, s) => (none, s)

/-- The first item of the list, which has none, and the scene once it was asked for. -/
def firstUser : Option Accessor × Scene :=
  match (usersRead.1.getD default |>.get 0).run usersRead.2 with
  | (some (.object a), s) => (a, s)
  | (_, s) => (none, s)

def nobody : Accessor := firstUser.1.getD default

def askFriend : Deed := .read (.field nobody "friend" [])

/-- What stands for the friend of nobody. -/
def noFriend : Accessor := step nobody "friend" firstUser.2

def rename : Deed := .set noFriend "name" [] (.string "Bob")

/-- The friend of nobody is nobody, who cannot be given a name. -/
theorem inert_nobody :
    ∃ t hand, (FieldValue.object (some nobody)).Vacant ∧
      Chain (.object (some nobody)) firstUser.2 t hand ∧ .object (some noFriend) ∈ hand ∧
      noFriend.isPlaceholder = true ∧ t.cache = firstUser.2.cache ∧
      firstUser.2.context.selections.length < t.context.selections.length ∧
      ∃ e, ((noFriend.set "name" [] (.string "Bob")).run t).1 = .error e := by
  have vacant : (FieldValue.object (some nobody)).Vacant := .object (by decide +kernel)
  have asked : Chain (.object (some nobody)) firstUser.2 _ _ :=
    .deed .start askFriend List.mem_cons_self rfl
  have given : .object (some noFriend) ∈ askFriend.gives firstUser.2 ++ [.object (some nobody)] :=
    List.mem_append_left _ (List.mem_singleton.mpr rfl)
  have chain := asked.deed rename given rfl
  have held := List.mem_append_right (rename.gives (askFriend.run.run firstUser.2).2) given
  obtain ⟨inert, others, refused, _⟩ := chain.inert vacant
  refine ⟨_, _, vacant, chain, held, ?_, inert.cache, ?_, refused _ held "name" [] (.string "Bob")⟩
  · exact FieldValue.Vacant.object_iff.mp (others _ held)
  · decide +kernel

end Friendless
end LazyGraph
