import LazyGraph.Proofs.Accessor.Inert
import LazyGraph.Proofs.Cache.Seeding
import LazyGraph.Proofs.Client.Reading

/-!
Reads through accessors, fresh or held, one after the other. Whatever is read, and in whatever
order, the snapshot of the cache stays as it is.
-/
namespace LazyGraph

/-! ### Reads -/

/-- All items, one after the other. -/
def ListAccessor.items (l : ListAccessor) : Walk (List FieldValue) := do
  let length ← l.length
  let found ← (List.range length).mapM l.get
  pure (found.filterMap id)

/-- A read through an accessor. -/
inductive Look
  | root (operation : Operation)
  | field (a : Accessor) (name : String) (arguments : Fields Json)
  | length (l : ListAccessor)
  | item (l : ListAccessor) (position : Nat)
  | byKey (l : ListAccessor) (key : String)
  | items (l : ListAccessor)
  | typename (u : UnionAccessor)
  | branch (u : UnionAccessor) (type : String)

/-- Does a read: the values that it gives. -/
def Look.run : Look → Attempt (List FieldValue)
  | .root operation => do
    let a ← (Accessor.root operation : Walk Accessor)
    pure [.object (some a)]
  | .field a name arguments => do
    let v ← a.field name arguments
    pure [v]
  | .length l => do
    let _ ← (l.length : Walk Nat)
    pure []
  | .item l position => do
    let v ← (l.get position : Walk (Option FieldValue))
    pure v.toList
  | .byKey l key => do
    let v ← (l.byKey key : Walk (Option FieldValue))
    pure v.toList
  | .items l => (l.items : Walk (List FieldValue))
  | .typename u => do
    let _ ← (u.typename : Walk (Option String))
    pure []
  | .branch u type => do
    let a ← u.on type
    pure (a.toList.map fun a => .object (some a))

namespace Scene

/-- The scene after reads, of which some may be refused. -/
def afterLooks (s : Scene) (looks : List Look) : Scene :=
  looks.foldl (fun s look => (look.run.run s).2) s

/-- The fields have names, and the cache is one that runs lead to. -/
structure Tame (s : Scene) : Prop where
  names : s.schema.HasGraphNames
  sound : s.cache.store.Sound s.cache.options s.now
  ordered : s.cache.store.InOrder

/-- The second scene comes from the first one by touches. -/
structure Still (s t : Scene) : Prop where
  schema : t.schema = s.schema
  now : t.now = s.now
  cache : t.cache = s.cache

/-- The second scene comes from the first one by reads. -/
structure Keeps (s t : Scene) : Prop where
  schema : t.schema = s.schema
  now : t.now = s.now
  cache : s.cache.Undisturbed s.now t.cache

variable {s t u : Scene}

theorem Still.refl (s : Scene) : s.Still s := ⟨rfl, rfl, rfl⟩

theorem Inert.still (h : s.Inert t) : s.Still t := ⟨h.schema, h.now, h.cache⟩

theorem Still.trans (h : s.Still t) (h' : t.Still u) : s.Still u :=
  ⟨h'.schema.trans h.schema, h'.now.trans h.now, h'.cache.trans h.cache⟩

theorem Keeps.refl (h : s.Tame) : s.Keeps s := ⟨rfl, rfl, .refl h.sound h.ordered⟩

theorem Keeps.trans (h : s.Keeps t) (h' : t.Keeps u) : s.Keeps u :=
  ⟨h'.schema.trans h.schema, h'.now.trans h.now, h.cache.trans (h.now ▸ h'.cache)⟩

theorem Still.keeps (h : s.Still t) (hs : s.Tame) : s.Keeps t := by
  refine ⟨h.schema, h.now, ?_⟩
  rw [h.cache]
  exact .refl hs.sound hs.ordered

theorem Keeps.tame (h : s.Keeps t) (hs : s.Tame) : t.Tame where
  names := h.schema ▸ hs.names
  sound := by
    rw [h.now, h.cache.options]
    exact h.cache.sound
  ordered := h.cache.ordered

theorem Still.tame (h : s.Still t) (hs : s.Tame) : t.Tame := (h.keeps hs).tame hs

end Scene

namespace Walk

variable {α β : Type} {s : Scene} {m : Walk α} {f : α → Walk β}

/-! ### Touches -/

theorem still_bind (h : s.Still (m.run s).2)
    (hf : (m.run s).2.Still ((f (m.run s).1).run (m.run s).2).2) : s.Still ((m >>= f).run s).2 :=
  h.trans hf

/-- What is asked for has the label of the request, whatever was remembered. -/
theorem child_label (x : Selection) (key : Selection.Key) (arguments : Fields Selection.Argument)
    (isBranch : Bool) (s : Scene) : ((child x key arguments isBranch).run s).1.node.label =
      (Selection.childAlias key none arguments x.aliasLength).getD key.text := by
  have hchild : ((child x key arguments isBranch).run s).1 =
      (s.forest.child x key none arguments isBranch).1 := rfl
  rw [hchild, Selection.Forest.child]
  split
  · rename_i found hfound
    obtain ⟨g, hg, rfl⟩ := Option.map_eq_some_iff.mp hfound
    have hlabel := List.find?_some hg
    rw [Bool.and_eq_true, beq_iff_eq, beq_iff_eq] at hlabel
    exact hlabel.2
  · rfl

/-- The label of a field is no position. -/
theorem index?_child_label (x : Selection) {name : String}
    (hname : Selection.isGraphName name = true) (arguments : Fields Selection.Argument) (s : Scene) :
    Text.index? ((child x (.field name) arguments).run s).1.node.label = none := by
  rw [child_label]
  apply Selection.index?_of_isGraphName
  cases arguments with
  | nil => exact hname
  | cons a arguments => exact Selection.isGraphName_generatedAlias hname _ _

theorem still_accessorFor (selection : Selection) (type : String) (operation : Operation)
    (path : CachePath) (data : Json) (s : Scene) :
    s.Still ((accessorFor selection type operation path data).run s).2 := by
  rw [accessorFor, run_get_bind]
  split
  · exact .refl s
  · exact ⟨rfl, rfl, rfl⟩

/-! ### Reads and placeholders -/

theorem keeps_bind (h : s.Keeps (m.run s).2)
    (hf : (m.run s).2.Keeps ((f (m.run s).1).run (m.run s).2).2) : s.Keeps ((m >>= f).run s).2 :=
  h.trans hf

theorem keeps_after (hs : s.Tame) (h : s.Still (m.run s).2)
    (hf : (m.run s).2.Tame → (m.run s).2.Keeps ((f (m.run s).1).run (m.run s).2).2) :
    s.Keeps ((m >>= f).run s).2 :=
  (h.keeps hs).trans (hf (h.tame hs))

theorem keeps_mapM {xs : List α} {f : α → Walk β}
    (h : ∀ x ∈ xs, ∀ s : Scene, s.Tame → s.Keeps ((f x).run s).2) (hs : s.Tame) :
    s.Keeps ((xs.mapM f).run s).2 := by
  induction xs generalizing s with
  | nil => exact .refl hs
  | cons x xs ih =>
      obtain ⟨hx, hrest⟩ := List.forall_mem_cons.mp h
      rw [List.mapM_cons]
      have hfirst := hx s hs
      have hlater := ih hrest (hfirst.tame hs)
      exact keeps_bind hfirst (keeps_bind hlater (.refl (hlater.tame (hfirst.tame hs))))

theorem keeps_peek (hs : s.Tame) (path : CachePath) : s.Keeps ((peek path).run s).2 :=
  ⟨rfl, rfl, Cache.undisturbed_read hs.sound hs.ordered path⟩

theorem keeps_read (hs : s.Tame) (path : CachePath) (operation : Operation) :
    s.Keeps ((read path operation).run s).2 :=
  ⟨rfl, rfl, Cache.undisturbed_read hs.sound hs.ordered path⟩

theorem keeps_seed (hs : s.Tame) {path : CachePath} (hp : s.cache.Plantable path) (value : Json)
    (simple : value.InOrder) : s.Keeps ((seed path value).run s).2 :=
  ⟨rfl, rfl, Cache.undisturbed_seed hs.sound hs.ordered hp simple⟩

/-- A list is presented with its first item touched. -/
theorem still_present (l : ListAccessor) (s : Scene) :
    s.Still ((do touchItem l 0; pure (FieldValue.list (some l)) : Walk FieldValue).run s).2 :=
  (inert_bind (inert_touchItem l 0 s) (.refl _)).still

section Resolve

variable {path : CachePath} {isPlaceholder : Bool} (hs : s.Tame)
  (hp : isPlaceholder = false → s.cache.Plantable path)

include hs hp

theorem keeps_resolveList (x : Selection) (itemType : TypeRef) (operation : Operation) :
    s.Keeps ((resolveList x itemType path operation isPlaceholder).run s).2 := by
  rw [resolveList]
  split
  · exact (still_present _ s).keeps hs
  · rename_i hreal
    have hread := keeps_read hs path operation
    have hplace := (hp (by simpa using hreal)).read path
    refine keeps_bind hread ?_
    split
    · exact (still_present _ _).keeps (hread.tame hs)
    · exact .refl (hread.tame hs)
    · have hseed := keeps_seed (hread.tame hs) hplace (.array []) (by decide)
      exact keeps_bind hseed ((still_present _ _).keeps (hseed.tame (hread.tame hs)))

theorem keeps_resolveObject (x : Selection) (type : String) (operation : Operation) :
    s.Keeps ((resolveObject x type path operation isPlaceholder).run s).2 := by
  rw [resolveObject]
  split
  · exact Scene.Still.keeps ⟨rfl, rfl, rfl⟩ hs
  · rename_i hreal
    have hread := keeps_read hs path operation
    have hplace := (hp (by simpa using hreal)).read path
    refine keeps_bind hread ?_
    split
    · exact (still_bind (still_accessorFor _ _ _ _ _ _) (.refl _)).keeps (hread.tame hs)
    · exact .refl (hread.tame hs)
    · have hseed := keeps_seed (hread.tame hs) hplace (.object []) (by decide)
      refine keeps_bind hseed (Scene.Still.keeps ?_ (hseed.tame (hread.tame hs)))
      exact still_bind (still_accessorFor _ _ _ _ _ _) (.refl _)

theorem keeps_resolveUnion (x : Selection) (type : String) (operation : Operation) :
    s.Keeps ((resolveUnion x type path operation isPlaceholder).run s).2 := by
  rw [resolveUnion]
  split
  · exact .refl hs
  · rename_i hreal
    have hread := keeps_read hs path operation
    have hplace := (hp (by simpa using hreal)).read path
    refine keeps_bind hread ?_
    split
    · exact .refl (hread.tame hs)
    · exact .refl (hread.tame hs)
    · have hseed := keeps_seed (hread.tame hs) hplace (.object []) (by decide)
      exact keeps_bind hseed (.refl (hseed.tame (hread.tame hs)))

omit hp in
theorem keeps_resolveScalar (operation : Operation) :
    s.Keeps ((resolveScalar path operation isPlaceholder).run s).2 := by
  rw [resolveScalar]
  split
  · exact .refl hs
  · have hread := keeps_read hs path operation
    exact keeps_bind hread (.refl (hread.tame hs))

theorem keeps_resolve (x : Selection) (type : TypeRef) (operation : Operation) :
    s.Keeps ((resolve x type path operation isPlaceholder).run s).2 := by
  have hfirst := (inert_register x type s).still
  have hs' := hfirst.tame hs
  have hp' : isPlaceholder = false → ((register x type).run s).2.cache.Plantable path := by
    rw [hfirst.cache]
    exact hp
  rw [resolve]
  refine keeps_bind (hfirst.keeps hs) ?_
  split
  · exact keeps_resolveList hs' hp' x type.item operation
  · rw [run_get_bind]
    split
    · exact keeps_resolveScalar hs' operation
    · exact keeps_resolveObject hs' hp' x type.name operation
    · exact keeps_resolveUnion hs' hp' x type.name operation

end Resolve

end Walk

namespace ListAccessor

open Walk

variable {s : Scene} (l : ListAccessor)

theorem keeps_cachedLength (hs : s.Tame) : s.Keeps (l.cachedLength.run s).2 := by
  rw [cachedLength]
  split
  · exact .refl hs
  · have hpeek := keeps_peek hs l.path
    refine keeps_bind hpeek ?_
    split <;> exact .refl (hpeek.tame hs)

/-- An item that the cache counts has its place. -/
theorem plantable_of_lt_cachedLength {position : Nat} (h : position < (l.cachedLength.run s).1) :
    (l.cachedLength.run s).2.cache.Plantable (l.path.child (toString position)) := by
  revert h
  rw [cachedLength]
  split
  · exact fun h => absurd h (Nat.not_lt_zero _)
  · rw [run_bind]
    split
    · rename_i items hitems
      intro h
      exact (s.cache.plantable_item hitems h).read l.path
    · exact fun h => absurd h (Nat.not_lt_zero _)

theorem keeps_length (hs : s.Tame) : s.Keeps (l.length.run s).2 := by
  have htouch := (inert_touchItem l 0 s).still
  exact keeps_bind (htouch.keeps hs) (l.keeps_cachedLength (htouch.tame hs))

theorem keeps_get (hs : s.Tame) (position : Nat) : s.Keeps ((l.get position).run s).2 := by
  have hlength := l.keeps_cachedLength hs
  have hplace : position < (l.cachedLength.run s).1 → _ := l.plantable_of_lt_cachedLength
  rw [get]
  refine keeps_bind hlength ?_
  split
  · exact .refl (hlength.tame hs)
  · have hitem := (inert_child l.selection (.index position) [] false (l.cachedLength.run s).2).still
    have hs' := hitem.tame (hlength.tame hs)
    refine keeps_bind (hitem.keeps (hlength.tame hs)) ?_
    have hreal : (if position < (l.cachedLength.run s).1 then l.isPlaceholder else true) = false →
        ((child l.selection (.index position)).run (l.cachedLength.run s).2).2.cache.Plantable
          (l.path.child (toString position)) := by
      intro hreal
      split at hreal
      · rw [hitem.cache]
        exact hplace ‹_›
      · cases hreal
    have hvalue := keeps_resolve hs' hreal
    exact keeps_bind (hvalue _ _ _) (.refl ((hvalue _ _ _).tame hs'))

theorem keeps_byKey (hs : s.Tame) (key : String) : s.Keeps ((l.byKey key).run s).2 := by
  rw [byKey]
  split
  · exact l.keeps_get hs _
  · exact .refl hs

theorem keeps_items (hs : s.Tame) : s.Keeps (l.items.run s).2 := by
  have hlength := l.keeps_length hs
  have hall : (l.length.run s).2.Keeps
      (((List.range (l.length.run s).1).mapM l.get).run (l.length.run s).2).2 :=
    keeps_mapM (fun position _ s hs => l.keeps_get hs position) (hlength.tame hs)
  exact keeps_bind hlength (keeps_bind hall (.refl (hall.tame (hlength.tame hs))))

end ListAccessor

namespace Attempt

variable {α β : Type} {s : Scene}

theorem run_bind_error {m : Attempt α} {f : α → Attempt β} {t : Scene} {e : ValidationError}
    (h : m.run s = (.error e, t)) : (m >>= f).run s = (.error e, t) := by
  simp only [ExceptT.run, bind, ExceptT.bind, ExceptT.mk, StateT.bind, ExceptT.bindCont] at h ⊢
  rw [h]
  rfl

/-- What the first part leads to and the second one keeps is there after both, or after the error
that the first one ends with. -/
theorem bind_induction {motive : Scene → Prop} {m : Attempt α} {f : α → Attempt β}
    (start : motive (m.run s).2) (next : ∀ a t, motive t → motive ((f a).run t).2) :
    motive ((m >>= f).run s).2 := by
  cases hm : m.run s with
  | mk r t =>
      rw [hm] at start
      cases r with
      | ok a =>
          rw [run_bind_ok hm]
          exact next a t start
      | error e =>
          rw [run_bind_error hm]
          exact start

theorem keeps_bind {m : Attempt α} {f : α → Attempt β} (hs : s.Tame) (h : s.Keeps (m.run s).2)
    (hf : ∀ a (t : Scene), t.Tame → t.Keeps ((f a).run t).2) : s.Keeps ((m >>= f).run s).2 :=
  bind_induction (motive := s.Keeps) h fun a t ht => ht.trans (hf a t (ht.tame hs))

end Attempt

namespace UnionAccessor

open Walk

variable {s : Scene} (u : UnionAccessor)

theorem keeps_typename (hs : s.Tame) : s.Keeps (u.typename.run s).2 := by
  rw [typename]
  split
  · exact .refl hs
  · have hpeek := keeps_peek hs u.path
    refine Walk.keeps_bind hpeek ?_
    split <;> exact .refl (hpeek.tame hs)

/-- The accessor of a branch. -/
def enter (type : String) : Walk Accessor := do
  let marker ← Walk.child u.selection (.field unionMarker)
  let branch ← Walk.child marker (.field type) [] true
  Walk.selectIdentity branch type
  if u.isPlaceholder then Walk.newAccessor branch type u.operation (some u.path) true
  else
    let r ← Walk.peek u.path
    Walk.accessorFor branch type u.operation u.path (r.value.getD .null)

/-- A branch is entered unless it is impossible, or not that of the object. -/
theorem on_eq (type : String) (s : Scene) : (u.on type).run s =
    if (s.schema.possibleTypesOf u.type).contains type then
      let r := u.typename.run s
      if r.1.any (· ≠ type) then (.ok none, r.2)
      else
        let entered := (u.enter type).run r.2
        (.ok (some entered.1), entered.2)
    else (.error (.unknownType type), s) := by
  rw [on]
  cases hpossible : (s.schema.possibleTypesOf u.type).contains type with
  | false =>
      refine (Attempt.run_bind_ok (Accessor.run_lift u.possibleTypes s)).trans ?_
      have htypes : (u.possibleTypes.run s).1 = s.schema.possibleTypesOf u.type := rfl
      rw [htypes, hpossible]
      rfl
  | true =>
      refine (Attempt.run_bind_ok (Accessor.run_lift u.possibleTypes s)).trans ?_
      have htypes : (u.possibleTypes.run s).1 = s.schema.possibleTypesOf u.type := rfl
      rw [htypes, hpossible]
      refine (Attempt.run_bind_ok (Accessor.run_lift u.typename s)).trans ?_
      rw [if_pos rfl]
      by_cases hother : (u.typename.run s).1.any (· ≠ type) = true
      · simp only [hother]
        rfl
      · simp only [hother]
        rw [enter]
        cases u.isPlaceholder <;> rfl

theorem keeps_enter (hs : s.Tame) (type : String) : s.Keeps ((u.enter type).run s).2 := by
  rw [enter]
  refine keeps_after hs (inert_child _ _ _ _ _).still fun hs => ?_
  refine keeps_after hs (inert_child _ _ _ _ _).still fun hs => ?_
  refine keeps_after hs (inert_selectIdentity _ _ _).still fun hs => ?_
  split
  · exact (inert_newAccessor _ _ _ _ _ _).still.keeps hs
  · have hpeek := keeps_peek hs u.path
    exact Walk.keeps_bind hpeek ((still_accessorFor _ _ _ _ _ _).keeps (hpeek.tame hs))

theorem keeps_on (hs : s.Tame) (type : String) : s.Keeps ((u.on type).run s).2 := by
  have htypename := u.keeps_typename hs
  rw [on_eq]
  split
  · simp only
    split
    · exact htypename
    · exact htypename.trans (u.keeps_enter (htypename.tame hs) type)
  · exact .refl hs

end UnionAccessor

namespace Accessor

variable {s : Scene} (a : Accessor)

/-- Where the value of a field stands, which is selected under a label. -/
def place (a : Accessor) (label : String) : CachePath :=
  match a.path with
  | some path => path.child label
  | none => { root := a.operation, field := label }

/-- A field is refused, or it is declared and its selection is asked for. -/
theorem child_cases (name : String) (arguments : Fields Json) (s : Scene) :
    (∃ e, (a.child name arguments).run s = (.error e, s)) ∨
      ∃ d typed, s.schema.requireField a.type name = .ok d ∧
        typedArguments name d arguments = .ok typed ∧
        (a.child name arguments).run s =
          let r := (Walk.child a.selection (.field name) typed).run s
          (.ok (r.1, d.typeRef, a.place r.1.node.label), r.2) := by
  cases hd : s.schema.requireField a.type name with
  | error e =>
      refine .inl ⟨e, ?_⟩
      change (child.ofExcept (s.schema.requireField a.type name) >>= _ : Attempt _).run s = _
      rw [hd]
      rfl
  | ok d =>
      cases htyped : typedArguments name d arguments with
      | error e =>
          refine .inl ⟨e, (run_ofExcept hd _ s).trans ?_⟩
          rw [htyped]
          rfl
      | ok typed =>
          refine .inr ⟨d, typed, rfl, htyped, (run_ofExcept hd _ s).trans ?_⟩
          rw [htyped]
          rfl

theorem field_eq (name : String) (arguments : Fields Json) (s : Scene) :
    (a.field name arguments).run s =
      match (a.child name arguments).run s with
      | (.ok (x, type, path), t) =>
        let r := (Walk.resolve x type path a.operation a.isPlaceholder).run t
        (.ok r.1, r.2)
      | (.error e, t) => (.error e, t) := by
  rw [field]
  cases hchild : (a.child name arguments).run s with
  | mk r t =>
      cases r with
      | ok found => exact (Attempt.run_bind_ok hchild).trans (run_lift _ t)
      | error e => exact Attempt.run_bind_error hchild

theorem keeps_field (hs : s.Tame) (name : String) (arguments : Fields Json) :
    s.Keeps ((a.field name arguments).run s).2 := by
  rw [field_eq]
  rcases a.child_cases name arguments s with ⟨e, hrun⟩ | ⟨d, typed, hd, _, hrun⟩
  · rw [hrun]
    exact .refl hs
  · rw [hrun]
    have hasked := (Walk.inert_child a.selection (.field name) typed false s).still
    have hlabel := Walk.index?_child_label a.selection (hs.names.field hd) typed s
    have hplace : ∀ cache : Cache, a.isPlaceholder = false → cache.Plantable
        (a.place ((Walk.child a.selection (.field name) typed).run s).1.node.label) := by
      intro cache _
      rw [place]
      split
      · exact Cache.plantable_child _ _ hlabel
      · exact Cache.plantable_root _ _ _
    have hresolved := Walk.keeps_resolve (hasked.tame hs) (hplace _)
      ((Walk.child a.selection (.field name) typed).run s).1 d.typeRef a.operation
    exact (hasked.keeps hs).trans hresolved

end Accessor

/-- No read disturbs the cache. -/
theorem Look.keeps {s : Scene} (hs : s.Tame) (look : Look) : s.Keeps (look.run.run s).2 := by
  cases look with
  | root operation => exact Scene.Still.keeps ⟨rfl, rfl, rfl⟩ hs
  | field a name arguments =>
      exact Attempt.keeps_bind hs (a.keeps_field hs name arguments) fun _ _ ht => .refl ht
  | length l => exact l.keeps_length hs
  | item l position => exact l.keeps_get hs position
  | byKey l key => exact l.keeps_byKey hs key
  | items l => exact l.keeps_items hs
  | typename u => exact u.keeps_typename hs
  | branch u type => exact Attempt.keeps_bind hs (u.keeps_on hs type) fun _ _ ht => .refl ht

theorem Scene.keeps_afterLooks {s : Scene} (hs : s.Tame) (looks : List Look) :
    s.Keeps (s.afterLooks looks) := by
  induction looks generalizing s with
  | nil => exact .refl hs
  | cons look looks ih =>
      have hfirst := look.keeps hs
      exact hfirst.trans (ih (hfirst.tame hs))

/-- Reads through accessors leave the snapshot as it is, where the containers in the end, and those
that were dropped meanwhile, find room. -/
theorem snapshot_afterLooks {options : Cache.Options} {time : Nat} {s : Scene}
    (run : Cache.OrderedRun options time s.cache) (merges : options.MergesInOrder)
    (later : time ≤ s.now) (names : s.schema.HasGraphNames) (looks : List Look)
    (room : (s.afterLooks looks).cache.size + (s.afterLooks looks).cache.metrics.evictions ≤
      s.cache.metrics.evictions + options.maxEntries) :
    (s.afterLooks looks).cache.snapshot s.now = s.cache.snapshot s.now := by
  obtain ⟨hoptions, hsound, _⟩ := run.reachable.sound
  rw [← hoptions] at hsound room
  have hs : s.Tame := ⟨names, hsound.later later, run.inOrder merges⟩
  exact ((Scene.keeps_afterLooks hs looks).cache.shown room).2

/-! ### A user without a friend -/

namespace Friendless

def schema : Schema :=
  { types := [("User", [("friend", { type := "User" }), ("id", { type := "ID!" }),
      ("name", { type := "String" })]),
      ("query", [("user", { type := "User" }), ("users", { type := "[User]" })])] }

def user : Json := .object [("__typename", .string "User"), ("id", .int 1), ("name", .string "Ann")]

def stored : Cache :=
  (Cache.act (.new {}) 0 (.write { root := .query, field := "user" } user)).cache

def scene : Scene :=
  let (roots, forest) := Roots.plant {} Selection.defaultAliasLength
  { schema, identityFields := ["id"], now := 0, forest, cache := stored, context := { roots } }

/-- The object that a field leads to. -/
def step (a : Accessor) (name : String) (s : Scene) : Accessor :=
  match ((a.field name).run s).1 with
  | .ok (.object (some o)) => o
  | _ => default

def reader : Accessor := ((Accessor.root .query).run scene).1

def ann : Accessor := step reader "user" scene

def looks : List Look :=
  [.field reader "user" [], .field ann "friend" [], .field (step ann "friend" scene) "name" [],
    .field reader "users" []]

/-- The friend is put into the object of the user, and the list into a container of its own. -/
theorem snapshot_afterLooks_friendless :
    (Cache.OrderedRun {} 0 scene.cache ∧ Cache.Options.MergesInOrder {} ∧ 0 ≤ scene.now ∧
      scene.schema.HasGraphNames ∧
      (scene.afterLooks looks).cache.size + (scene.afterLooks looks).cache.metrics.evictions ≤
        scene.cache.metrics.evictions + 4096) ∧
    (scene.afterLooks looks).cache.store.placeholders.length = 2 ∧
    (scene.afterLooks looks).cache.snapshot scene.now = scene.cache.snapshot scene.now := by
  have hordered : user.InOrder := by decide
  have hrun : Cache.OrderedRun {} 0 scene.cache :=
    .act (.new 0) (Nat.le_refl 0) hordered
  have hmerges : Cache.Options.MergesInOrder {} := by
    rintro n hn resolve hresolve
    obtain rfl := Option.some.inj hn
    cases hresolve
  have hnames : ∀ q ∈ scene.schema.types, ∀ r ∈ q.2, Selection.isGraphName r.1 = true := by
    decide
  have hroom : (scene.afterLooks looks).cache.size +
      (scene.afterLooks looks).cache.metrics.evictions ≤
        scene.cache.metrics.evictions + 4096 := by
    decide +kernel
  exact ⟨⟨hrun, hmerges, Nat.le_refl 0, hnames, hroom⟩, by decide +kernel,
    snapshot_afterLooks hrun hmerges (Nat.le_refl 0) hnames looks hroom⟩

end Friendless

end LazyGraph
