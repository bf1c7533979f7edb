import LazyGraph.Proofs.Accessor.Pass
import LazyGraph.Proofs.Cache.Path
import LazyGraph.Proofs.Selection.Orderly

/-!
Where accessors stand: on a selection, and over a path of the cache. Of the path the keys above the
selection tell all but the positions of items.
-/
namespace LazyGraph

open Selection (Node isGraphName)
open Selection.Forest (Gives)

namespace CachePath

/-- The path with the positions of items left out. -/
def withoutPositions (p : CachePath) : CachePath :=
  { p with rest := p.rest.filter (!Text.isNumeral ·) }

theorem withoutPositions_item (p : CachePath) (position : Nat) :
    (p.child (toString position)).withoutPositions = p.withoutPositions := by
  rw [withoutPositions, child, List.filter_append, List.filter_cons_of_neg, List.filter_nil,
    List.append_nil]
  · rfl
  · rw [Text.isNumeral_toString]
    exact Bool.false_ne_true

theorem withoutPositions_field (p : CachePath) {label : String} (h : isGraphName label = true) :
    (p.child label).withoutPositions = p.withoutPositions.child label := by
  rw [withoutPositions, child, List.filter_append, List.filter_cons_of_pos]
  · rfl
  · rw [Text.isNumeral_of_isGraphName h]
    rfl

theorem ofKeys_segments {p : CachePath} (h : ∀ k ∈ p.segments, isGraphName k = true) :
    ofKeys (p.root.text :: p.segments) = .ok p := by
  refine parse_eq_ok_iff.mpr ⟨rfl, fun k hk => ⟨?_, Selection.undotted_of_isGraphName (h k hk)⟩⟩
  rintro rfl
  exact absurd (h "" hk) (by decide)

end CachePath

/-- Where the accessor of an object, a list or a union stands. -/
structure Footing where
  selection : Selection
  operation : Operation
  path : Option CachePath

def Accessor.footing (a : Accessor) : Footing := ⟨a.selection, a.operation, a.path⟩

def ListAccessor.footing (l : ListAccessor) : Footing := ⟨l.selection, l.operation, some l.path⟩

def UnionAccessor.footing (u : UnionAccessor) : Footing := ⟨u.selection, u.operation, some u.path⟩

def FieldValue.footing? : FieldValue → Option Footing
  | .scalar _ => none
  | .object a => a.map (·.footing)
  | .list l => l.map (·.footing)
  | .union u => u.map (·.footing)

/-- The accessor of the value, if there is one, stands here. -/
def FieldValue.StandsAt (v : FieldValue) (x : Selection) (operation : Operation)
    (path : CachePath) : Prop :=
  ∀ a, v.footing? = some a → a = ⟨x, operation, some path⟩

namespace FieldValue.StandsAt

variable {v : FieldValue} {x : Selection} {operation : Operation} {path : CachePath}

theorem some (h : v.footing? = Option.some ⟨x, operation, Option.some path⟩) :
    v.StandsAt x operation path :=
  fun _ ha => (Option.some.inj (h.symm.trans ha)).symm

theorem none (h : v.footing? = Option.none) : v.StandsAt x operation path := by
  intro a ha
  cases h.symm.trans ha

end FieldValue.StandsAt

/-! ### Trees that grow -/

namespace Scene

/-- What stays as it is while nothing is asked for. -/
structure SameTrees (s t : Scene) : Prop where
  schema : t.schema = s.schema
  forest : t.forest = s.forest
  roots : t.context.roots = s.context.roots

/-- The trees hold what accessors ask for. -/
structure Orderly (s : Scene) : Prop where
  names : s.schema.HasGraphNames
  members : s.schema.HasGraphMembers
  planted : ∃ aliasLength, s.context.roots = (Roots.plant {} aliasLength).1
  forest : s.forest.Orderly s.context.roots.all

/-- The second scene comes from the first one as accessors ask for selections. -/
structure Grows (s t : Scene) : Prop where
  schema : t.schema = s.schema
  roots : t.context.roots = s.context.roots
  orderly : t.Orderly
  mono : s.handed ⊆ t.handed

variable {s t u : Scene}

theorem Grows.trans (h : s.Grows t) (h' : t.Grows u) : s.Grows u :=
  ⟨h'.schema.trans h.schema, h'.roots.trans h.roots, h'.orderly, List.Subset.trans h.mono h'.mono⟩

theorem SameTrees.grows (h : s.SameTrees t) (hs : s.Orderly) : s.Grows t := by
  refine ⟨h.schema, h.roots, ⟨?_, ?_, ?_, ?_⟩, ?_⟩
  · exact h.schema ▸ hs.names
  · exact h.schema ▸ hs.members
  · exact h.roots ▸ hs.planted
  · rw [h.forest, h.roots]
    exact hs.forest
  · rw [handed, handed, h.forest, h.roots]
    exact List.Subset.refl _

theorem Grows.refl (hs : s.Orderly) : s.Grows s := SameTrees.grows ⟨rfl, rfl, rfl⟩ hs

theorem Quiet.grows (h : s.Quiet t) (hs : s.Orderly) : s.Grows t :=
  SameTrees.grows ⟨h.schema, h.forest, h.roots⟩ hs

end Scene

namespace Walk

variable {α β : Type} {s : Scene} {x p : Selection}

theorem grows_bind {m : Walk α} {f : α → Walk β} (h : s.Grows (m.run s).2)
    (hf : (m.run s).2.Grows ((f (m.run s).1).run (m.run s).2).2) :
    s.Grows ((m >>= f).run s).2 :=
  h.trans hf

theorem grows_select (hs : s.Orderly) (x : Selection) : s.Grows ((select x).run s).2 := by
  have hroots : (s.context.select x).roots = s.context.roots := by
    unfold Context.select
    split <;> rfl
  exact Scene.SameTrees.grows ⟨rfl, rfl, hroots⟩ hs

theorem grows_child (hs : s.Orderly) {key : Selection.Key} {arguments : Fields Selection.Argument}
    {isBranch : Bool} {request : Node}
    (h : Gives s.forest s.context.roots.all p request (s.forest.child p key none arguments isBranch).1
      (s.forest.child p key none arguments isBranch).2) :
    s.Grows ((child p key arguments isBranch).run s).2 :=
  ⟨rfl, rfl, ⟨hs.names, hs.members, hs.planted, h.orderly⟩, h.mono⟩

theorem grows_touch (hs : s.Orderly) (hp : p ∈ s.handed) (plain : p.node.isMarker = false)
    {name : String} (hname : isGraphName name = true) :
    s.Grows ((child p (.field name) >>= select).run s).2 := by
  have hchild := grows_child hs (hs.forest.field hp plain hname [])
  exact grows_bind hchild (grows_select hchild.orderly _)

theorem grows_selectIdentity (hs : s.Orderly) (hp : p ∈ s.handed)
    (plain : p.node.isMarker = false) (type : String) :
    s.Grows ((selectIdentity p type).run s).2 :=
  selectIdentity_induction (motive := s.Grows) (.refl hs) fun _ _ _ hd ht =>
    ht.trans (grows_touch ht.orderly (ht.mono hp) plain (hs.names.field hd))

theorem grows_register (hs : s.Orderly) (hx : x ∈ s.handed) (plain : x.node.isMarker = false)
    (type : TypeRef) : s.Grows ((register x type).run s).2 :=
  register_induction (motive := s.Grows) (grows_select hs x) fun _ _ _ hd ht =>
    ht.trans (grows_touch ht.orderly (ht.mono hx) plain (hs.names.field hd))

theorem grows_touchItem (hs : s.Orderly) (l : ListAccessor) (hl : l.selection ∈ s.handed)
    (plain : l.selection.node.isMarker = false) (position : Nat) :
    s.Grows ((touchItem l position).run s).2 := by
  have hgives := hs.forest.item hl plain position
  have hitem := grows_child hs hgives
  exact grows_bind hitem (grows_register hitem.orderly hgives.mem hgives.isMarker _)

section Resolve

variable (hs : s.Orderly) (hx : x ∈ s.handed) (plain : x.node.isMarker = false)

include hs hx plain

theorem grows_resolveList (itemType : TypeRef) (path : CachePath) (operation : Operation)
    (isPlaceholder : Bool) :
    s.Grows ((resolveList x itemType path operation isPlaceholder).run s).2 := by
  have hpresent : ∀ (t : Scene) (isPlaceholder : Bool), s.Quiet t →
      s.Grows ((touchItem { selection := x, itemType, operation, path, isPlaceholder } 0).run t).2 := by
    intro t isPlaceholder hquiet
    have hsame := hquiet.grows hs
    exact hsame.trans (grows_touchItem hsame.orderly _ (hsame.mono hx) plain 0)
  have hread := quiet_read s path operation
  rw [resolveList]
  split
  · exact hpresent s true (.refl s)
  · rw [run_bind]
    split
    · exact hpresent _ false hread
    · exact hread.grows hs
    · exact hpresent _ false (hread.trans (quiet_seed _ path (.array [])))

theorem grows_resolve (below : x.above ≠ []) (type : TypeRef) (path : CachePath)
    (operation : Operation) (isPlaceholder : Bool) :
    s.Grows ((resolve x type path operation isPlaceholder).run s).2 := by
  have hregister := grows_register hs hx plain type
  have hs' := hregister.orderly
  rw [resolve]
  refine grows_bind hregister ?_
  split
  · exact grows_resolveList hs' (hregister.mono hx) plain type.item path operation isPlaceholder
  · rename_i single
    have single : type.isList = false := Bool.eq_false_iff.mpr single
    rw [run_get_bind]
    split
    · exact (@quiet_resolveScalar type _ x path operation isPlaceholder).1.grows hs'
    · exact (quiet_resolveObject _ x path operation isPlaceholder single).1.grows hs'
    · exact (quiet_resolveUnion _ x path operation isPlaceholder single below).1.grows hs'

end Resolve

/-! ### Where values are resolved -/

section Resolve

variable (s : Scene) (x : Selection) (path : CachePath) (operation : Operation)
  (isPlaceholder : Bool)

theorem standsAt_accessorFor (type : String) (data : Json) :
    FieldValue.StandsAt (.object (some ((accessorFor x type operation path data).run s).1))
      x operation path := by
  rw [accessorFor, run_get_bind]
  split <;> exact .some rfl

theorem standsAt_resolveList (itemType : TypeRef) :
    ((resolveList x itemType path operation isPlaceholder).run s).1.StandsAt x operation path := by
  rw [resolveList]
  split
  · exact .some rfl
  · rw [run_bind]
    split
    · exact .some rfl
    · exact .none rfl
    · exact .some rfl

theorem standsAt_resolveObject (type : String) :
    ((resolveObject x type path operation isPlaceholder).run s).1.StandsAt x operation path := by
  rw [resolveObject]
  split
  · exact .some rfl
  · rw [run_bind]
    split
    · exact standsAt_accessorFor _ x path operation type _
    · exact .none rfl
    · exact standsAt_accessorFor _ x path operation type _

theorem standsAt_resolveUnion (type : String) :
    ((resolveUnion x type path operation isPlaceholder).run s).1.StandsAt x operation path := by
  rw [resolveUnion]
  split
  · exact .some rfl
  · rw [run_bind]
    split
    · exact .some rfl
    · exact .none rfl
    · exact .some rfl

theorem standsAt_resolveScalar :
    ((resolveScalar path operation isPlaceholder).run s).1.StandsAt x operation path := by
  rw [resolveScalar]
  split <;> exact .none rfl

theorem standsAt_resolve (type : TypeRef) :
    ((resolve x type path operation isPlaceholder).run s).1.StandsAt x operation path := by
  rw [resolve, run_bind]
  split
  · exact standsAt_resolveList _ x path operation isPlaceholder type.item
  · rw [run_get_bind]
    split
    · exact standsAt_resolveScalar _ x path operation isPlaceholder
    · exact standsAt_resolveObject _ x path operation isPlaceholder type.name
    · exact standsAt_resolveUnion _ x path operation isPlaceholder type.name

end Resolve

end Walk

/-! ### Keys and paths -/

/-- The keys above a selection are the operation and the fields of a path. -/
structure CachePath.Tells (p : CachePath) (x : Selection) : Prop where
  keys : x.cacheKeys = p.root.text :: p.withoutPositions.segments
  names : ∀ k ∈ p.withoutPositions.segments, isGraphName k = true

namespace CachePath

variable {p : CachePath} {x y : Selection} {f g : Selection.Forest} {roots : List Selection}
  {request : Node}

theorem Tells.ofKeys (h : p.Tells x) : CachePath.ofKeys x.cacheKeys = .ok p.withoutPositions := by
  rw [h.keys]
  exact ofKeys_segments h.names

theorem Tells.field (h : p.Tells x) (gives : Gives f roots x request y g)
    (place : request.isPlace = true) (name : isGraphName request.label = true) :
    (p.child y.node.label).Tells y := by
  have hpath := p.withoutPositions_field (gives.label ▸ name)
  have hsegments : (p.child y.node.label).withoutPositions.segments =
      p.withoutPositions.segments ++ [y.node.label] := by
    rw [hpath]
    rfl
  constructor
  · rw [gives.cacheKeys, if_pos place, h.keys, hsegments]
    rfl
  · rw [hsegments]
    exact List.forall_mem_append.mpr ⟨h.names, List.forall_mem_singleton.mpr (gives.label ▸ name)⟩

/-- Items, choices and branches have the keys of what they stand below. -/
theorem Tells.pass (h : p.Tells x) (gives : Gives f roots x request y g)
    (pass : request.isPlace = false) : p.Tells y := by
  refine ⟨?_, h.names⟩
  rw [gives.cacheKeys, if_neg (Bool.eq_false_iff.mp pass), List.append_nil, h.keys]

theorem Tells.item (h : p.Tells x) (position : Nat) : (p.child (toString position)).Tells x := by
  refine ⟨?_, ?_⟩
  · rw [p.withoutPositions_item position]
    exact h.keys
  · rw [p.withoutPositions_item position]
    exact h.names

theorem tells_top {operation : Operation} (keys : x.cacheKeys = [operation.text])
    (gives : Gives f roots x request y g) (place : request.isPlace = true)
    (name : isGraphName request.label = true) :
    Tells { root := operation, field := y.node.label } y := by
  constructor
  · rw [gives.cacheKeys, if_pos place, keys]
    rfl
  · exact List.forall_mem_singleton.mpr (gives.label ▸ name)

end CachePath

/-- The accessor stands on the trees where its path tells, and at the root of its operation if it
has none. -/
structure Footing.Holds (a : Footing) (s : Scene) : Prop where
  mem : a.selection ∈ s.handed
  plain : a.selection.node.isMarker = false
  root : a.path = none → a.selection = s.context.roots.get a.operation
  path : ∀ p, a.path = some p → p.Tells a.selection

/-- The second scene comes from the first one by a read that gives the values. -/
structure Scene.Gets (s : Scene) (values : List FieldValue) (t : Scene) : Prop where
  grows : s.Grows t
  holds : ∀ v ∈ values, ∀ a, v.footing? = some a → a.Holds t

section

variable {s t u : Scene} {a : Footing} {values more : List FieldValue}

theorem Footing.Holds.later (h : a.Holds s) (later : s.Grows t) : a.Holds t where
  mem := later.mono h.mem
  plain := h.plain
  root hp := by
    rw [later.roots]
    exact h.root hp
  path := h.path

theorem Scene.Grows.gets (h : s.Grows t) : s.Gets [] t :=
  ⟨h, fun _ hv => absurd hv List.not_mem_nil⟩

theorem Scene.Grows.before (h : s.Grows t) (gets : t.Gets values u) : s.Gets values u :=
  ⟨h.trans gets.grows, gets.holds⟩

theorem Scene.Gets.trans (h : s.Gets values t) (later : t.Gets more u) :
    s.Gets (values ++ more) u := by
  refine ⟨h.grows.trans later.grows, fun v hv a ha => ?_⟩
  rcases List.mem_append.mp hv with hv | hv
  · exact (h.holds v hv a ha).later later.grows
  · exact later.holds v hv a ha

theorem Scene.Orderly.key_root (hs : s.Orderly) (operation : Operation) :
    (s.context.roots.get operation).node.key = .field operation.text ∧
      isGraphName operation.text = true := by
  obtain ⟨aliasLength, hroots⟩ := hs.planted
  rw [hroots]
  cases operation <;> exact ⟨rfl, by decide⟩

theorem Scene.Orderly.cacheKeys_root (hs : s.Orderly) (operation : Operation) :
    (s.context.roots.get operation).cacheKeys = [operation.text] := by
  obtain ⟨aliasLength, hroots⟩ := hs.planted
  rw [hroots]
  cases operation <;> rfl

end

namespace Walk

variable {s : Scene}

theorem gets_resolve (hs : s.Orderly) {x : Selection} (hx : x ∈ s.handed)
    (plain : x.node.isMarker = false) (below : x.above ≠ []) {path : CachePath}
    (tells : path.Tells x) (type : TypeRef) (operation : Operation) (isPlaceholder : Bool) :
    s.Gets [((resolve x type path operation isPlaceholder).run s).1]
      ((resolve x type path operation isPlaceholder).run s).2 := by
  have hgrows := grows_resolve hs hx plain below type path operation isPlaceholder
  refine ⟨hgrows, List.forall_mem_singleton.mpr fun a ha => ?_⟩
  obtain rfl := standsAt_resolve s x path operation isPlaceholder type a ha
  refine ⟨hgrows.mono hx, plain, nofun, fun p hp => ?_⟩
  obtain rfl := Option.some.inj hp
  exact tells

end Walk

end LazyGraph
