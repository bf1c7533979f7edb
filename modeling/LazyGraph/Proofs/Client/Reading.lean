import LazyGraph.Proofs.Cache.Standing
import LazyGraph.Proofs.Client.Trail
import LazyGraph.Proofs.Document.Response
import LazyGraph.Proofs.Selection.Regular

/-!
Closures that read ways down of object fields with arguments, each to a scalar: what a run of
them asks for, and what it gives once the cache has it.
-/
namespace LazyGraph

/-- A field on a way down, with the values of its arguments. -/
structure Hop where
  name : String
  arguments : Fields Json := []

/-- The key under which a response holds the field. -/
def Hop.responseKey (h : Hop) (aliasLength : Nat) : String :=
  match h.arguments with
  | [] => h.name
  | arguments => s!"{h.name}_{Digest.short [h.name, (Json.object arguments).canonical] aliasLength}"

namespace Accessor

/-- Reads object fields down to a scalar field; null where one of them is not there. -/
def readPath (a : Accessor) : List Hop → Attempt Json
  | [] => pure .null
  | [h] => do
    let v ← a.field h.name h.arguments
    pure (v.scalar?.getD .null)
  | h :: next :: rest => do
    match (← a.field h.name h.arguments).object? with
    | some o => o.readPath (next :: rest)
    | none => pure .null

def readPaths (a : Accessor) : List (List Hop) → Attempt (List Json)
  | [] => pure []
  | path :: rest => do
    let v ← a.readPath path
    pure (v :: (← a.readPaths rest))

end Accessor

/-- The closure that reads paths below the root of the query, one after the other. -/
def pathClosure (paths : List (List Hop)) : Closure := do
  let a ← (Accessor.root .query : Walk Accessor)
  pure (.array (← a.readPaths paths))

namespace Schema

/-- The schema declares the fields of a way down from a type, with their arguments: objects and a
scalar at the end. -/
inductive Declares (schema : Schema) : String → List Hop → Prop
  | scalar {type : String} {h : Hop} {d : FieldDef} {arguments : Fields Selection.Argument}
    (field : schema.requireField type h.name = .ok d)
    (typed : Accessor.typedArguments h.name d h.arguments = .ok arguments)
    (single : d.typeRef.isList = false) (kind : schema.kind d.typeRef.name = .scalar) :
    Declares schema type [h]
  | object {type : String} {h : Hop} {d : FieldDef} {arguments : Fields Selection.Argument}
    {rest : List Hop} (field : schema.requireField type h.name = .ok d)
    (typed : Accessor.typedArguments h.name d h.arguments = .ok arguments)
    (single : d.typeRef.isList = false) (kind : schema.kind d.typeRef.name = .object)
    (below : Declares schema d.typeRef.name rest) :
    Declares schema type (h :: rest)

theorem Declares.exists_cons {schema : Schema} {type : String} {path : List Hop}
    (h : schema.Declares type path) : ∃ next rest, path = next :: rest := by
  cases h <;> exact ⟨_, _, rfl⟩

end Schema

/-- The types that arguments get leave their values as they are. -/
theorem Accessor.typedArguments_values {field : String} {d : FieldDef} {values : Fields Json}
    {arguments : Fields Selection.Argument}
    (h : typedArguments field d values = .ok arguments) :
    Fields.mapValues (·.value) arguments = values := by
  have hall := Document.forall₂_of_mapM_ok h
  clear h
  induction hall with
  | nil => rfl
  | @cons q a values arguments hq _ ih =>
      obtain ⟨name, value⟩ := q
      cases htype : Fields.get? d.arguments name with
      | none =>
          simp only [htype] at hq
          cases hq
      | some type =>
          simp only [htype] at hq
          obtain rfl := Except.ok.inj hq
          exact congrArg ((name, value) :: ·) ih

/-- The label of a field is the key under which a response holds it. -/
theorem Hop.childAlias_getD {h : Hop} {d : FieldDef} {arguments : Fields Selection.Argument}
    (typed : Accessor.typedArguments h.name d h.arguments = .ok arguments) (aliasLength : Nat) :
    (Selection.childAlias (.field h.name) none arguments aliasLength).getD h.name =
      h.responseKey aliasLength := by
  have hvalues := Accessor.typedArguments_values typed
  rw [responseKey, ← hvalues]
  cases arguments with
  | nil => rfl
  | cons a arguments => rfl

/-! ### Scenes -/

/-- The nodes of a scene are regular, and what was touched lies below one of its roots. -/
structure Scene.Tidy (roots : List Selection) (root : Selection) (s : Scene) : Prop where
  forest : s.forest.Regular roots
  known : root ∈ roots
  selected : ∀ x ∈ s.context.selections, x ∈ s.forest.handed roots ∧ x.rootNode = root.node ∧
    x.above ≠ []

/-- The second scene comes from the first one by reads, placeholders and touches. -/
structure Scene.Walks (roots : List Selection) (root : Selection) (s t : Scene) : Prop where
  schema : t.schema = s.schema
  options : t.cache.options = s.cache.options
  planted : t.context.roots = s.context.roots
  tidy : t.Tidy roots root
  handed : s.forest.handed roots ⊆ t.forest.handed roots
  selected : s.context.selections ⊆ t.context.selections

/-- Selections were touched, and the cache is the same. -/
structure Scene.Asks (roots : List Selection) (root : Selection) (s t : Scene) : Prop
    extends Scene.Walks roots root s t where
  cache : t.cache = s.cache

variable {roots : List Selection} {root : Selection} {s t u : Scene}

namespace Scene

theorem Walks.refl (h : s.Tidy roots root) : s.Walks roots root s :=
  ⟨rfl, rfl, rfl, h, List.Subset.refl _, List.Subset.refl _⟩

theorem Walks.trans (h : s.Walks roots root t) (h' : t.Walks roots root u) :
    s.Walks roots root u where
  schema := h'.schema.trans h.schema
  options := h'.options.trans h.options
  planted := h'.planted.trans h.planted
  tidy := h'.tidy
  handed := List.Subset.trans h.handed h'.handed
  selected := List.Subset.trans h.selected h'.selected

theorem Asks.refl (h : s.Tidy roots root) : s.Asks roots root s := ⟨.refl h, rfl⟩

theorem Asks.trans (h : s.Asks roots root t) (h' : t.Asks roots root u) : s.Asks roots root u :=
  ⟨h.toWalks.trans h'.toWalks, h'.cache.trans h.cache⟩

end Scene

namespace Walk

variable {x : Selection}

/-- A field is asked for below a selection of the tree. -/
structure Asked (roots : List Selection) (root x : Selection) (r : Selection × Scene) : Prop where
  handed : r.1 ∈ r.2.forest.handed roots
  tree : r.1.rootNode = root.node
  below : r.1.above ≠ []
  aliasLength : r.1.aliasLength = x.aliasLength

theorem asks_child (hs : s.Tidy roots root) (hx : x ∈ s.forest.handed roots)
    (htree : x.rootNode = root.node) {name : String} (hname : Selection.isGraphName name = true)
    (arguments : Fields Selection.Argument) :
    s.Asks roots root ((child x (.field name) arguments).run s).2 ∧
      Asked roots root x ((child x (.field name) arguments).run s) ∧
      ((child x (.field name) arguments).run s).1.node.label =
        (Selection.childAlias (.field name) none arguments x.aliasLength).getD name := by
  obtain ⟨_, hmem, hsub⟩ := hs.forest.grown.ask hx (.field name) none arguments false
  obtain ⟨hunder, hlabel⟩ :=
    hs.forest.grown.sound.child_under hx (.field name) none arguments false
  refine ⟨⟨⟨rfl, rfl, rfl, ⟨hs.forest.child hx hname arguments, hs.known, ?_⟩, hsub,
    List.Subset.refl _⟩, rfl⟩, ⟨hmem, ?_, ?_, hunder.aliasLength⟩, hlabel⟩
  · intro y hy
    obtain ⟨hy, hrest⟩ := hs.selected y hy
    exact ⟨hsub hy, hrest⟩
  · exact (Selection.rootNode_of_above hunder.above).trans htree
  · have habove : ((child x (.field name) arguments).run s).1.above = x.node :: x.above :=
      hunder.above
    rw [habove]
    exact List.cons_ne_nil _ _

theorem asks_select (hs : s.Tidy roots root) (hx : x ∈ s.forest.handed roots)
    (htree : x.rootNode = root.node) (hbelow : x.above ≠ []) :
    s.Asks roots root ((select x).run s).2 ∧ x ∈ ((select x).run s).2.context.selections := by
  have hrun : ((select x).run s).2 = { s with context := s.context.select x } := rfl
  rw [hrun, Context.select]
  split
  · rename_i hany
    obtain ⟨y, hy, he⟩ := List.any_eq_true.mp hany
    obtain rfl := hs.forest.grown.sound.eq_of_id (hs.selected y hy).1 hx (eq_of_beq he)
    exact ⟨.refl hs, hy⟩
  · refine ⟨⟨⟨rfl, rfl, rfl, ⟨hs.forest, hs.known, ?_⟩, List.Subset.refl _,
      List.subset_append_left _ _⟩, rfl⟩, List.mem_append_right _ (List.mem_singleton.mpr rfl)⟩
    exact List.forall_mem_append.mpr ⟨hs.selected,
      List.forall_mem_singleton.mpr ⟨hx, htree, hbelow⟩⟩

theorem asks_selectChild (hs : s.Tidy roots root) (hx : x ∈ s.forest.handed roots)
    (htree : x.rootNode = root.node) {name : String} (hname : Selection.isGraphName name = true) :
    s.Asks roots root ((child x (.field name) >>= select).run s).2 := by
  obtain ⟨hasks, hchild, _⟩ := asks_child hs hx htree hname []
  exact hasks.trans (asks_select hasks.tidy hchild.handed hchild.tree hchild.below).1

theorem asks_register (hs : s.Tidy roots root) (hn : s.schema.HasGraphNames)
    (hx : x ∈ s.forest.handed roots) (htree : x.rootNode = root.node) (hbelow : x.above ≠ [])
    (type : TypeRef) :
    s.Asks roots root ((register x type).run s).2 ∧
      x ∈ ((register x type).run s).2.context.selections := by
  refine register_induction
    (motive := fun t => s.Asks roots root t ∧ x ∈ t.context.selections)
    (asks_select hs hx htree hbelow) ?_
  rintro name d t hd ⟨hasks, hmem⟩
  have hlater := asks_selectChild hasks.tidy (hasks.handed hx) htree (hn.field hd)
  exact ⟨hasks.trans hlater, hlater.selected hmem⟩

/-- The accessor for data stands where it was asked for, remembered or not. -/
theorem asks_accessorFor (hs : s.Tidy roots root) (selection : Selection) (type : String)
    (operation : Operation) (path : CachePath) (data : Json) :
    s.Asks roots root ((accessorFor selection type operation path data).run s).2 ∧
      ∃ id, ((accessorFor selection type operation path data).run s).1 =
        { id, selection, type, operation, path := some path, isPlaceholder := false } := by
  have hsame : ∀ c : Context, c.roots = s.context.roots → c.selections = s.context.selections →
      s.Asks roots root { s with context := c } :=
    fun c hr hc => ⟨⟨rfl, rfl, hr, ⟨hs.forest, hs.known, hc ▸ hs.selected⟩, List.Subset.refl _,
      hc ▸ List.Subset.refl _⟩, rfl⟩
  rw [accessorFor, run_get_bind]
  split
  · exact ⟨.refl hs, _, rfl⟩
  · exact ⟨hsame _ rfl rfl, s.context.nextAccessor, rfl⟩

end Walk

/-! ### Reads -/

/-- A value that is no list is read as its kind asks, once its selection is registered. -/
theorem Walk.resolve_single (x : Selection) (s : Scene) (path : CachePath) (operation : Operation)
    (isPlaceholder : Bool) {type : TypeRef} (hl : type.isList = false) :
    (resolve x type path operation isPlaceholder).run s =
      (match ((register x type).run s).2.schema.kind type.name with
        | .scalar => resolveScalar path operation isPlaceholder
        | .object => resolveObject x type.name path operation isPlaceholder
        | .abstract => resolveUnion x type.name path operation isPlaceholder).run
        ((register x type).run s).2 := by
  rw [resolve, run_bind]
  simp only [hl]
  rfl

namespace Cache

theorem Alike.shows {c d : Cache} (h : Alike c d) {fs : Fields Json} (hc : c.Shows fs) :
    d.Shows fs where
  object field rest gs hv := by
    rw [h.read_value]
    exact hc.object field rest gs hv
  leaf field rest v hv hl := by
    rw [h.read_value]
    exact hc.leaf field rest v hv hl

theorem options_seed (c : Cache) (now : Nat) (path : CachePath) (value : Json) :
    (c.seed now path value).2.options = c.options := by
  rw [seed]
  split
  · split <;> rfl
  · split
    · rfl
    · split
      · rfl
      · split <;> rfl

end Cache

/-- The path of a field below the keys of an object of the query. -/
def CachePath.ofQuery (keys : List String) (label : String) : CachePath :=
  match keys with
  | [] => { root := .query, field := label }
  | field :: rest => { root := .query, field, rest := rest ++ [label] }

/-- The accessor stands for the object of a type at a position of the query. -/
structure Accessor.Placed (roots : List Selection) (root : Selection) (a : Accessor) (type : String)
    (keys : List String) (s : Scene) : Prop where
  type : a.type = type
  operation : a.operation = .query
  real : a.isPlaceholder = false
  child : ∀ label, (match a.path with
    | some path => path.child label
    | none => { root := a.operation, field := label }) = CachePath.ofQuery keys label
  handed : a.selection ∈ s.forest.handed roots
  tree : a.selection.rootNode = root.node
  aliasLength : a.selection.aliasLength = root.aliasLength

namespace Accessor

variable {a : Accessor} {type : String} {keys : List String} {h : Hop} {d : FieldDef}
  {arguments : Fields Selection.Argument}

theorem run_ofExcept {α β : Type} {e : Except ValidationError α} {v : α} (h : e = .ok v)
    (f : α → Attempt β) (s : Scene) : (child.ofExcept e >>= f).run s = (f v).run s := by
  subst h
  rfl

theorem run_lift {α : Type} (m : Walk α) (s : Scene) :
    (liftM m : Attempt α).run s = (.ok (m.run s).1, (m.run s).2) := rfl

/-- The selection of a declared field is asked for, with the path of its value. -/
theorem Placed.child_run (ha : a.Placed roots root type keys s) (hs : s.Tidy roots root)
    (hn : s.schema.HasGraphNames) (hd : s.schema.requireField type h.name = .ok d)
    (typed : typedArguments h.name d h.arguments = .ok arguments) :
    ∃ x t, s.Asks roots root t ∧ Walk.Asked roots root a.selection (x, t) ∧
      (a.child h.name h.arguments).run s =
        (.ok (x, d.typeRef, .ofQuery keys (h.responseKey root.aliasLength)), t) := by
  obtain ⟨hasks, hchild, hlabel⟩ :=
    Walk.asks_child hs ha.handed ha.tree (hn.field hd) arguments
  rw [ha.aliasLength, Hop.childAlias_getD typed] at hlabel
  refine ⟨_, _, hasks, hchild, ?_⟩
  have hpath := ha.child (h.responseKey root.aliasLength)
  rw [← hlabel] at hpath ⊢
  rw [← ha.type] at hd
  refine (run_ofExcept hd _ s).trans ((run_ofExcept typed _ s).trans ?_)
  refine (Attempt.run_bind_ok (run_lift _ s)).trans ?_
  rw [← hpath]
  rfl

/-- A field of a declared type is read at the path below, once it was asked for. -/
theorem Placed.field_run (ha : a.Placed roots root type keys s) (hs : s.Tidy roots root)
    (hn : s.schema.HasGraphNames) (hd : s.schema.requireField type h.name = .ok d)
    (typed : typedArguments h.name d h.arguments = .ok arguments)
    (hl : d.typeRef.isList = false) :
    ∃ x t, s.Asks roots root t ∧ x ∈ t.forest.handed roots ∧ x.rootNode = root.node ∧
      x.aliasLength = root.aliasLength ∧ x ∈ t.context.selections ∧
      (a.field h.name h.arguments).run s = (fun r => (.ok r.1, r.2))
        ((match s.schema.kind d.typeRef.name with
          | .scalar =>
            Walk.resolveScalar (.ofQuery keys (h.responseKey root.aliasLength)) .query false
          | .object =>
            Walk.resolveObject x d.typeRef.name
              (.ofQuery keys (h.responseKey root.aliasLength)) .query false
          | .abstract =>
            Walk.resolveUnion x d.typeRef.name
              (.ofQuery keys (h.responseKey root.aliasLength)) .query false : Walk FieldValue).run t) := by
  obtain ⟨x, u, hasks, hchild, hrun⟩ := ha.child_run hs hn hd typed
  obtain ⟨hregister, hmem⟩ := Walk.asks_register hasks.tidy (hasks.schema.symm ▸ hn) hchild.handed
    hchild.tree hchild.below d.typeRef
  refine ⟨x, _, hasks.trans hregister, hregister.handed hchild.handed, hchild.tree,
    hchild.aliasLength.trans ha.aliasLength, hmem, ?_⟩
  have hschema : ((Walk.register x d.typeRef).run u).2.schema = s.schema :=
    hregister.schema.trans hasks.schema
  refine (Attempt.run_bind_ok hrun).trans ((run_lift _ u).trans ?_)
  rw [Walk.resolve_single x u _ _ _ hl, ← hschema, ha.operation, ha.real]

end Accessor

theorem Scene.walks_afterRead (hs : s.Tidy roots root) (path : CachePath) :
    s.Walks roots root (s.afterRead path) :=
  ⟨rfl, (Cache.alike_read s.cache path).options, rfl, ⟨hs.forest, hs.known, hs.selected⟩,
    List.Subset.refl _, List.Subset.refl _⟩

theorem Scene.walks_seed (hs : s.Tidy roots root) (path : CachePath) (value : Json) :
    s.Walks roots root ((Walk.seed path value).run s).2 :=
  ⟨rfl, Cache.options_seed s.cache s.now path value, rfl, ⟨hs.forest, hs.known, hs.selected⟩,
    List.Subset.refl _, List.Subset.refl _⟩

namespace Cache.Shows

variable {c : Cache} {fs : Fields Json} {keys : List String} {label : String}

theorem leaf_ofQuery (h : c.Shows fs) {v : Json}
    (hv : (Json.object fs).memberAt? (keys ++ [label]) = some v) (hl : v.isLeaf = true) :
    (c.read (.ofQuery keys label)).1.value = some v := by
  cases keys with
  | nil => exact h.leaf label [] v hv hl
  | cons field rest => exact h.leaf field (rest ++ [label]) v hv hl

theorem object_ofQuery (h : c.Shows fs) {gs : Fields Json}
    (hv : (Json.object fs).memberAt? (keys ++ [label]) = some (.object gs)) :
    ∃ hs, (c.read (.ofQuery keys label)).1.value = some (.object hs) := by
  cases keys with
  | nil => exact h.object label [] gs hv
  | cons field rest => exact h.object field (rest ++ [label]) gs hv

end Cache.Shows

namespace Json

theorem memberAt?_append (v : Json) (keys more : List String) :
    v.memberAt? (keys ++ more) = (v.memberAt? keys).bind (memberAt? · more) := by
  induction keys generalizing v with
  | nil => rfl
  | cons key keys ih =>
      rw [List.cons_append, memberAt?, memberAt?, Option.bind_assoc]
      exact congrArg _ (funext fun u => ih u)

/-- Above something stand objects. -/
theorem exists_object_of_memberAt? {v leaf : Json} (keys : List String) {key : String}
    {more : List String} (h : v.memberAt? (keys ++ key :: more) = some leaf) :
    ∃ gs, v.memberAt? keys = some (.object gs) := by
  rw [memberAt?_append] at h
  obtain ⟨u, hu, h⟩ := Option.bind_eq_some_iff.mp h
  obtain ⟨w, hw, _⟩ := Option.bind_eq_some_iff.mp h
  cases u with
  | object gs => exact ⟨gs, hu⟩
  | _ => cases hw

end Json

namespace Accessor

variable {a : Accessor} {type : String} {keys : List String} {h : Hop} {d : FieldDef}
  {arguments : Fields Selection.Argument}

theorem placed_below {x : Selection} (label : String) (id : Nat) (type : String)
    (keys : List String) (htree : x.rootNode = root.node) (hlength : x.aliasLength = root.aliasLength)
    (hx : x ∈ s.forest.handed roots) :
    Placed roots root
      { id, selection := x, type, operation := .query, path := some (.ofQuery keys label)
        isPlaceholder := false } type (keys ++ [label]) s where
  type := rfl
  operation := rfl
  real := rfl
  child _ := by
    cases keys <;> rfl
  handed := hx
  tree := htree
  aliasLength := hlength

section Fields

variable (ha : a.Placed roots root type keys s) (hs : s.Tidy roots root)
  (hn : s.schema.HasGraphNames) (hd : s.schema.requireField type h.name = .ok d)
  (typed : typedArguments h.name d h.arguments = .ok arguments) (hl : d.typeRef.isList = false)

include ha hs hn hd typed hl

theorem Placed.field_scalar (hk : s.schema.kind d.typeRef.name = .scalar) :
    ∃ t, (a.field h.name h.arguments).run s = (.ok (.scalar
        ((s.cache.read (.ofQuery keys (h.responseKey root.aliasLength))).1.value.filter
          (!·.isNull))), t) ∧
      s.Walks roots root t ∧ t.context.selections ≠ [] ∧ s.cache.Alike t.cache := by
  obtain ⟨x, t, hasks, _, _, _, hmem, hrun⟩ := ha.field_run hs hn hd typed hl
  have hread := Scene.walks_afterRead hasks.tidy (.ofQuery keys (h.responseKey root.aliasLength))
  refine ⟨t.afterRead (.ofQuery keys (h.responseKey root.aliasLength)), ?_,
    hasks.toWalks.trans hread, List.ne_nil_of_mem hmem, ?_⟩
  · rw [hrun, hk, ← hasks.cache]
    rfl
  · rw [← hasks.cache]
    exact Cache.alike_read _ _

/-- An object field gives an accessor for it where the cache has an object, and then nothing else
becomes of the cache. -/
theorem Placed.field_object (hk : s.schema.kind d.typeRef.name = .object) :
    ∃ o t, (a.field h.name h.arguments).run s = (.ok (.object o), t) ∧ s.Walks roots root t ∧
      t.context.selections ≠ [] ∧
      (∀ b, o = some b → b.Placed roots root d.typeRef.name
        (keys ++ [h.responseKey root.aliasLength]) t) ∧
      ∀ fs, (s.cache.read (.ofQuery keys (h.responseKey root.aliasLength))).1.value =
          some (.object fs) → o.isSome ∧ s.cache.Alike t.cache := by
  obtain ⟨x, t, hasks, hx, htree, hlength, hmem, hrun⟩ := ha.field_run hs hn hd typed hl
  rw [hrun, hk, ← hasks.cache]
  have hplaced := fun id (u : Scene) (hu : x ∈ u.forest.handed roots) =>
    placed_below (h.responseKey root.aliasLength) id d.typeRef.name keys htree hlength hu
  generalize CachePath.ofQuery keys (h.responseKey root.aliasLength) = path at hplaced
  have hread := Scene.walks_afterRead hasks.tidy path
  have hafter := hasks.toWalks.trans hread
  let o (id : Nat) : Accessor :=
    { id, selection := x, type := d.typeRef.name, operation := .query, path := some path
      isPlaceholder := false }
  have hopen : (Walk.read path .query).run t = ((t.cache.read path).1.value, t.afterRead path) := rfl
  simp only
  rw [Walk.resolveObject, if_neg Bool.false_ne_true, Walk.run_bind, hopen]
  cases hv : (t.cache.read path).1.value with
  | none =>
      have hseed := Scene.walks_seed hafter.tidy path (.object [])
      obtain ⟨hfor, id, hid⟩ :=
        Walk.asks_accessorFor hseed.tidy x d.typeRef.name .query path (.object [])
      have hlater := hread.trans (hseed.trans hfor.toWalks)
      refine ⟨some (o id), _, ?_, hasks.toWalks.trans hlater,
        List.ne_nil_of_mem (hlater.selected hmem), ?_, fun _ he => by cases he⟩
      · have hid : _ = o id := hid
        rw [← hid]
        rfl
      · rintro b he
        obtain rfl := Option.some.inj he
        exact hplaced id _ (hlater.handed hx)
  | some v =>
      cases v with
      | object fs =>
          obtain ⟨hfor, id, hid⟩ :=
            Walk.asks_accessorFor hafter.tidy x d.typeRef.name .query path (.object fs)
          have hlater := hread.trans hfor.toWalks
          refine ⟨some (o id), _, ?_, hasks.toWalks.trans hlater,
            List.ne_nil_of_mem (hlater.selected hmem), ?_, fun _ _ => ⟨rfl, ?_⟩⟩
          · have hid : _ = o id := hid
            rw [← hid]
            rfl
          · rintro b he
            obtain rfl := Option.some.inj he
            exact hplaced id _ (hlater.handed hx)
          · rw [hfor.cache]
            exact Cache.alike_read t.cache path
      | _ =>
          refine ⟨none, _, rfl, hafter, List.ne_nil_of_mem (hread.selected hmem), ?_, ?_⟩
          · intro _ he
            cases he
          · intro _ he
            cases he

end Fields

theorem Placed.walks (h : a.Placed roots root type keys s) (hw : s.Walks roots root t) :
    a.Placed roots root type keys t :=
  ⟨h.type, h.operation, h.real, h.child, hw.handed h.handed, h.tree, h.aliasLength⟩

/-- Reading a path always gives a value: the leaf that a response holds there once the cache shows
the response, and then nothing else becomes of the cache. -/
theorem readPath_run {schema : Schema} (hn : schema.HasGraphNames) {type : String}
    {path : List Hop} (hdeclares : schema.Declares type path) {a : Accessor} {keys : List String}
    {s : Scene} (ha : a.Placed roots root type keys s) (hs : s.Tidy roots root)
    (hschema : s.schema = schema) :
    ∃ v t, (a.readPath path).run s = (.ok v, t) ∧ s.Walks roots root t ∧
      t.context.selections ≠ [] ∧
      ∀ fs leaf, s.cache.Shows fs →
        (Json.object fs).memberAt? (keys ++ path.map (·.responseKey root.aliasLength)) = some leaf →
        leaf.isLeaf = true → v = leaf ∧ s.cache.Alike t.cache := by
  induction hdeclares generalizing a keys s with
  | @scalar type h d arguments field typed single kind =>
      subst hschema
      obtain ⟨t, hrun, hwalks, hne, halike⟩ := ha.field_scalar hs hn field typed single kind
      refine ⟨_, t, (Attempt.run_bind_ok hrun).trans rfl, hwalks, hne, ?_⟩
      intro fs leaf hshows hleaf hl
      refine ⟨?_, halike⟩
      rw [hshows.leaf_ofQuery hleaf hl]
      cases leaf <;> rfl
  | @object type h d arguments rest field typed single kind below ih =>
      subst hschema
      obtain ⟨o, t, hrun, hwalks, hne, hplaced, hthere⟩ :=
        ha.field_object hs hn field typed single kind
      obtain ⟨next, more, rfl⟩ := below.exists_cons
      have hstart := Attempt.run_bind_ok hrun
        (f := fun v : FieldValue => match v.object? with
          | some o => o.readPath (next :: more)
          | none => pure .null)
      have hobject : ∀ fs leaf, s.cache.Shows fs → (Json.object fs).memberAt?
          (keys ++ (h :: next :: more).map (·.responseKey root.aliasLength)) = some leaf →
          o.isSome ∧ s.cache.Alike t.cache := by
        intro fs leaf hshows hleaf
        obtain ⟨gs, hgs⟩ :=
          Json.exists_object_of_memberAt? (keys ++ [h.responseKey root.aliasLength])
            (by rwa [List.append_assoc] : _ = some leaf)
        obtain ⟨members, hread⟩ := hshows.object_ofQuery hgs
        exact hthere members hread
      cases o with
      | none =>
          refine ⟨.null, t, hstart, hwalks, hne, ?_⟩
          intro fs leaf hshows hleaf _
          cases (hobject fs leaf hshows hleaf).1
      | some b =>
          obtain ⟨v, u, hrest, hlater, hne', hread⟩ :=
            ih (hplaced b rfl) hwalks.tidy hwalks.schema
          refine ⟨v, u, hstart.trans hrest, hwalks.trans hlater, hne', ?_⟩
          intro fs leaf hshows hleaf hl
          obtain ⟨_, halike⟩ := hobject fs leaf hshows hleaf
          obtain ⟨hv, halike'⟩ :=
            hread fs leaf (halike.shows hshows) (by rwa [List.append_assoc]) hl
          exact ⟨hv, halike.trans halike'⟩

end Accessor

/-- The response holds a string, a number or a boolean where the keys of a path lead. -/
structure LeafAt (aliasLength : Nat) (fs : Fields Json) (path : List Hop) (v : Json) : Prop where
  held : (Json.object fs).memberAt? (path.map (·.responseKey aliasLength)) = some v
  leaf : v.isLeaf = true

/-- All paths are read, and once the cache shows a response, what it holds there. -/
theorem Accessor.readPaths_run {schema : Schema} (hn : schema.HasGraphNames) {type : String}
    {paths : List (List Hop)} (hdeclares : ∀ path ∈ paths, schema.Declares type path)
    {a : Accessor} {s : Scene} (ha : a.Placed roots root type [] s) (hs : s.Tidy roots root)
    (hschema : s.schema = schema) :
    ∃ vs t, (a.readPaths paths).run s = (.ok vs, t) ∧ s.Walks roots root t ∧
      (paths ≠ [] → t.context.selections ≠ []) ∧
      ∀ fs values, s.cache.Shows fs →
        List.Forall₂ (LeafAt root.aliasLength fs) paths values → vs = values := by
  induction paths generalizing s with
  | nil =>
      refine ⟨[], s, rfl, .refl hs, absurd rfl, ?_⟩
      rintro _ _ - ⟨⟩
      rfl
  | cons path paths ih =>
      obtain ⟨hpath, hpaths⟩ := List.forall_mem_cons.mp hdeclares
      obtain ⟨v, t, hfirst, hwalks, hne, hleaf⟩ := readPath_run hn hpath ha hs hschema
      obtain ⟨vs, u, hrest, hlater, _, hleaves⟩ :=
        ih hpaths (ha.walks hwalks) hwalks.tidy (hwalks.schema.trans hschema)
      refine ⟨v :: vs, u, ?_, hwalks.trans hlater, fun _ he => ?_, ?_⟩
      · exact (Attempt.run_bind_ok hfirst).trans (Attempt.run_bind_ok hrest)
      · have hselected := hlater.selected
        rw [he] at hselected
        exact hne (List.eq_nil_of_subset_nil hselected)
      · rintro fs _ hshows (_ | ⟨hat, hrest⟩)
        obtain ⟨rfl, halike⟩ := hleaf fs _ hshows hat.held hat.leaf
        rw [hleaves fs _ (halike.shows hshows) hrest]

/-- A closure that reads paths below the root of the query touches what lies there, and gives the
leaves of a response once the cache shows it. -/
theorem pathClosure_run {paths : List (List Hop)} {s : Scene} (hn : s.schema.HasGraphNames)
    (hdeclares : ∀ path ∈ paths, s.schema.Declares Operation.query.text path)
    (hs : s.Tidy roots s.context.roots.query) :
    ∃ vs t, (pathClosure paths).run s = (.ok (.array vs), t) ∧
      s.Walks roots s.context.roots.query t ∧ (paths ≠ [] → t.context.selections ≠ []) ∧
      ∀ fs values, s.cache.Shows fs →
        List.Forall₂ (LeafAt s.context.roots.query.aliasLength fs) paths values →
        vs = values := by
  let t : Scene := { s with context := s.context.freshAccessor.2 }
  let a : Accessor :=
    { id := s.context.nextAccessor, selection := s.context.roots.query, type := Operation.query.text
      operation := .query, path := none, isPlaceholder := false }
  have hroot : (liftM (Accessor.root .query) : Attempt Accessor).run s = (.ok a, t) := rfl
  have htidy : t.Tidy roots s.context.roots.query := ⟨hs.forest, hs.known, hs.selected⟩
  have hplaced : a.Placed roots s.context.roots.query Operation.query.text [] t :=
    ⟨rfl, rfl, rfl, fun _ => rfl, Selection.Forest.mem_handed.mpr (.inl hs.known),
      Selection.rootNode_of_isRoot (hs.forest.grown.sound.tops _ hs.known), rfl⟩
  obtain ⟨vs, u, hrun, hwalks, hne, hleaves⟩ :=
    Accessor.readPaths_run hn hdeclares hplaced htidy rfl
  refine ⟨vs, u, (Attempt.run_bind_ok hroot).trans (Attempt.run_bind_ok hrun), ?_, hne, hleaves⟩
  exact ⟨hwalks.schema, hwalks.options, hwalks.planted, hwalks.tidy, hwalks.handed,
    hwalks.selected⟩

end LazyGraph
