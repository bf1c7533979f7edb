import LazyGraph.Client
import LazyGraph.Proofs.Client.Touch
import LazyGraph.Proofs.Client.Upkeep

/-!
Closures that read ways down of object fields, each to a scalar. What such a run makes of the
cache, when it misses nothing, and what it then gives.
-/
namespace LazyGraph

/-- Reads object fields down to a scalar field; null where one of them is not there. -/
def Accessor.readTrail (a : Accessor) : List String → Attempt Json
  | [] => pure .null
  | [name] => do
    let v ← a.field name
    pure (v.scalar?.getD .null)
  | name :: next :: rest => do
    match (← a.field name).object? with
    | some o => o.readTrail (next :: rest)
    | none => pure .null

def Accessor.readTrails : List (List String) → Attempt (List Json)
  | [] => pure []
  | trail :: rest => do
    let a ← (Accessor.root .query : Walk Accessor)
    let v ← a.readTrail trail
    pure (v :: (← readTrails rest))

/-- The closure that reads trails from the root of the query, one after the other. -/
def trailClosure (trails : List (List String)) : Closure := do
  pure (.array (← Accessor.readTrails trails))

/-- The schema declares the fields of a trail, and the server holds objects along it and a leaf at
its end. -/
def Server.Serves (server : Server) (schema : Schema) (type : String) (p : List String) :
    List String → Prop
  | [] => False
  | [name] => ∃ d l, schema.requireField type name = .ok d ∧ d.typeRef.isList = false ∧
      schema.kind d.typeRef.name = .scalar ∧ server.holding (p ++ [name]) = .leaf l
  | name :: next :: rest => ∃ d, schema.requireField type name = .ok d ∧
      d.typeRef.isList = false ∧ schema.kind d.typeRef.name = .object ∧
      server.holding (p ++ [name]) = .object ∧
      server.Serves schema d.typeRef.name (p ++ [name]) (next :: rest)

/-- The leaf at a position. -/
def Server.leafAt (server : Server) (p : List String) : Json :=
  match server.holding p with
  | .leaf l => l.json
  | _ => .null

/-- What follows an action that succeeds starts from the scene that it leaves. -/
theorem Attempt.run_bind_ok {α β : Type} {m : Attempt α} {f : α → Attempt β} {s t : Scene} {a : α}
    (h : m.run s = (.ok a, t)) : (m >>= f).run s = (f a).run t := by
  simp only [ExceptT.run, bind, ExceptT.bind, ExceptT.mk, StateT.bind, ExceptT.bindCont] at h ⊢
  rw [h]

/-! ### What a run of reads leaves -/

variable {server : Server} {owns : String → List String → Prop} {root : Selection}

/-- The second scene comes from the first one by reads. -/
structure Scene.Reads (server : Server) (owns : String → List String → Prop) (root : Selection)
    (s t : Scene) : Prop where
  schema : t.schema = s.schema
  notices : t.notices = s.notices
  roots : t.context.roots = s.context.roots
  cache : s.cache.Upholds server owns t.cache
  missing : s.context.freshness.missing = true → t.context.freshness.missing = true
  ordered : t.Ordered root
  known : s.forest.known root ⊆ t.forest.known root
  selected : s.context.selections ⊆ t.context.selections

namespace Scene

theorem Reads.trans {s t u : Scene} (h : s.Reads server owns root t)
    (h' : t.Reads server owns root u) : s.Reads server owns root u where
  schema := h'.schema.trans h.schema
  notices := h'.notices.trans h.notices
  roots := h'.roots.trans h.roots
  cache := h.cache.trans h'.cache
  missing hm := h'.missing (h.missing hm)
  ordered := h'.ordered
  known := List.Subset.trans h.known h'.known
  selected := List.Subset.trans h.selected h'.selected

theorem Touches.reads {s t : Scene} (h : s.Touches root t) : s.Reads server owns root t := by
  obtain ⟨⟨f, c, rfl, hf, hr⟩, ho, hk, hs⟩ := h
  exact ⟨rfl, rfl, hr, .refl _, fun hm => by rw [hf]; exact hm, ho, hk, hs⟩

theorem Reads.refl {s : Scene} (h : s.Ordered root) : s.Reads server owns root s :=
  Touches.reads (.refl h)

/-- A read of the query at a path. -/
def afterRead (s : Scene) (path : CachePath) : Scene :=
  { s with
    cache := (s.cache.read path).2
    context := { s.context with
      freshness := s.context.freshness.observe s.now .query (s.cache.read path).1 } }

/-- A read that finds nothing, or a placeholder. -/
def misses (s : Scene) (path : CachePath) : Bool :=
  (s.cache.read path).1.value.isNone || (s.cache.read path).1.isPlaceholder

theorem missing_afterRead (s : Scene) (path : CachePath) :
    (s.afterRead path).context.freshness.missing =
      (s.context.freshness.missing || s.misses path) := by
  simp only [afterRead, misses, Freshness.observe]
  split
  · rename_i h
    rw [h, Bool.or_true]
  · rename_i h
    rw [Bool.eq_false_iff.mpr h, Bool.or_false]
    split
    · split
      · rfl
      · split <;> rfl
    · rfl

theorem reads_afterRead {s : Scene} (h : s.Ordered root) (path : CachePath) :
    s.Reads server owns root (s.afterRead path) where
  schema := rfl
  notices := rfl
  roots := rfl
  cache := Cache.upholds_read s.cache path
  missing hm := by rw [missing_afterRead, hm]; rfl
  ordered := ⟨h.plain, h.known⟩
  known := List.Subset.refl _
  selected := List.Subset.refl _

/-- An object that the server has, and the cache does not, is held open by a placeholder. -/
theorem reads_seed (hdistinct : ∀ id p q, owns id p → owns id q → p = q) {s : Scene}
    (h : s.Ordered root) (hage : s.cache.options.maxAge = none) {path : CachePath}
    (hp : server.holding path.position = .object) :
    s.Reads server owns root ((Walk.seed path (.object [])).run s).2 where
  schema := rfl
  notices := rfl
  roots := rfl
  cache := Cache.upholds_seed hdistinct s.cache s.now hage hp
  missing hm := hm
  ordered := ⟨h.plain, h.known⟩
  known := List.Subset.refl _
  selected := List.Subset.refl _

theorem Touches.misses {s t : Scene} (h : s.Touches root t) (path : CachePath) :
    t.misses path = s.misses path := by
  obtain ⟨f, c, rfl, _⟩ := h.same
  rfl

theorem Touches.missing {s t : Scene} (h : s.Touches root t) :
    t.context.freshness.missing = s.context.freshness.missing := by
  obtain ⟨f, c, rfl, hf, _⟩ := h.same
  rw [hf]

end Scene

/-- The accessor stands for the object of a type at a position of the query. -/
structure Accessor.At (a : Accessor) (type : String) (way : List String) : Prop where
  type : a.type = type
  operation : a.operation = .query
  real : a.isPlaceholder = false
  place : (a.path = none ∧ way = []) ∨
    ∃ path, a.path = some path ∧ path.root = .query ∧ path.position = Operation.query.text :: way
  leads : a.selection.Leads way

/-- The path of a field of an object. -/
def Accessor.below (a : Accessor) (name : String) : CachePath :=
  match a.path with
  | some path => path.child name
  | none => { root := a.operation, field := name }

theorem Accessor.At.below {a : Accessor} {type : String} {way : List String} (h : a.At type way)
    (name : String) : (a.below name).root = .query ∧
      (a.below name).position = Operation.query.text :: (way ++ [name]) := by
  rcases h.place with ⟨hpath, rfl⟩ | ⟨path, hpath, hroot, hposition⟩
  · rw [Accessor.below, hpath]
    exact ⟨h.operation, by rw [CachePath.position, h.operation]; rfl⟩
  · rw [Accessor.below, hpath]
    refine ⟨hroot, ?_⟩
    rw [← List.cons_append, ← hposition]
    rfl

theorem Selection.Forest.label_fieldChild (f : Selection.Forest) (x : Selection) (name : String) :
    (f.fieldChild x name).1.node.label = name := by
  simp only [fieldChild, child, childAlias]
  split
  · rename_i c hc
    obtain ⟨g, hg, rfl⟩ := Option.map_eq_some_iff.mp hc
    have hlabel := List.find?_some hg
    rw [Bool.and_eq_true] at hlabel
    exact eq_of_beq hlabel.2
  · rfl

/-- A field of a declared type is read at the path below, once its selection is there. -/
theorem Accessor.field_run {a : Accessor} {way : List String} {name : String} {s : Scene}
    (hs : s.Ordered root) (ha : a.selection ∈ s.forest.known root) (hway : a.selection.Leads way)
    (hn : s.schema.Named) {d : FieldDef} (hd : s.schema.requireField a.type name = .ok d) :
    ∃ x f, s.Touches root { s with forest := f } ∧ x ∈ f.known root ∧ x.Leads (way ++ [name]) ∧
      (a.field name).run s = (fun r => (.ok r.1, r.2))
        ((Walk.resolve x d.typeRef (a.below name) a.operation a.isPlaceholder).run
          { s with forest := f }) := by
  obtain ⟨htouch, hknown, hleads⟩ := Walk.touches_child hs ha hway (hn _ _ _ hd)
  refine ⟨(s.forest.fieldChild a.selection name).1, (s.forest.fieldChild a.selection name).2,
    htouch, hknown, hleads, ?_⟩
  have hchild : (a.child name []).run s =
      (.ok ((s.forest.fieldChild a.selection name).1, d.typeRef, a.below name),
        { s with forest := (s.forest.fieldChild a.selection name).2 }) := by
    have hbind : ∀ f : FieldDef → Attempt (Selection × TypeRef × CachePath),
        (Accessor.child.ofExcept (s.schema.requireField a.type name) >>= f).run s =
          (f d).run s := by
      intro f
      rw [hd]
      rfl
    have hpath : a.below name = match a.path with
        | some path => path.child (s.forest.fieldChild a.selection name).1.node.label
        | none =>
          { root := a.operation, field := (s.forest.fieldChild a.selection name).1.node.label } := by
      rw [Selection.Forest.label_fieldChild]
      rfl
    rw [hpath]
    exact (hbind _).trans rfl
  exact (Attempt.run_bind_ok hchild).trans rfl

/-- What is read at a path is right. -/
theorem Cache.holds_of_read (hdistinct : ∀ id p q, owns id p → owns id q → p = q) {c : Cache}
    (h : c.store.Faithful server owns) {path : CachePath} {v : Json}
    (hv : (c.read path).1.value = some v) : server.Holds owns path.position v := by
  rw [Cache.read] at hv
  split at hv
  · cases hv
  · exact h.valueAt? hdistinct hv

/-! ### One field -/

theorem Walk.resolve_run {x : Selection} {way : List String} {s : Scene} (hs : s.Ordered root)
    (hx : x ∈ s.forest.known root) (hway : x.Leads way) (hn : s.schema.Named) {type : TypeRef}
    (path : CachePath) (hl : type.isList = false) :
    ∃ t, s.Touches root t ∧ x ∈ t.context.selections ∧
      (Walk.resolve x type path .query false).run s =
      (match s.schema.kind type.name with
      | .scalar => Walk.resolveScalar path .query false
      | .object => Walk.resolveObject x type.name path .query false
      | .abstract => Walk.resolveUnion x type.name path .query false : Walk FieldValue).run t := by
  obtain ⟨ht, hmem⟩ := Walk.touches_register hs hn hx hway type
  refine ⟨_, ht, hmem, ?_⟩
  obtain ⟨f, c, he, _, _⟩ := ht.same
  have hschema : ((Walk.register x type).run s).2.schema = s.schema := by rw [he]
  rw [← hschema]
  simp only [Walk.resolve, hl]
  rfl

section Fields

variable {a : Accessor} {type name : String} {way : List String} {s : Scene} {d : FieldDef}
  (ha : a.At type way) (hs : s.Ordered root) (hknown : a.selection ∈ s.forest.known root)
  (hn : s.schema.Named) (hd : s.schema.requireField type name = .ok d)
  (hl : d.typeRef.isList = false)

include ha hs hknown hn hd hl

theorem Accessor.At.field_scalar (hk : s.schema.kind d.typeRef.name = .scalar) :
    ∃ x t, s.Touches root t ∧ x ∈ t.context.selections ∧ x.Leads (way ++ [name]) ∧
      (a.field name).run s =
        (.ok (.scalar ((t.cache.read (a.below name)).1.value.filter (!·.isNull))),
          t.afterRead (a.below name)) := by
  rw [← ha.type] at hd
  obtain ⟨x, f, htouch, hx, hway, hrun⟩ := Accessor.field_run hs hknown ha.leads hn hd
  obtain ⟨t, ht, hmem, hresolve⟩ :=
    Walk.resolve_run htouch.ordered hx hway hn (a.below name) hl
  refine ⟨x, t, htouch.trans ht, hmem, hway, ?_⟩
  rw [hrun, ha.operation, ha.real, hresolve]
  simp only [hk]
  rfl

theorem Accessor.At.field_object (hdistinct : ∀ id p q, owns id p → owns id q → p = q)
    (hf : s.cache.store.Faithful server owns) (hage : s.cache.options.maxAge = none)
    (hk : s.schema.kind d.typeRef.name = .object)
    (hp : server.holding (Operation.query.text :: (way ++ [name])) = .object) :
    ∃ o t, (a.field name).run s = (.ok (.object (some o)), t) ∧
      o.At d.typeRef.name (way ++ [name]) ∧ o.selection ∈ t.forest.known root ∧
      s.Reads server owns root t ∧
      t.context.freshness.missing = (s.context.freshness.missing || s.misses (a.below name)) := by
  rw [← ha.type] at hd
  obtain ⟨hroot, hposition⟩ := ha.below name
  obtain ⟨x, f, hgrown, hx, hway, hrun⟩ := Accessor.field_run hs hknown ha.leads hn hd
  obtain ⟨t, ht, _, hresolve⟩ := Walk.resolve_run hgrown.ordered hx hway hn (a.below name) hl
  have htouch : s.Touches root t := hgrown.trans ht
  have hstands : ∀ id, Accessor.At
      { id, selection := x, type := d.typeRef.name, operation := .query,
        path := some (a.below name), isPlaceholder := false } d.typeRef.name (way ++ [name]) :=
    fun id => ⟨rfl, rfl, rfl, .inr ⟨_, rfl, hroot, hposition⟩, hway⟩
  have hread : t.Reads server owns root (t.afterRead (a.below name)) :=
    Scene.reads_afterRead htouch.ordered _
  have hafter : s.Reads server owns root (t.afterRead (a.below name)) := htouch.reads.trans hread
  have hmissing : (t.afterRead (a.below name)).context.freshness.missing =
      (s.context.freshness.missing || s.misses (a.below name)) := by
    rw [t.missing_afterRead, htouch.missing, htouch.misses]
  simp only [hk] at hresolve
  rw [hrun, ha.operation, ha.real, hresolve]
  have hopen : (Walk.read (a.below name) .query).run t =
      ((t.cache.read (a.below name)).1.value, t.afterRead (a.below name)) := rfl
  rw [Walk.resolveObject, if_neg Bool.false_ne_true, Walk.run_bind, hopen]
  cases hv : (t.cache.read (a.below name)).1.value with
  | none =>
      have hseed := Scene.reads_seed hdistinct hafter.ordered (hafter.cache.options.symm ▸ hage)
        (hposition.symm ▸ hp : server.holding (a.below name).position = .object)
      obtain ⟨hquiet, id, hid⟩ := Walk.accessorFor_run hseed.ordered x d.typeRef.name .query
        (a.below name) (.object [])
      refine ⟨_, _, ?_, hstands id, hquiet.known (ht.known hx),
        hafter.trans (hseed.trans hquiet.reads), hquiet.missing.trans hmissing⟩
      rw [← hid]
      rfl
  | some v =>
      have hreads : s.Reads server owns root t := htouch.reads
      have hholds := Cache.holds_of_read hdistinct (hreads.cache.faithful hf) hv
      rw [hposition] at hholds
      obtain ⟨fs, rfl⟩ := hholds.exists_object hp
      obtain ⟨hquiet, id, hid⟩ := Walk.accessorFor_run hafter.ordered x d.typeRef.name .query
        (a.below name) (.object fs)
      refine ⟨_, _, ?_, hstands id, hquiet.known (ht.known hx), hafter.trans hquiet.reads,
        hquiet.missing.trans hmissing⟩
      rw [← hid]
      rfl

end Fields

/-! ### Covered ways -/

/-- Some value that is covered has something at the end of a way down. -/
def Cache.Store.CoversWay (s : Cache.Store) (p : List String) : Prop :=
  ∃ field rest w, p = Operation.query.text :: field :: rest ∧ s.CoversField field w ∧
    (w.walk? rest).isSome

theorem Scene.Reads.coversWay {s t : Scene} (h : s.Reads server owns root t)
    (hf : s.cache.store.Faithful server owns) {p : List String}
    (hp : s.cache.store.CoversWay p) : t.cache.store.CoversWay p := by
  obtain ⟨field, rest, w, he, hw, hway⟩ := hp
  exact ⟨field, rest, w, he, h.cache.covers hf field w hw, hway⟩

/-- Nothing is missing along a covered way. -/
theorem Scene.misses_eq_false {s : Scene} {path : CachePath} {more : List String}
    (hroot : path.root = .query) (h : s.cache.store.CoversWay (path.position ++ more)) :
    s.misses path = false := by
  obtain ⟨field, rest, w, he, hw, hway⟩ := h
  rw [CachePath.position, List.cons_append, List.cons_append] at he
  obtain ⟨rfl, rfl⟩ := List.cons.inj (List.cons.inj he).2
  obtain ⟨y, hy⟩ := Option.isSome_iff_exists.mp hway
  rw [Json.walk?_append] at hy
  obtain ⟨x, hx, _⟩ := Option.bind_eq_some_iff.mp hy
  obtain ⟨v, hv, _, _⟩ := Cache.Store.Covers.value hw
  obtain ⟨slot, hslot, hcovers⟩ := Cache.Store.Covers.slotFrom? hw hv hx
  obtain ⟨u, hu, hclear, hresolve⟩ := hcovers.value
  obtain ⟨data, hdata, hv⟩ := Option.bind_eq_some_iff.mp hv
  obtain ⟨c, hc, rfl⟩ := Option.map_eq_some_iff.mp hdata
  cases hv
  have hkey : Cache.keyOf path = { root := .query, field := path.field } := by
    rw [Cache.keyOf, hroot]
  have hfound : s.cache.store.slot? path = some slot := by
    rw [Cache.Store.slot?, hkey, hc]
    exact hslot
  rw [misses, Cache.read, hkey, hc]
  simp only [hfound, hu, Option.bind_some, Option.any_some]
  rw [Option.isNone_eq_false_iff.mpr hresolve, Bool.false_or]
  exact Bool.eq_false_iff.mpr fun hm => hclear (List.contains_iff_mem.mp hm)

/-! ### One trail -/

/-- The value that was read at a position is the leaf there if nothing was missing or the position
is covered, and else that leaf or null. Nothing is missing where the position is covered. -/
structure Scene.Gives (server : Server) (owns : String → List String → Prop) (root : Selection)
    (s t : Scene) (p : List String) (v : Json) : Prop where
  reads : s.Reads server owns root t
  told : v = server.leafAt p ∨ (v = .null ∧ ¬ s.cache.store.CoversWay p)
  right : t.context.freshness.missing = false → v = server.leafAt p
  found : s.cache.store.CoversWay p → t.context.freshness.missing = s.context.freshness.missing

theorem Scene.Gives.after {s t u : Scene} {p : List String} {v : Json}
    (hg : t.Gives server owns root u p v) (h : s.Reads server owns root t)
    (hf : s.cache.store.Faithful server owns)
    (hfound : s.cache.store.CoversWay p →
      t.context.freshness.missing = s.context.freshness.missing) :
    s.Gives server owns root u p v where
  reads := h.trans hg.reads
  told := hg.told.imp_right (And.imp_right fun hn hcovers => hn (h.coversWay hf hcovers))
  right := hg.right
  found hcovers := (hg.found (h.coversWay hf hcovers)).trans (hfound hcovers)

section

variable (hdistinct : ∀ id p q, owns id p → owns id q → p = q)

include hdistinct

/-- A scalar field is read. -/
theorem Accessor.At.readTrail_scalar {a : Accessor} {type name : String} {way : List String}
    (ha : a.At type way) {s : Scene} (hs : s.Ordered root)
    (hknown : a.selection ∈ s.forest.known root) (hn : s.schema.Named)
    (hserves : server.Serves s.schema type (Operation.query.text :: way) [name])
    (hf : s.cache.store.Faithful server owns) :
    ∃ v t, (a.readTrail [name]).run s = (.ok v, t) ∧
      (∃ x ∈ t.context.selections, x.Leads (way ++ [name])) ∧
      s.Gives server owns root t (Operation.query.text :: (way ++ [name])) v := by
  obtain ⟨d, l, hd, hl, hk, hp⟩ := hserves
  have hp : server.holding (Operation.query.text :: (way ++ [name])) = .leaf l := hp
  obtain ⟨hroot, hposition⟩ := ha.below name
  obtain ⟨x, t, ht, hx, hway, hrun⟩ := ha.field_scalar hs hknown hn hd hl hk
  have hreads : s.Reads server owns root t := ht.reads
  have hleaf : server.leafAt (Operation.query.text :: (way ++ [name])) = l.json := by
    rw [Server.leafAt, hp]
  have hread : ∀ v, (t.cache.read (a.below name)).1.value = some v →
      ((some v).filter (!·.isNull)).getD .null =
        server.leafAt (Operation.query.text :: (way ++ [name])) := by
    intro v hv
    have hholds := Cache.holds_of_read hdistinct (hreads.cache.faithful hf) hv
    rw [hposition] at hholds
    rw [hleaf, hholds.eq_leaf hp]
    cases l <;> rfl
  have hfound : s.cache.store.CoversWay (Operation.query.text :: (way ++ [name])) →
      t.misses (a.below name) = false := by
    intro hcovers
    rw [← hposition, ← List.append_nil (CachePath.position _)] at hcovers
    exact (ht.misses _).trans (Scene.misses_eq_false hroot hcovers)
  refine ⟨_, _, (Attempt.run_bind_ok hrun).trans rfl, ⟨x, hx, hway⟩,
    hreads.trans (Scene.reads_afterRead ht.ordered _), ?_, fun hm => ?_, fun hcovers => ?_⟩
  · cases hv : (t.cache.read (a.below name)).1.value with
    | none =>
        refine .inr ⟨rfl, fun hcovers => ?_⟩
        have hmisses := hfound hcovers
        rw [Scene.misses, hv] at hmisses
        cases hmisses
    | some v => exact .inl (hread v hv)
  · rw [t.missing_afterRead, Bool.or_eq_false_iff] at hm
    cases hv : (t.cache.read (a.below name)).1.value with
    | none =>
        rw [Scene.misses, hv] at hm
        cases hm.2
    | some v => exact hread v hv
  · rw [t.missing_afterRead, hfound hcovers, Bool.or_false, ht.missing]

/-- Reading a trail always gives a value. -/
theorem Accessor.readTrail_run {schema : Schema} (hn : schema.Named) {trail : List String}
    {a : Accessor} {type : String} {way : List String} (ha : a.At type way)
    (hserves : server.Serves schema type (Operation.query.text :: way) trail) {s : Scene}
    (hs : s.Ordered root) (hknown : a.selection ∈ s.forest.known root) (hschema : s.schema = schema)
    (hf : s.cache.store.Faithful server owns) (hage : s.cache.options.maxAge = none) :
    ∃ v t, (a.readTrail trail).run s = (.ok v, t) ∧
      (∃ x ∈ t.context.selections, x.Leads (way ++ trail)) ∧
      s.Gives server owns root t (Operation.query.text :: (way ++ trail)) v := by
  induction trail generalizing a type way s with
  | nil => exact hserves.elim
  | cons name rest ih =>
      subst hschema
      cases rest with
      | nil => exact ha.readTrail_scalar hdistinct hs hknown hn hserves hf
      | cons next rest =>
          obtain ⟨hroot, hposition⟩ := ha.below name
          obtain ⟨d, hd, hl, hk, hp, hserves⟩ := hserves
          obtain ⟨o, t, hrun, ho, hin, hreads, hmissing⟩ :=
            ha.field_object hs hknown hn hd hl hdistinct hf hage hk hp
          obtain ⟨v, u, hrest, hx, hgives⟩ := ih ho hserves hreads.ordered hin
            hreads.schema (hreads.cache.faithful hf) (hreads.cache.options.symm ▸ hage)
          rw [List.append_assoc, List.singleton_append] at hx hgives
          refine ⟨v, u, (Attempt.run_bind_ok hrun).trans hrest, hx, hgives.after hreads hf ?_⟩
          intro hcovers
          rw [List.append_cons, ← List.cons_append, ← hposition] at hcovers
          rw [hmissing, Scene.misses_eq_false hroot hcovers, Bool.or_false]

/-- Trails that are read one after the other: what is given, and what was touched. -/
theorem Accessor.readTrails_run {schema : Schema} (hn : schema.Named) {trails : List (List String)}
    (hserves : ∀ trail ∈ trails,
      server.Serves schema Operation.query.text [Operation.query.text] trail)
    {s : Scene} (hs : s.Ordered root) (hroot : s.context.roots.query = root)
    (hschema : s.schema = schema) (hf : s.cache.store.Faithful server owns)
    (hage : s.cache.options.maxAge = none) :
    ∃ vs t, (Accessor.readTrails trails).run s = (.ok vs, t) ∧ s.Reads server owns root t ∧
      (∀ trail ∈ trails, ∃ x ∈ t.context.selections, x.Leads trail) ∧
      List.Forall₂ (fun trail v => v = server.leafAt (Operation.query.text :: trail) ∨
        (v = .null ∧ ¬ s.cache.store.CoversWay (Operation.query.text :: trail))) trails vs ∧
      (t.context.freshness.missing = false →
        vs = trails.map fun trail => server.leafAt (Operation.query.text :: trail)) ∧
      ((∀ trail ∈ trails, s.cache.store.CoversWay (Operation.query.text :: trail)) →
        t.context.freshness.missing = s.context.freshness.missing) := by
  induction trails generalizing s with
  | nil =>
      exact ⟨[], s, rfl, .refl hs, fun _ h => absurd h List.not_mem_nil, .nil, fun _ => rfl,
        fun _ => rfl⟩
  | cons trail trails ih =>
      obtain ⟨a, t₀, hstart, htouch, hat, hin⟩ : ∃ a t₀,
          (liftM (Accessor.root .query) : Attempt Accessor).run s = (.ok a, t₀) ∧
            s.Touches root t₀ ∧ a.At Operation.query.text [] ∧ a.selection ∈ t₀.forest.known root := by
        subst hroot
        exact ⟨_, _, rfl, ⟨⟨_, _, rfl, rfl, rfl⟩, ⟨hs.plain, hs.known⟩, List.Subset.refl _,
          List.Subset.refl _⟩, ⟨rfl, rfl, rfl, .inl ⟨rfl, rfl⟩, hs.plain.rooted⟩,
          List.mem_cons_self⟩
      have hreads : s.Reads server owns root t₀ := htouch.reads
      obtain ⟨v, t, hrun, hx, hgives⟩ := Accessor.readTrail_run hdistinct hn hat
        (hserves trail List.mem_cons_self) hreads.ordered hin (hreads.schema.trans hschema)
        (hreads.cache.faithful hf) (hreads.cache.options.symm ▸ hage)
      have hgives := hgives.after hreads hf fun _ => htouch.missing
      have hthere := hgives.reads
      obtain ⟨vs, u, hrest, hreads', hxs, hvs, hright, hfound⟩ :=
        ih (fun trail h => hserves trail (List.mem_cons_of_mem _ h)) hthere.ordered
          (by rw [hthere.roots]; exact hroot) (hthere.schema.trans hschema)
          (hthere.cache.faithful hf) (hthere.cache.options.symm ▸ hage)
      have hvs := hvs.imp fun _ _ h =>
        h.imp_right (And.imp_right fun hn hcovers => hn (hthere.coversWay hf hcovers))
      refine ⟨v :: vs, u, ?_, hthere.trans hreads', List.forall_mem_cons.mpr ⟨?_, hxs⟩,
        .cons hgives.told hvs, fun hm => ?_, fun hcovers => ?_⟩
      · refine (Attempt.run_bind_ok hstart).trans ((Attempt.run_bind_ok hrun).trans ?_)
        exact (Attempt.run_bind_ok hrest).trans rfl
      · obtain ⟨x, hx, hway⟩ := hx
        exact ⟨x, hreads'.selected hx, hway⟩
      · have hbefore : t.context.freshness.missing = false := by
          cases hmt : t.context.freshness.missing with
          | false => rfl
          | true => exact (hreads'.missing hmt).symm.trans hm
        rw [List.map_cons, ← hright hm]
        exact congrArg (· :: vs) (hgives.right hbefore)
      · have hrest := fun trail h =>
          hthere.coversWay hf (hcovers trail (List.mem_cons_of_mem _ h))
        rw [hfound hrest, hgives.found (hcovers trail List.mem_cons_self)]

end

end LazyGraph
