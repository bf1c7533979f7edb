import LazyGraph.Proofs.Accessor.Footing

/-!
Tours: any reads and writes through accessors. An accessor keeps the path of its value as it is
handed down from read to read, and the keys above its selection tell a path afterwards. The two
agree, whatever was asked for before.
-/
namespace LazyGraph

open Selection (Node isGraphName)
open Selection.Forest (Gives)

/-! ### Reads and writes -/

theorem Attempt.grows_bind {α β : Type} {s : Scene} {m : Attempt α} {f : α → Attempt β}
    (h : s.Grows (m.run s).2)
    (hf : ∀ a t, s.Grows t → t.Grows ((f a).run t).2) : s.Grows ((m >>= f).run s).2 :=
  bind_induction (motive := s.Grows) h fun a t ht => ht.trans (hf a t ht)

namespace Accessor

variable {s : Scene} {a : Accessor}

/-- The child of an object is asked for where its path tells. -/
theorem tells_place (hs : s.Orderly) (ha : a.footing.Holds s) {request : Node} {y : Selection}
    {f g : Selection.Forest} {roots : List Selection} (gives : Gives f roots a.selection request y g)
    (place : request.isPlace = true) (name : isGraphName request.label = true) :
    (a.place y.node.label).Tells y := by
  rw [Accessor.place]
  split
  · rename_i path hpath
    exact (ha.path path hpath).field gives place name
  · rename_i hpath
    have hroot : a.selection = s.context.roots.get a.operation := ha.root hpath
    refine CachePath.tells_top ?_ gives place name
    rw [hroot, hs.cacheKeys_root]

theorem gets_field (hs : s.Orderly) (ha : a.footing.Holds s) (name : String)
    (arguments : Fields Json) :
    s.Gets ((a.field name arguments).run s).1.toOption.toList ((a.field name arguments).run s).2 := by
  rw [a.field_eq]
  rcases a.child_cases name arguments s with ⟨e, hrun⟩ | ⟨d, typed, hd, _, hrun⟩
  · rw [hrun]
    exact (Scene.Grows.refl hs).gets
  · rw [hrun]
    have hname := hs.names.field hd
    have hgives := hs.forest.field ha.mem ha.plain hname typed
    have hchild := Walk.grows_child hs hgives
    have hplace : (a.selection.request (.field name) typed false).isPlace = true :=
      Node.isPlace_field hname rfl rfl
    have htells := tells_place hs ha hgives hplace
      (Selection.isGraphName_label_request a.selection hname typed false)
    refine hchild.before (Walk.gets_resolve hchild.orderly hgives.mem ?_ ?_ htells _ _ _)
    · rw [hgives.isMarker]
      exact Node.isMarker_field hname rfl
    · rw [hgives.above]
      exact List.cons_ne_nil _ _

theorem grows_child (hs : s.Orderly) (ha : a.footing.Holds s) (name : String)
    (arguments : Fields Json) : s.Grows ((a.child name arguments).run s).2 := by
  rcases a.child_cases name arguments s with ⟨e, hrun⟩ | ⟨d, typed, hd, _, hrun⟩
  · rw [hrun]
    exact .refl hs
  · rw [hrun]
    exact Walk.grows_child hs (hs.forest.field ha.mem ha.plain (hs.names.field hd) typed)

theorem grows_set (hs : s.Orderly) (ha : a.footing.Holds s) (name : String)
    (arguments : Fields Json) (value : Json) : s.Grows ((a.set name arguments value).run s).2 := by
  rw [set]
  refine Attempt.grows_bind (grows_child hs ha name arguments) fun r t ht => ?_
  have hlast : ∀ (written : Bool) (u : Scene), t.Grows u → u.Grows
      ((if written = true then liftM (Walk.inContext fun c => (c.forget r.1.id r.2.2).tell r.1)
        else throw (.malformedPath r.2.2.text .noParent) : Attempt Unit).run u).2 := by
    intro written u hu
    split
    · exact Scene.SameTrees.grows ⟨rfl, rfl, rfl⟩ hu.orderly
    · exact .refl hu.orderly
  dsimp only
  split
  · exact Attempt.grows_bind (.refl ht.orderly) hlast
  · exact Attempt.grows_bind (Scene.SameTrees.grows ⟨rfl, rfl, rfl⟩ ht.orderly) hlast

end Accessor

namespace ListAccessor

variable {s : Scene} {l : ListAccessor}

theorem gets_get (hs : s.Orderly) (hl : l.footing.Holds s) (position : Nat) :
    s.Gets ((l.get position).run s).1.toList ((l.get position).run s).2 := by
  have hquiet := l.quiet_cachedLength s
  have hcounted := hquiet.grows hs
  have hl' := hl.later hcounted
  rw [get, Walk.run_bind]
  split
  · exact hcounted.gets
  · have hgives := hcounted.orderly.forest.item hl'.mem hl'.plain position
    have hitem := Walk.grows_child hcounted.orderly hgives
    have htells := ((hl.path l.path rfl).item position).pass hgives rfl
    refine (hcounted.trans hitem).before ?_
    refine Walk.gets_resolve hitem.orderly hgives.mem hgives.isMarker ?_ htells _ _ _
    rw [hgives.above]
    exact List.cons_ne_nil _ _

theorem grows_length (hs : s.Orderly) (hl : l.footing.Holds s) : s.Grows (l.length.run s).2 := by
  have htouch := Walk.grows_touchItem hs l hl.mem hl.plain 0
  exact htouch.trans ((l.quiet_cachedLength _).grows htouch.orderly)

theorem gets_items (hs : s.Orderly) (hl : l.footing.Holds s) (positions : List Nat) :
    s.Gets (((positions.mapM l.get).run s).1.filterMap id) ((positions.mapM l.get).run s).2 := by
  induction positions generalizing s with
  | nil => exact (Scene.Grows.refl hs).gets
  | cons position positions ih =>
      have hfirst := gets_get hs hl position
      have hrest := hfirst.trans (ih hfirst.grows.orderly (hl.later hfirst.grows))
      rw [List.mapM_cons, Walk.run_bind, Walk.run_bind]
      cases hvalue : ((l.get position).run s).1 with
      | none =>
          rw [hvalue] at hrest
          exact hrest
      | some v =>
          rw [hvalue] at hrest
          exact hrest

theorem grows_set (hs : s.Orderly) (hl : l.footing.Holds s) (position : Nat) (value : Json) :
    s.Grows ((l.set position value).run s).2 := by
  rw [set]
  refine Attempt.grows_bind ((l.quiet_cachedLength s).grows hs) fun length t ht => ?_
  have hlast : ∀ (written : Bool) (u : Scene), t.Grows u → u.Grows
      ((if written = true then do
          let item ← Walk.child l.selection (.index position)
          Walk.inContext fun c => (c.forget item.id (l.path.child (toString position))).tell item
        else throw (.invalidArrayAssignment position length) : Attempt Unit).run u).2 := by
    intro written u hu
    split
    · have hl := (hl.later ht).later hu
      have hitem := Walk.grows_child hu.orderly (hu.orderly.forest.item hl.mem hl.plain position)
      exact Attempt.grows_bind hitem fun item w hw =>
        Scene.SameTrees.grows ⟨rfl, rfl, rfl⟩ hw.orderly
    · exact .refl hu.orderly
  dsimp only
  split
  · exact Attempt.grows_bind (.refl ht.orderly) hlast
  · exact Attempt.grows_bind (Scene.SameTrees.grows ⟨rfl, rfl, rfl⟩ ht.orderly) hlast

end ListAccessor

namespace UnionAccessor

variable {s : Scene} {u : UnionAccessor}

theorem standsAt_opened (u : UnionAccessor) (branch : Selection) (type : String) (s : Scene) :
    FieldValue.StandsAt (.object (some ((u.opened branch type).run s).1)) branch u.operation
      u.path := by
  rw [opened]
  split
  · exact .some rfl
  · exact Walk.standsAt_accessorFor _ branch u.path u.operation type _

theorem gets_enter (hs : s.Orderly) (hu : u.footing.Holds s) {possible : String}
    (hpossible : possible ∈ s.schema.possibleTypesOf u.type) :
    s.Gets [.object (some ((u.enter possible).run s).1)] ((u.enter possible).run s).2 := by
  have hname := hs.members.possible hpossible
  have hchoice := hs.forest.choice hu.mem hu.plain
  have hmarked := Walk.grows_child hs hchoice
  have hbranch := hmarked.orderly.forest.branch hchoice.mem hchoice.isMarker hname
  have hbranched := Walk.grows_child hmarked.orderly hbranch
  have hplain := hbranch.isMarker.trans (Node.isMarker_field hname rfl)
  have hidentity := Walk.grows_selectIdentity hbranched.orderly hbranch.mem hplain possible
  have htouch : s.Grows ((u.touch possible).run s).2 := hmarked.trans (hbranched.trans hidentity)
  have htells := ((hu.path u.path rfl).pass hchoice rfl).pass hbranch
    (Node.isPlace_of_isBranch rfl)
  have hopened := (u.quiet_opened ((u.touch possible).run s).1 possible
    ((u.touch possible).run s).2).1.grows htouch.orderly
  rw [u.enter_eq]
  refine ⟨htouch.trans hopened, List.forall_mem_singleton.mpr fun a ha => ?_⟩
  obtain rfl := u.standsAt_opened _ possible _ a ha
  refine ⟨hopened.mono (hidentity.mono hbranch.mem), hplain, nofun, fun p hp => ?_⟩
  obtain rfl := Option.some.inj hp
  exact htells

theorem gets_on (hs : s.Orderly) (hu : u.footing.Holds s) (type : String) :
    s.Gets (((u.on type).run s).1.toOption.join.toList.map fun a => .object (some a))
      ((u.on type).run s).2 := by
  have htyped := (u.quiet_typename s).grows hs
  rw [u.on_eq]
  cases hpossible : (s.schema.possibleTypesOf u.type).contains type with
  | false =>
      rw [if_neg Bool.false_ne_true]
      exact (Scene.Grows.refl hs).gets
  | true =>
      rw [if_pos rfl]
      have hmem : type ∈ (u.typename.run s).2.schema.possibleTypesOf u.type := by
        rw [htyped.schema]
        exact List.contains_iff_mem.mp hpossible
      by_cases hother : (u.typename.run s).1.any (· ≠ type) = true
      · simp only [hother, if_true]
        exact htyped.gets
      · simp only [hother]
        exact htyped.before (gets_enter htyped.orderly (hu.later htyped) hmem)

end UnionAccessor

namespace Look

variable {s : Scene} {log : List Sight}

/-- Whatever a read gives stands where its path tells. -/
theorem gets (hs : s.Orderly) (look : Look) (obtained : look.From log)
    (hlog : ∀ v ∈ log.map (·.value), ∀ a, v.footing? = some a → a.Holds s) :
    s.Gets ((look.run.run s).1.toOption.getD []) (look.run.run s).2 := by
  cases look with
  | root operation =>
      refine ⟨Scene.SameTrees.grows ⟨rfl, rfl, rfl⟩ hs, List.forall_mem_singleton.mpr ?_⟩
      intro a ha
      obtain rfl := Option.some.inj ha
      have hmem : s.context.roots.get operation ∈ s.context.roots.all :=
        Roots.mem_all.mpr ⟨operation, rfl⟩
      refine ⟨List.mem_append_left _ hmem, ?_, fun _ => rfl, nofun⟩
      obtain ⟨hkey, hname⟩ := hs.key_root operation
      exact Node.isMarker_field hname hkey
  | field a name arguments =>
      have hget := Accessor.gets_field hs (hlog _ obtained _ rfl) name arguments
      rw [Look.run, Attempt.run_map]
      cases hrun : (a.field name arguments).run s with
      | mk r t =>
          rw [hrun] at hget
          cases r <;> exact hget
  | length l => exact (ListAccessor.grows_length hs (hlog _ obtained _ rfl)).gets
  | item l position => exact ListAccessor.gets_get hs (hlog _ obtained _ rfl) position
  | byKey l key =>
      have hkey : (Look.byKey l key).run.run s =
          (.ok ((l.byKey key).run s).1.toList, ((l.byKey key).run s).2) := rfl
      rw [hkey, ListAccessor.byKey]
      cases Text.index? key with
      | some position => exact ListAccessor.gets_get hs (hlog _ obtained _ rfl) position
      | none => exact (Scene.Grows.refl hs).gets
  | items l =>
      have hl := hlog _ obtained _ rfl
      have hlength := ListAccessor.grows_length hs hl
      exact hlength.before (ListAccessor.gets_items hlength.orderly (hl.later hlength) _)
  | typename u => exact ((u.quiet_typename s).grows hs).gets
  | branch u type =>
      have hget := UnionAccessor.gets_on hs (hlog _ obtained _ rfl) type
      rw [Look.run, Attempt.run_map]
      cases hrun : (u.on type).run s with
      | mk r t =>
          rw [hrun] at hget
          cases r with
          | error e => exact hget
          | ok entered => cases entered <;> exact hget

end Look

/-! ### Tours -/

/-- Reads and writes through accessors that reads gave, from the roots on, with what the reads saw.
In between anything may happen that leaves the schema and the trees as they are. -/
inductive Tour (start : Scene) : Scene → List Sight → Prop
  | start : Tour start start []
  | meanwhile {s t : Scene} {log : List Sight} (tour : Tour start s log) (same : s.SameTrees t) :
    Tour start t log
  | look {s : Scene} {log : List Sight} (tour : Tour start s log) (look : Look)
    (obtained : look.From log) : Tour start (look.run.run s).2 (log ++ look.sights s)
  | write {s : Scene} {log : List Sight} (tour : Tour start s log) (a : Accessor) (name : String)
    (arguments : Fields Json) (value : Json) (obtained : .object (some a) ∈ log.map (·.value)) :
    Tour start ((a.set name arguments value).run s).2 log
  | writeItem {s : Scene} {log : List Sight} (tour : Tour start s log) (l : ListAccessor)
    (position : Nat) (value : Json) (obtained : .list (some l) ∈ log.map (·.value)) :
    Tour start ((l.set position value).run s).2 log

/-- The trees grew, and what was seen stands on them. -/
structure Followed (start s : Scene) (log : List Sight) : Prop where
  grows : start.Grows s
  holds : ∀ v ∈ log.map (·.value), ∀ a, v.footing? = some a → a.Holds s

namespace Followed

variable {start s t : Scene} {log : List Sight}

theorem later (h : Followed start s log) (later : s.Grows t) : Followed start t log :=
  ⟨h.grows.trans later, fun v hv a ha => (h.holds v hv a ha).later later⟩

theorem look (h : Followed start s log) (look : Look) (obtained : look.From log) :
    Followed start (look.run.run s).2 (log ++ look.sights s) := by
  have hgets := look.gets h.grows.orderly obtained h.holds
  refine ⟨h.grows.trans hgets.grows, ?_⟩
  rw [List.map_append, look.values_sights s]
  refine List.forall_mem_append.mpr ⟨fun v hv a ha => ?_, hgets.holds⟩
  exact (h.holds v hv a ha).later hgets.grows

end Followed

theorem Tour.followed {start s : Scene} {log : List Sight} (hs : start.Orderly)
    (tour : Tour start s log) : Followed start s log := by
  induction tour with
  | start => exact ⟨.refl hs, fun _ hv => absurd hv List.not_mem_nil⟩
  | meanwhile _ same ih => exact ih.later (same.grows ih.grows.orderly)
  | look _ look obtained ih => exact ih.look look obtained
  | write _ a name arguments value obtained ih =>
      exact ih.later (a.grows_set ih.grows.orderly (ih.holds _ obtained _ rfl) name arguments value)
  | writeItem _ l position value obtained ih =>
      exact ih.later (l.grows_set ih.grows.orderly (ih.holds _ obtained _ rfl) position value)

/-- Whatever else is read and written, above the selection of each accessor stand the keys of its
path, but for the positions of items. Only the roots of operations have no path. -/
theorem Tour.ofKeys_cacheKeys {start s : Scene} {log : List Sight}
    (planted : ∃ aliasLength, Roots.plant {} aliasLength = (start.context.roots, start.forest))
    (names : start.schema.HasGraphNames) (members : start.schema.HasGraphMembers)
    (tour : Tour start s log) {v : Sight} (hv : v ∈ log) {a : Footing}
    (ha : v.value.footing? = some a) :
    (a.path = none ∧ a.selection = start.context.roots.get a.operation) ∨
      ∃ p, a.path = some p ∧ CachePath.ofKeys a.selection.cacheKeys = .ok p.withoutPositions := by
  obtain ⟨aliasLength, hplant⟩ := planted
  obtain ⟨hroots, hforest⟩ := Prod.mk.inj hplant
  have hs : start.Orderly := by
    refine ⟨names, members, ⟨aliasLength, hroots.symm⟩, ?_⟩
    rw [← hforest, ← hroots]
    exact .plant aliasLength
  have h := tour.followed hs
  have hholds := h.holds v.value (List.mem_map_of_mem hv) a ha
  cases hpath : a.path with
  | none => exact .inl ⟨rfl, h.grows.roots ▸ hholds.root hpath⟩
  | some p => exact .inr ⟨p, rfl, (hholds.path p hpath).ofKeys⟩

/-! ### A feed with an argument -/

namespace Feed

def schema : Schema :=
  { types := [("Post", [("author", { type := "User" })]), ("User", [("name", { type := "String" })]),
      ("query", [("entries", { type := "[Entry]", arguments := [("first", "Int")] })])]
    possibleTypes := [("Entry", ["Post"])] }

def start : Scene :=
  let (roots, forest) := Roots.plant {} Selection.defaultAliasLength
  { schema, identityFields := [], now := 0, forest, cache := .new {}, context := { roots } }

/-- What is seen first, if the test gives something of it. -/
def first {α : Type} [Inhabited α] (test : FieldValue → Option α) (seen : List Sight) : α :=
  (seen.findSome? (test ·.value)).getD default

theorem mem_first {α : Type} [Inhabited α] {test : FieldValue → Option α} {value : α → FieldValue}
    (tells : ∀ v a, test v = some a → v = value a) (past seen : List Sight)
    (h : (seen.findSome? (test ·.value)).isSome = true) :
    value (first test seen) ∈ (past ++ seen).map (·.value) := by
  obtain ⟨a, ha⟩ := Option.isSome_iff_exists.mp h
  obtain ⟨v, hv, htest⟩ := List.exists_of_findSome?_eq_some ha
  rw [first, ha, Option.getD_some, ← tells v.value a htest]
  exact List.mem_map_of_mem (List.mem_append_right _ hv)

theorem list_of_list? (v : FieldValue) (l : ListAccessor) (h : v.list? = some l) :
    v = .list (some l) := by
  cases v <;> cases h
  rfl

theorem union_of_union? (v : FieldValue) (u : UnionAccessor) (h : v.union? = some u) :
    v = .union (some u) := by
  cases v <;> cases h
  rfl

theorem object_of_object? (v : FieldValue) (a : Accessor) (h : v.object? = some a) :
    v = .object (some a) := by
  cases v <;> cases h
  rfl

def reader : Accessor := ((Accessor.root .query).run start).1

def opened : Scene := start.afterLooks [.root .query]

def ask : Look := .field reader "entries" [("first", .int 1)]

def entries : ListAccessor := first FieldValue.list? (ask.sights opened)

def listed : Scene := opened.afterLooks [ask]

def entry : UnionAccessor := first FieldValue.union? ((Look.item entries 0).sights listed)

def found : Scene := listed.afterLooks [.item entries 0]

def post : Accessor := first FieldValue.object? ((Look.branch entry "Post").sights found)

def entered : Scene := found.afterLooks [.branch entry "Post"]

def author : Accessor := first FieldValue.object? ((Look.field post "author" []).sights entered)

def log : List Sight :=
  (Look.root .query).sights start ++ ask.sights opened ++ (Look.item entries 0).sights listed ++
    (Look.branch entry "Post").sights found ++ (Look.field post "author" []).sights entered

/-- The entries are asked for, and the first one as a post with its author. -/
theorem tour : Tour start (entered.afterLooks [.field post "author" []]) log := by
  have hroot : Tour start opened ((Look.root .query).sights start) :=
    .look .start (.root .query) trivial
  have hask := hroot.look ask (List.mem_singleton.mpr rfl)
  have hentries := mem_first list_of_list? ((Look.root .query).sights start) (ask.sights opened)
    (by decide +kernel)
  have hitem := hask.look (.item entries 0) hentries
  have hentry := mem_first union_of_union? ((Look.root .query).sights start ++ ask.sights opened)
    ((Look.item entries 0).sights listed) (by decide +kernel)
  have hbranch := hitem.look (.branch entry "Post") hentry
  have hpost := mem_first object_of_object? ((Look.root .query).sights start ++ ask.sights opened ++
    (Look.item entries 0).sights listed) ((Look.branch entry "Post").sights found)
    (by decide +kernel)
  exact hbranch.look (.field post "author" []) hpost

theorem ofKeys_cacheKeys_author :
    ((∃ aliasLength, Roots.plant {} aliasLength = (start.context.roots, start.forest)) ∧
      start.schema.HasGraphNames ∧ start.schema.HasGraphMembers ∧
      Tour start (entered.afterLooks [.field post "author" []]) log) ∧
    ∃ p, author.path = some p ∧ p.rest = ["0", "author"] ∧
      CachePath.ofKeys author.selection.cacheKeys = .ok { p with rest := ["author"] } := by
  have hplanted : ∃ aliasLength, Roots.plant {} aliasLength = (start.context.roots, start.forest) :=
    ⟨Selection.defaultAliasLength, rfl⟩
  have hnames : ∀ q ∈ schema.types, ∀ r ∈ q.2, isGraphName r.1 = true := by decide
  have hmembers : ∀ q ∈ schema.possibleTypes, ∀ type ∈ q.2, isGraphName type = true := by decide
  have hauthor := mem_first object_of_object? ((Look.root .query).sights start ++
    ask.sights opened ++ (Look.item entries 0).sights listed ++
      (Look.branch entry "Post").sights found) ((Look.field post "author" []).sights entered)
    (by decide +kernel)
  obtain ⟨v, hv, hvalue⟩ := List.mem_map.mp hauthor
  have hfooting : v.value.footing? = some author.footing := by
    rw [hvalue]
    rfl
  refine ⟨⟨hplanted, hnames, hmembers, tour⟩, ?_⟩
  have hrest : author.path.map (·.rest) = some ["0", "author"] := by decide +kernel
  rcases tour.ofKeys_cacheKeys hplanted hnames hmembers hv hfooting with ⟨hnone, _⟩ | ⟨p, hsome, hkeys⟩
  · have hpath : author.path = none := hnone
    rw [hpath] at hrest
    cases hrest
  · have hpath : author.path = some p := hsome
    rw [hpath] at hrest
    have hrest : p.rest = ["0", "author"] := Option.some.inj hrest
    refine ⟨p, hpath, hrest, ?_⟩
    have hwithout : p.withoutPositions = { p with rest := ["author"] } := by
      rw [CachePath.withoutPositions, hrest]
      rfl
    exact hwithout ▸ hkeys

end Feed

end LazyGraph
