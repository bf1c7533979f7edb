import LazyGraph.Proofs.Accessor.Selecting

/-!
Passes: the reads between two resets, through accessors that they gave. Whatever a pass selects
lies below values that it opened, and of each value that it opened the identity is selected.
-/
namespace LazyGraph

open Selection (Node)

/-! ### Sights of reads -/

/-- What is seen of an item. -/
def ListAccessor.sight (l : ListAccessor) (position : Nat) (s : Scene) : List Sight :=
  ((l.get position).run s).1.toList.map fun v =>
    ⟨((Walk.child l.selection (.index position)).run s).1, l.itemType, v⟩

/-- What is seen of items, one after the other. -/
def ListAccessor.sights (l : ListAccessor) : List Nat → Scene → List Sight
  | [], _ => []
  | position :: rest, s => l.sight position s ++ l.sights rest ((l.get position).run s).2

/-- What is seen of a field. -/
def Accessor.sight (a : Accessor) (name : String) (arguments : Fields Json) (s : Scene) :
    List Sight :=
  match (a.child name arguments).run s with
  | (.ok (x, type, path), t) =>
    [⟨x, type, ((Walk.resolve x type path a.operation a.isPlaceholder).run t).1⟩]
  | (.error _, _) => []

namespace Look

/-- What a read sees. A root and a branch are seen as objects. -/
def sights : Look → Scene → List Sight
  | .root operation, s =>
    let a := ((Accessor.root operation).run s).1
    [⟨a.selection, .named operation.text, .object (some a)⟩]
  | .field a name arguments, s => a.sight name arguments s
  | .length _, _ => []
  | .item l position, s => l.sight position s
  | .byKey l key, s =>
    match Text.index? key with
    | some position => l.sight position s
    | none => []
  | .items l, s => l.sights (List.range (l.length.run s).1) (l.length.run s).2
  | .typename _, _ => []
  | .branch u type, s =>
    match (u.on type).run s with
    | (.ok (some a), _) => [⟨a.selection, .named type, .object (some a)⟩]
    | _ => []

/-- The read goes through an accessor that was seen. -/
def From (log : List Sight) : Look → Prop
  | .root _ => True
  | .field a _ _ => .object (some a) ∈ log.map (·.value)
  | .length l => .list (some l) ∈ log.map (·.value)
  | .item l _ => .list (some l) ∈ log.map (·.value)
  | .byKey l _ => .list (some l) ∈ log.map (·.value)
  | .items l => .list (some l) ∈ log.map (·.value)
  | .typename u => .union (some u) ∈ log.map (·.value)
  | .branch u _ => .union (some u) ∈ log.map (·.value)

end Look

/-- Nothing was handed out yet but the roots. -/
structure Scene.Fresh (s : Scene) : Prop where
  planted : ∃ aliasLength, Roots.plant {} aliasLength = (s.context.roots, s.forest)
  untouched : s.context.selections = []

/-- The reads since a reset, with what they saw. Between reads the cache may change in any way. -/
inductive Pass (start : Scene) : Scene → List Sight → Prop
  | start : Pass start start []
  | reset {s : Scene} {log : List Sight} (pass : Pass start s log) :
    Pass start { s with context := s.context.reset } []
  | meanwhile {s : Scene} {log : List Sight} (pass : Pass start s log) (cache : Cache) (now : Nat) :
    Pass start { s with cache, now } log
  | look {s : Scene} {log : List Sight} (pass : Pass start s log) (look : Look)
    (obtained : look.From log) : Pass start (look.run.run s).2 (log ++ look.sights s)

/-! ### The values of sights -/

namespace Attempt

variable {α β : Type}

theorem run_map (m : Attempt α) (f : α → β) (s : Scene) :
    (m >>= fun v => pure (f v)).run s = ((m.run s).1.map f, (m.run s).2) := by
  cases hm : m.run s with
  | mk r t =>
      cases r with
      | ok v => exact run_bind_ok hm
      | error e => exact run_bind_error hm

end Attempt

/-- The arguments of a selection are declared, with the types that they get. -/
theorem Accessor.declares_typed {field : String} {d : FieldDef} {values : Fields Json}
    {arguments : Fields Selection.Argument}
    (h : typedArguments field d values = .ok arguments) : d.Declares arguments := by
  intro a ha
  obtain ⟨q, _, hq⟩ := (Document.mem_iff_of_mapM_ok h).mp ha
  cases htype : Fields.get? d.arguments q.1 with
  | none =>
      simp only [htype] at hq
      cases hq
  | some type =>
      simp only [htype] at hq
      obtain rfl := Except.ok.inj hq
      exact htype

theorem Accessor.values_sight (a : Accessor) (name : String) (arguments : Fields Json) (s : Scene) :
    (a.sight name arguments s).map (·.value) =
      (((a.field name arguments).run s).1.toOption.map ([·])).getD [] := by
  rw [field_eq, sight]
  cases (a.child name arguments).run s with
  | mk r t => cases r <;> rfl

theorem ListAccessor.values_sight (l : ListAccessor) (position : Nat) (s : Scene) :
    (l.sight position s).map (·.value) = ((l.get position).run s).1.toList := by
  rw [sight, List.map_map]
  exact List.map_id _

theorem ListAccessor.values_sights (l : ListAccessor) (positions : List Nat) (s : Scene) :
    (l.sights positions s).map (·.value) = ((positions.mapM l.get).run s).1.filterMap id := by
  induction positions generalizing s with
  | nil => rfl
  | cons position positions ih =>
      rw [List.mapM_cons, Walk.run_bind, Walk.run_bind, sights, List.map_append, values_sight, ih]
      cases ((l.get position).run s).1 <;> rfl

/-- The values of what a read sees are those that it gives. -/
theorem Look.values_sights (look : Look) (s : Scene) :
    (look.sights s).map (·.value) = (look.run.run s).1.toOption.getD [] := by
  cases look with
  | root operation => rfl
  | field a name arguments =>
      rw [sights, Look.run, Attempt.run_map, a.values_sight]
      cases ((a.field name arguments).run s).1 <;> rfl
  | length l => rfl
  | item l position => exact l.values_sight position s
  | byKey l key =>
      have hkey : ((Look.byKey l key).run.run s).1 = .ok ((l.byKey key).run s).1.toList := rfl
      rw [sights, hkey, ListAccessor.byKey]
      cases Text.index? key with
      | some position => exact l.values_sight position s
      | none => rfl
  | items l => exact l.values_sights _ _
  | typename u => rfl
  | branch u type =>
      rw [sights, Look.run, Attempt.run_map]
      cases (u.on type).run s with
      | mk r t =>
          cases r with
          | error e => rfl
          | ok a => cases a <;> rfl

/-! ### What a pass leaves -/

/-- All proper ways up from the end lead to values that were opened. -/
def Unfolded (log : List Sight) (trunk : List Node) : Prop :=
  ∀ before n after, trunk = before ++ n :: after → before ≠ [] →
    ∃ v ∈ log, v.Opens ∧ v.selection.trunk = before

/-- The sight is one of a field or of an item. -/
def Sight.IsRead (v : Sight) : Prop := v.selection.above ≠ [] ∧ v.selection.node.isBranch = false

/-- What is selected lies below opened values, and their identity is selected. -/
structure Recorded (start s : Scene) (log : List Sight) : Prop where
  schema : s.schema = start.schema
  identityFields : s.identityFields = start.identityFields
  tended : s.Tended
  planted : ∃ aliasLength, s.context.roots = (Roots.plant {} aliasLength).1
  seen : ∀ v ∈ log, s.Knows v.selection v.type ∧ v.Fits
  below : ∀ v ∈ log, Unfolded log v.selection.trunk
  selected : ∀ x ∈ s.context.selections, Unfolded log x.trunk
  wants : ∀ v ∈ log, v.Opens → v.IsRead →
    ∀ name ∈ s.schema.identity s.identityFields v.type.name, s.Wants v.selection.trunk name

variable {start s t : Scene} {log more : List Sight} {trunk : List Node} {near : Selection → Prop}

theorem Unfolded.mono (h : Unfolded log trunk) (hsub : log ⊆ more) : Unfolded more trunk := by
  intro before n after he hne
  obtain ⟨v, hv, hopens⟩ := h before n after he hne
  exact ⟨v, hsub hv, hopens⟩

/-- Below the end of a way it takes an open value. -/
theorem Unfolded.concat (h : Unfolded log trunk)
    (hopen : ∃ v ∈ log, v.Opens ∧ v.selection.trunk = trunk) (n : Node) :
    Unfolded log (trunk ++ [n]) := by
  intro before m after he hne
  rcases List.eq_nil_or_concat after with rfl | ⟨rest, last, rfl⟩
  · obtain ⟨rfl, _⟩ := List.append_inj' he rfl
    exact hopen
  · have hsplit : trunk ++ [n] = (before ++ m :: rest) ++ [last] := by
      rw [he, List.append_assoc, List.cons_append, List.concat_eq_append]
    exact h before m rest (List.append_inj' hsplit rfl).1 hne

theorem Unfolded.reach (h : Unfolded log trunk) {isOpen : Prop}
    (hopen : isOpen → ∃ v ∈ log, v.Opens ∧ v.selection.trunk = trunk) {x : Selection}
    (hx : Reach trunk isOpen x) : Unfolded log x.trunk := by
  rcases hx with hx | ⟨hisOpen, n, hx⟩
  · rwa [hx]
  · rw [hx]
    exact h.concat (hopen hisOpen) n

namespace Recorded

theorem fresh (hs : s.Fresh) (proper : s.schema.Proper s.aliasLength) : Recorded s s [] := by
  obtain ⟨aliasLength, hplanted⟩ := hs.planted
  have hroots : s.context.roots = (Roots.plant {} aliasLength).1 := by rw [hplanted]
  have hforest : s.forest = (Roots.plant {} aliasLength).2 := by rw [hplanted]
  have hlength : s.aliasLength = aliasLength := by
    rw [Scene.aliasLength, hroots]
    rfl
  refine ⟨rfl, rfl, ⟨proper, ?_, ?_⟩, ⟨aliasLength, hroots⟩, ?_, ?_, ?_, ?_⟩
  · rw [hroots, hforest, hlength]
    exact Selection.Forest.Typed.plant s.schema aliasLength
  · rw [hs.untouched]
    exact List.nil_subset _
  · exact fun _ h => absurd h List.not_mem_nil
  · exact fun _ h => absurd h List.not_mem_nil
  · rw [hs.untouched]
    exact fun _ h => absurd h List.not_mem_nil
  · exact fun _ h => absurd h List.not_mem_nil

theorem reset (h : Recorded start s log) : Recorded start { s with context := s.context.reset } [] where
  schema := h.schema
  identityFields := h.identityFields
  tended := ⟨h.tended.proper, h.tended.forest, List.nil_subset _⟩
  planted := h.planted
  seen _ hv := absurd hv List.not_mem_nil
  below _ hv := absurd hv List.not_mem_nil
  selected _ hx := absurd hx List.not_mem_nil
  wants _ hv := absurd hv List.not_mem_nil

/-- Below what was opened anything may be selected. -/
theorem touch (h : Recorded start s log) (touches : s.Selects near t)
    (hnear : ∀ x, near x → Unfolded log x.trunk) : Recorded start t log where
  schema := touches.schema.trans h.schema
  identityFields := touches.identityFields.trans h.identityFields
  tended := touches.tended
  planted := touches.roots ▸ h.planted
  seen v hv := ⟨(h.seen v hv).1.later touches, (h.seen v hv).2⟩
  below := h.below
  selected x hx := (touches.fresh x hx).elim (h.selected x) (hnear x)
  wants v hv hopens hread name hname := by
    rw [touches.schema, touches.identityFields] at hname
    exact (h.wants v hv hopens hread name hname).later touches

theorem quiet (h : Recorded start s log) (hquiet : s.Quiet t) : Recorded start t log :=
  h.touch (hquiet.selects h.tended fun _ => False) fun _ => False.elim

/-- A value is seen below others that were opened. -/
theorem see (h : Recorded start s log) {v : Sight}
    (touches : s.Selects (Reach v.selection.trunk v.Opens) t)
    (known : t.Knows v.selection v.type) (fits : v.Fits)
    (unfolded : Unfolded log v.selection.trunk)
    (wants : v.Opens → v.IsRead → ∀ name ∈ s.schema.identity s.identityFields v.type.name,
      t.Wants v.selection.trunk name) : Recorded start t (log ++ [v]) := by
  have hmore : log ⊆ log ++ [v] := List.subset_append_left _ _
  have hself : v ∈ log ++ [v] := List.mem_append_right _ (List.mem_singleton.mpr rfl)
  have hunfolded : ∀ {trunk}, Unfolded log trunk → Unfolded (log ++ [v]) trunk := fun h => h.mono hmore
  constructor
  case schema => exact touches.schema.trans h.schema
  case identityFields => exact touches.identityFields.trans h.identityFields
  case tended => exact touches.tended
  case planted => exact touches.roots ▸ h.planted
  case seen =>
    refine List.forall_mem_append.mpr ⟨fun w hw => ?_, List.forall_mem_singleton.mpr ⟨known, fits⟩⟩
    exact ⟨(h.seen w hw).1.later touches, (h.seen w hw).2⟩
  case below =>
    refine List.forall_mem_append.mpr ⟨fun w hw => hunfolded (h.below w hw), ?_⟩
    exact List.forall_mem_singleton.mpr (hunfolded unfolded)
  case selected =>
    intro x hx
    rcases touches.fresh x hx with hx | hx
    · exact hunfolded (h.selected x hx)
    · exact (hunfolded unfolded).reach (fun hopens => ⟨v, hself, hopens, rfl⟩) hx
  case wants =>
    rw [touches.schema, touches.identityFields]
    refine List.forall_mem_append.mpr ⟨fun w hw hopens hread name hname => ?_, ?_⟩
    · exact (h.wants w hw hopens hread name hname).later touches
    · exact List.forall_mem_singleton.mpr wants

theorem root (h : Recorded start s log) (operation : Operation) :
    Recorded start ((Accessor.root operation).run s).2 (log ++ (Look.root operation).sights s) := by
  obtain ⟨aliasLength, hplanted⟩ := h.planted
  have hquiet : s.Quiet ((Accessor.root operation).run s).2 := ⟨rfl, rfl, rfl, rfl, rfl⟩
  have hselection : ((Accessor.root operation).run s).1.selection = s.context.roots.get operation := rfl
  have hmem : s.context.roots.get operation ∈ s.context.roots.all :=
    Roots.mem_all.mpr ⟨operation, rfl⟩
  have hroot : (s.context.roots.get operation).above = [] ∧
      (s.context.roots.get operation).Stands s.schema (.value (.named operation.text)) := by
    rw [hplanted]
    constructor
    · cases operation <;> rfl
    · cases operation <;> exact .root _ rfl rfl rfl
  obtain ⟨habove, hstands⟩ := hroot
  apply h.see
  · exact hquiet.selects h.tended _
  · exact ⟨List.mem_append_left _ hmem, hstands⟩
  · exact ⟨rfl, rfl, rfl⟩
  · intro before n after he hne
    have hlength := Selection.length_trunk_root habove
    rw [hselection] at he
    rw [he, List.length_append, List.length_cons] at hlength
    have hpos := List.length_pos_of_ne_nil hne
    omega
  · exact fun _ hread => absurd habove hread.1

/-- The object that an accessor gives was seen at its selection, and opened. -/
theorem object (h : Recorded start s log) {a : Accessor}
    (ha : FieldValue.object (some a) ∈ log.map (·.value)) : ∃ type, s.Knows a.selection type ∧
      a.type = type.name ∧ type.isList = false ∧ Unfolded log a.selection.trunk ∧
      ∃ v ∈ log, v.Opens ∧ v.selection.trunk = a.selection.trunk := by
  obtain ⟨v, hv, hvalue⟩ := List.mem_map.mp ha
  obtain ⟨hknows, hfits⟩ := h.seen v hv
  rw [Sight.Fits, hvalue] at hfits
  obtain ⟨hselection, htype, single⟩ := hfits
  rw [hselection]
  exact ⟨v.type, hknows, htype, single, h.below v hv, v, hv, .inl single, rfl⟩

theorem list (h : Recorded start s log) {l : ListAccessor}
    (hl : FieldValue.list (some l) ∈ log.map (·.value)) : ∃ type, s.Knows l.selection type ∧
      l.itemType = type.item ∧ type.isList = true ∧ Unfolded log l.selection.trunk ∧
      (l.itemType.isList = false → ∃ v ∈ log, v.Opens ∧ v.selection.trunk = l.selection.trunk) := by
  obtain ⟨v, hv, hvalue⟩ := List.mem_map.mp hl
  obtain ⟨hknows, hfits⟩ := h.seen v hv
  rw [Sight.Fits, hvalue] at hfits
  obtain ⟨hselection, hitem, list⟩ := hfits
  rw [hselection]
  refine ⟨v.type, hknows, hitem, list, h.below v hv, fun hopens => ?_⟩
  exact ⟨v, hv, .inr ⟨l, hvalue, hopens⟩, rfl⟩

theorem union (h : Recorded start s log) {u : UnionAccessor}
    (hu : FieldValue.union (some u) ∈ log.map (·.value)) : ∃ type, s.Knows u.selection type ∧
      u.type = type.name ∧ type.isList = false ∧ u.selection.above ≠ [] ∧
      Unfolded log u.selection.trunk ∧
      ∃ v ∈ log, v.Opens ∧ v.selection.trunk = u.selection.trunk := by
  obtain ⟨v, hv, hvalue⟩ := List.mem_map.mp hu
  obtain ⟨hknows, hfits⟩ := h.seen v hv
  rw [Sight.Fits, hvalue] at hfits
  obtain ⟨hselection, htype, single, below⟩ := hfits
  rw [hselection]
  exact ⟨v.type, hknows, htype, single, below, h.below v hv, v, hv, .inl single, rfl⟩

/-- A child of what was seen is resolved. -/
theorem resolve (h : Recorded start s log) {x : Selection} {type : TypeRef} (hx : s.Knows x type)
    (below : x.above ≠ []) (unfolded : Unfolded log x.trunk) (path : CachePath)
    (operation : Operation) (isPlaceholder : Bool) :
    Recorded start ((Walk.resolve x type path operation isPlaceholder).run s).2
      (log ++ [⟨x, type, ((Walk.resolve x type path operation isPlaceholder).run s).1⟩]) := by
  have hshows := Walk.shows_resolve h.tended hx below path operation isPlaceholder
  exact h.see hshows.selects (hx.later hshows.selects) hshows.fits unfolded
    fun hopens _ => hshows.wants hopens

theorem field (h : Recorded start s log) {a : Accessor}
    (ha : FieldValue.object (some a) ∈ log.map (·.value)) (name : String)
    (arguments : Fields Json) :
    Recorded start ((a.field name arguments).run s).2 (log ++ a.sight name arguments s) := by
  obtain ⟨type, hknows, htype, single, unfolded, hopen⟩ := h.object ha
  rw [a.field_eq, Accessor.sight]
  rcases a.child_cases name arguments s with ⟨e, hrun⟩ | ⟨d, typed, hd, htyped, hrun⟩
  · simp only [hrun, List.append_nil]
    exact h
  · simp only [hrun]
    rw [htype] at hd
    have hyields := Walk.yields_field h.tended hknows single hd (Accessor.declares_typed htyped)
    have hchild := Walk.selects_child h.tended (fun _ => False) hyields
    have hwritten := Node.isWritten_field (h.tended.proper.fields.field hd) hyields.key
    apply (h.touch hchild fun _ => False.elim).resolve
    · exact ⟨hyields.mem, hyields.stands⟩
    · intro hnil
      cases hyields.above.symm.trans hnil
    · have htrunk := Selection.trunk_of_above hyields.above
      rw [if_pos hwritten] at htrunk
      have hunfolded := unfolded.concat hopen
        (s.forest.child a.selection (.field name) none typed false).1.node
      rw [← htrunk] at hunfolded
      exact hunfolded

theorem cachedLength (h : Recorded start s log) (l : ListAccessor) :
    Recorded start (l.cachedLength.run s).2 log ∧ s.Quiet (l.cachedLength.run s).2 :=
  ⟨h.quiet (l.quiet_cachedLength s), l.quiet_cachedLength s⟩

theorem length (h : Recorded start s log) {l : ListAccessor}
    (hl : FieldValue.list (some l) ∈ log.map (·.value)) : Recorded start (l.length.run s).2 log := by
  obtain ⟨type, hknows, hitem, list, unfolded, hopen⟩ := h.list hl
  have htouch := Walk.selects_touchItem h.tended hknows list hitem 0
  exact ((h.touch htouch.1 fun x hx => unfolded.reach hopen hx).cachedLength l).1

theorem item (h : Recorded start s log) {l : ListAccessor}
    (hl : FieldValue.list (some l) ∈ log.map (·.value)) (position : Nat) :
    Recorded start ((l.get position).run s).2 (log ++ l.sight position s) := by
  obtain ⟨hcounted, hquiet⟩ := h.cachedLength l
  obtain ⟨type, hknows, hitem, list, unfolded, _⟩ := hcounted.list hl
  rw [ListAccessor.sight, ListAccessor.get, Walk.run_bind]
  split
  · have hnone : ∀ t : Scene, (pure none : Walk (Option FieldValue)).run t = (none, t) :=
      fun _ => rfl
    simp only [hnone, Option.toList_none, List.map_nil, List.append_nil]
    exact hcounted
  · have hyields := Walk.yields_item hcounted.tended hknows list position
    have hchild := Walk.selects_child hcounted.tended (fun _ => False) hyields
    have hsame : ((Walk.child l.selection (.index position)).run s).1 =
        ((Walk.child l.selection (.index position)).run (l.cachedLength.run s).2).1 :=
      congrArg (fun f => (Selection.Forest.child f l.selection (.index position) none [] false).1)
        hquiet.forest.symm
    rw [hsame]
    apply (hcounted.touch hchild fun _ => False.elim).resolve
    · rw [hitem]
      exact ⟨hyields.mem, hyields.stands⟩
    · intro hnil
      cases hyields.above.symm.trans hnil
    · have htrunk := Walk.trunk_item hyields
      rw [← htrunk] at unfolded
      exact unfolded

theorem items (h : Recorded start s log) {l : ListAccessor}
    (hl : FieldValue.list (some l) ∈ log.map (·.value)) (positions : List Nat) :
    Recorded start ((positions.mapM l.get).run s).2 (log ++ l.sights positions s) := by
  induction positions generalizing s log with
  | nil =>
      rw [ListAccessor.sights, List.append_nil]
      exact h
  | cons position positions ih =>
      have hfirst := h.item hl position
      have hlater : FieldValue.list (some l) ∈ (log ++ l.sight position s).map (·.value) := by
        rw [List.map_append]
        exact List.mem_append_left _ hl
      rw [List.mapM_cons, ListAccessor.sights, ← List.append_assoc]
      exact ih hfirst hlater

theorem typename (h : Recorded start s log) (u : UnionAccessor) :
    Recorded start (u.typename.run s).2 log ∧ s.Quiet (u.typename.run s).2 :=
  ⟨h.quiet (u.quiet_typename s), u.quiet_typename s⟩

/-- A branch is entered, and its identity is selected. -/
theorem enter (h : Recorded start s log) {u : UnionAccessor}
    (hu : FieldValue.union (some u) ∈ log.map (·.value)) {possible : String}
    (hpossible : possible ∈ s.schema.possibleTypesOf u.type) :
    Recorded start ((u.enter possible).run s).2
      (log ++ [⟨((u.enter possible).run s).1.selection, .named possible,
        .object (some ((u.enter possible).run s).1)⟩]) := by
  obtain ⟨type, hknows, htype, single, below, unfolded, hopen⟩ := h.union hu
  rw [htype] at hpossible
  obtain ⟨hselects, hknown, ⟨n, htrunk⟩, hbranch⟩ :=
    u.selects_touch h.tended hknows single below hpossible
  rw [u.enter_eq]
  generalize (u.touch possible).run s = touched at hselects hknown htrunk hbranch ⊢
  obtain ⟨hquiet, hselection, hopened⟩ := u.quiet_opened touched.1 possible touched.2
  have hlater := hquiet.selects hselects.tended (Reach touched.1.trunk True)
  apply h.see
  · refine (hselects.trans hlater).imp fun x hx => ?_
    rw [hselection]
    exact hx.imp_right fun hx => ⟨.inl rfl, hx.2⟩
  · rw [hselection]
    exact hknown.later hlater
  · exact ⟨rfl, hopened, rfl⟩
  · rw [hselection, htrunk]
    exact unfolded.concat hopen n
  · intro _ hread
    rw [Sight.IsRead, hselection, hbranch] at hread
    cases hread.2

theorem branch (h : Recorded start s log) {u : UnionAccessor}
    (hu : FieldValue.union (some u) ∈ log.map (·.value)) (type : String) :
    Recorded start ((u.on type).run s).2 (log ++ (Look.branch u type).sights s) := by
  obtain ⟨htyped, hquiet⟩ := h.typename u
  rw [Look.sights, u.on_eq]
  cases hpossible : (s.schema.possibleTypesOf u.type).contains type with
  | false =>
      simp only [Bool.false_eq_true, if_false, List.append_nil]
      exact h
  | true =>
      rw [if_pos rfl]
      have hmem : type ∈ (u.typename.run s).2.schema.possibleTypesOf u.type := by
        rw [hquiet.schema]
        exact List.contains_iff_mem.mp hpossible
      by_cases hother : (u.typename.run s).1.any (· ≠ type) = true
      · simp only [hother, if_true, List.append_nil]
        exact htyped
      · rw [if_neg hother]
        exact htyped.enter hu hmem

/-- Each read leaves the record in order. -/
theorem look (h : Recorded start s log) (look : Look) (obtained : look.From log) :
    Recorded start (look.run.run s).2 (log ++ look.sights s) := by
  cases look with
  | root operation => exact h.root operation
  | field a name arguments =>
      rw [Look.run, Attempt.run_map]
      exact h.field obtained name arguments
  | length l =>
      rw [Look.sights, List.append_nil]
      exact h.length obtained
  | item l position => exact h.item obtained position
  | byKey l key =>
      have hrun : ((Look.byKey l key).run.run s).2 = ((l.byKey key).run s).2 := rfl
      rw [hrun, Look.sights, ListAccessor.byKey]
      cases Text.index? key with
      | some position => exact h.item obtained position
      | none =>
          rw [List.append_nil]
          exact h
  | items l => exact (h.length obtained).items obtained _
  | typename u =>
      rw [Look.sights, List.append_nil]
      exact (h.typename u).1
  | branch u type =>
      rw [Look.run, Attempt.run_map]
      exact h.branch obtained type

end Recorded

/-- A pass over a fresh scene keeps its record in order. -/
theorem Pass.recorded (fresh : start.Fresh) (proper : start.schema.Proper start.aliasLength)
    (pass : Pass start s log) : Recorded start s log := by
  induction pass with
  | start => exact .fresh fresh proper
  | reset _ ih => exact ih.reset
  | meanwhile _ cache now ih => exact ih.quiet ⟨rfl, rfl, rfl, rfl, rfl⟩
  | look _ look obtained ih => exact ih.look look obtained

end LazyGraph
