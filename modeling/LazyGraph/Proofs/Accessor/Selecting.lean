import LazyGraph.Proofs.Accessor.Look
import LazyGraph.Proofs.Document.Typing

/-!
What reads select. A field or an item is selected with the fields that identify its value: all of
them, if the read opens the value, and nothing below it otherwise.
-/
namespace LazyGraph

open Selection (Node isGraphName)

namespace Schema

/-- The fields that have to be selected of a value, by its type. -/
def identity (schema : Schema) (candidates : List String) (type : String) : List String :=
  match schema.kind type with
  | .object => "__typename" :: schema.identityFields type candidates
  | .abstract => ["__typename"]
  | .scalar => []

end Schema

/-! ### What is selected -/

namespace Scene

def handed (s : Scene) : List Selection := s.forest.handed s.context.roots.all

/-- The length of the aliases below the roots. -/
def aliasLength (s : Scene) : Nat := s.context.roots.query.aliasLength

/-- All that was handed out has a type, and so has what was selected. -/
structure Tended (s : Scene) : Prop where
  proper : s.schema.Proper s.aliasLength
  forest : s.forest.Typed s.schema s.aliasLength s.context.roots.all
  known : s.context.selections ⊆ s.handed

/-- The selection was handed out, and a value of the type stands there. -/
structure Knows (s : Scene) (x : Selection) (type : TypeRef) : Prop where
  mem : x ∈ s.handed
  stands : x.Stands s.schema (.value type)

/-- Asking for a child gives a node that stands for what was asked for. -/
def Yields (s : Scene) (p : Selection) (key : Selection.Key) (arguments : Fields Selection.Argument)
    (isBranch : Bool) (next : Schema.Standing) : Prop :=
  Selection.Forest.Yields s.schema s.aliasLength s.forest s.context.roots.all p
    (fun id =>
      { id, key, aliasName := Selection.childAlias key none arguments p.aliasLength
        arguments, isBranch })
    next (s.forest.child p key none arguments isBranch).1
    (s.forest.child p key none arguments isBranch).2

/-- The second scene comes from the first one by reads that select what is near. -/
structure Selects (near : Selection → Prop) (s t : Scene) : Prop where
  schema : t.schema = s.schema
  identityFields : t.identityFields = s.identityFields
  roots : t.context.roots = s.context.roots
  tended : t.Tended
  mono : s.handed ⊆ t.handed
  kept : s.context.selections ⊆ t.context.selections
  fresh : ∀ x ∈ t.context.selections, x ∈ s.context.selections ∨ near x

/-- The second scene comes from the first one without touches. -/
structure Quiet (s t : Scene) : Prop where
  schema : t.schema = s.schema
  identityFields : t.identityFields = s.identityFields
  forest : t.forest = s.forest
  roots : t.context.roots = s.context.roots
  selections : t.context.selections = s.context.selections

/-- The field is selected below a way down. -/
def Wants (s : Scene) (trunk : List Node) (field : String) : Prop :=
  ∃ c ∈ s.context.selections, ∃ n, c.trunk = trunk ++ [n] ∧ n.Names field

variable {s t u : Scene} {near far : Selection → Prop} {x : Selection} {type : TypeRef}

theorem Selects.refl (hs : s.Tended) : s.Selects near s :=
  ⟨rfl, rfl, rfl, hs, List.Subset.refl _, List.Subset.refl _, fun _ => .inl⟩

theorem Selects.trans (h : s.Selects near t) (h' : t.Selects near u) : s.Selects near u where
  schema := h'.schema.trans h.schema
  identityFields := h'.identityFields.trans h.identityFields
  roots := h'.roots.trans h.roots
  tended := h'.tended
  mono := List.Subset.trans h.mono h'.mono
  kept := List.Subset.trans h.kept h'.kept
  fresh x hx := (h'.fresh x hx).elim (h.fresh x) .inr

theorem Selects.imp (h : s.Selects near t) (himp : ∀ x, near x → far x) : s.Selects far t :=
  { h with fresh := fun x hx => (h.fresh x hx).imp_right (himp x) }

theorem Quiet.refl (s : Scene) : s.Quiet s := ⟨rfl, rfl, rfl, rfl, rfl⟩

theorem Quiet.trans (h : s.Quiet t) (h' : t.Quiet u) : s.Quiet u :=
  ⟨h'.schema.trans h.schema, h'.identityFields.trans h.identityFields, h'.forest.trans h.forest,
    h'.roots.trans h.roots, h'.selections.trans h.selections⟩

theorem Quiet.selects (h : s.Quiet t) (hs : s.Tended) (near : Selection → Prop) :
    s.Selects near t := by
  have hhanded : t.handed = s.handed := by rw [handed, handed, h.forest, h.roots]
  have hlength : t.aliasLength = s.aliasLength := by rw [aliasLength, aliasLength, h.roots]
  refine ⟨h.schema, h.identityFields, h.roots, ⟨?_, ?_, ?_⟩, ?_, ?_, ?_⟩
  · rw [h.schema, hlength]
    exact hs.proper
  · rw [h.forest, h.schema, h.roots, hlength]
    exact hs.forest
  · rw [h.selections, hhanded]
    exact hs.known
  · exact hhanded ▸ List.Subset.refl _
  · exact h.selections ▸ List.Subset.refl _
  · exact fun x hx => .inl (h.selections ▸ hx)

theorem Knows.later (hx : s.Knows x type) (h : s.Selects near t) : t.Knows x type :=
  ⟨h.mono hx.mem, h.schema ▸ hx.stands⟩

theorem Wants.later {trunk : List Node} {field : String} (hw : s.Wants trunk field)
    (h : s.Selects near t) : t.Wants trunk field := by
  obtain ⟨c, hc, hn⟩ := hw
  exact ⟨c, h.kept hc, hn⟩

end Scene

/-- At the end of a way down, or right below if it is open. -/
def Reach (trunk : List Node) (isOpen : Prop) (x : Selection) : Prop :=
  x.trunk = trunk ∨ isOpen ∧ ∃ n, x.trunk = trunk ++ [n]

namespace Walk

variable {α β : Type} {s : Scene} {near : Selection → Prop} {x p : Selection} {type : TypeRef}

theorem selects_bind {m : Walk α} {f : α → Walk β} (h : s.Selects near (m.run s).2)
    (hf : (m.run s).2.Selects near ((f (m.run s).1).run (m.run s).2).2) :
    s.Selects near ((m >>= f).run s).2 :=
  h.trans hf

theorem selects_select (hs : s.Tended) (hx : x ∈ s.handed) (hnear : near x) :
    s.Selects near ((select x).run s).2 ∧ x ∈ ((select x).run s).2.context.selections := by
  have hrun : ((select x).run s).2 = { s with context := s.context.select x } := rfl
  rw [hrun, Context.select]
  split
  · rename_i hany
    obtain ⟨y, hy, he⟩ := List.any_eq_true.mp hany
    obtain rfl := hs.forest.sound.eq_of_id (hs.known hy) hx (eq_of_beq he)
    exact ⟨.refl hs, hy⟩
  · refine ⟨⟨rfl, rfl, rfl, ⟨hs.proper, hs.forest, ?_⟩, List.Subset.refl _,
      List.subset_append_left _ _, fun y hy => ?_⟩,
      List.mem_append_right _ (List.mem_singleton.mpr rfl)⟩
    · exact List.append_subset.mpr ⟨hs.known, List.forall_mem_singleton.mpr hx⟩
    · refine (List.mem_append.mp hy).imp_right fun hy => ?_
      rwa [List.mem_singleton.mp hy]

/-- What was asked for is known from then on. -/
theorem selects_child (hs : s.Tended) (near : Selection → Prop) {key : Selection.Key}
    {arguments : Fields Selection.Argument} {isBranch : Bool} {next : Schema.Standing}
    (h : s.Yields p key arguments isBranch next) :
    s.Selects near ((child p key arguments isBranch).run s).2 :=
  ⟨rfl, rfl, rfl, ⟨hs.proper, h.typed, List.Subset.trans hs.known h.mono⟩, h.mono,
    List.Subset.refl _, fun _ => .inl⟩

theorem yields_field (hs : s.Tended) (hp : s.Knows p type) (single : type.isList = false)
    {name : String} {d : FieldDef} (declared : s.schema.requireField type.name name = .ok d)
    {arguments : Fields Selection.Argument} (typed : d.Declares arguments) :
    s.Yields p (.field name) arguments false (.value d.typeRef) := by
  apply hs.forest.ask hs.proper hp.mem hp.stands
  · intro id
    rw [hs.forest.aliasLength p hp.mem]
    exact .field single declared rfl typed (Selection.aliased_childAlias _ _ _ _ _) rfl
  · exact fun _ id => Selection.Node.isPlace_field (hs.proper.fields.field declared) rfl rfl

/-- A field that identifies a value is selected below it. -/
theorem selects_field (hs : s.Tended) (hp : s.Knows p type) (single : type.isList = false)
    {name : String} {d : FieldDef} (declared : s.schema.requireField type.name name = .ok d) :
    s.Selects (Reach p.trunk True) ((child p (.field name) >>= select).run s).2 ∧
      ((child p (.field name) >>= select).run s).2.Wants p.trunk name := by
  have hname := hs.proper.fields.field declared
  have hyields := yields_field hs hp single declared (List.forall_mem_nil _)
  have hchild := selects_child hs (Reach p.trunk True) hyields
  let c := (s.forest.child p (.field name) none [] false).1
  have hkey : c.node.key = .field name := hyields.key
  have htrunk : c.trunk = p.trunk ++ [c.node] := by
    rw [Selection.trunk_of_above hyields.above, if_pos (Node.isWritten_field hname hkey)]
  have hnear : Reach p.trunk True c := .inr ⟨trivial, c.node, htrunk⟩
  have hselect := selects_select hchild.tended hyields.mem hnear
  refine ⟨selects_bind hchild hselect.1, c, hselect.2, c.node, htrunk, ?_⟩
  obtain ⟨standing, hbelow⟩ := hyields.below
  exact
    { key := hkey
      aliasName := hyields.aliasName
      arguments := hbelow.arguments_eq_nil hkey hname hyields.aliasName hyields.isBranch
      isBranch := hyields.isBranch
      legal := ⟨Selection.undotted_of_isGraphName hname, Schema.isGraphName_ne_marker hname⟩ }

theorem selects_fields (hs : s.Tended) (hp : s.Knows p type) (single : type.isList = false)
    {names : List String}
    (hnames : ∀ name ∈ names, ∃ d, s.schema.requireField type.name name = .ok d) :
    s.Selects (Reach p.trunk True)
        ((names.forM fun name => child p (.field name) >>= select).run s).2 ∧
      ∀ name ∈ names, ((names.forM fun name => child p (.field name) >>= select).run s).2.Wants
        p.trunk name := by
  induction names generalizing s with
  | nil => exact ⟨.refl hs, fun _ h => absurd h List.not_mem_nil⟩
  | cons name names ih =>
      obtain ⟨⟨d, hd⟩, hrest⟩ := List.forall_mem_cons.mp hnames
      obtain ⟨hfirst, hwants⟩ := selects_field hs hp single hd
      obtain ⟨hlater, hall⟩ := ih hfirst.tended (hp.later hfirst) (by
        rw [hfirst.schema]
        exact hrest)
      exact ⟨selects_bind hfirst hlater, List.forall_mem_cons.mpr ⟨hwants.later hlater, hall⟩⟩

theorem selects_selectIdentity (hs : s.Tended) (hp : s.Knows p type)
    (single : type.isList = false) :
    s.Selects (Reach p.trunk True) ((selectIdentity p type.name).run s).2 ∧
      ∀ name ∈ s.schema.identityFields type.name s.identityFields,
        ((selectIdentity p type.name).run s).2.Wants p.trunk name := by
  rw [selectIdentity, run_get_bind]
  exact selects_fields hs hp single fun name hname => Schema.exists_requireField hname

/-- A value is touched, with what identifies it unless it is a list. -/
theorem selects_register (hs : s.Tended) (hx : s.Knows x type) :
    s.Selects (Reach x.trunk (type.isList = false)) ((register x type).run s).2 ∧
      (type.isList = false → ∀ name ∈ s.schema.identity s.identityFields type.name,
        ((register x type).run s).2.Wants x.trunk name) := by
  have hnear : Reach x.trunk (type.isList = false) x := .inl rfl
  obtain ⟨hself, _⟩ := selects_select hs hx.mem hnear
  cases hlist : type.isList with
  | true =>
      rw [register, run_bind, if_pos hlist]
      rw [hlist] at hself
      exact ⟨hself, fun single => absurd single (by decide)⟩
  | false =>
      have hdeep : ∀ c, Reach x.trunk True c → Reach x.trunk (false = false) c :=
        fun c h => h.imp_right fun h => ⟨rfl, h.2⟩
      have hx' := hx.later hself
      have htypename := selects_field hself.tended hx' hlist
        (Schema.requireField_typename _ type.name)
      rw [hlist] at hself
      rw [register, run_bind, if_neg (by rw [hlist]; decide), run_get_bind]
      have hkind : ((select x).run s).2.schema.kind type.name = s.schema.kind type.name := rfl
      rw [hkind, Schema.identity]
      cases s.schema.kind type.name with
      | scalar => exact ⟨hself, fun _ _ h => absurd h List.not_mem_nil⟩
      | abstract =>
          refine ⟨hself.trans (htypename.1.imp hdeep), fun _ => ?_⟩
          exact List.forall_mem_singleton.mpr htypename.2
      | object =>
          have hidentity := selects_selectIdentity htypename.1.tended (hx'.later htypename.1) hlist
          refine ⟨hself.trans ((htypename.1.trans hidentity.1).imp hdeep), fun _ => ?_⟩
          refine List.forall_mem_cons.mpr ⟨htypename.2.later hidentity.1, ?_⟩
          exact hidentity.2

theorem unwritten_index {n : Node} {position : Nat} (hkey : n.key = .index position) :
    n.isWritten = false := by
  rw [Node.isWritten, hkey]
  rfl

/-- Roots are no lists. -/
theorem above_ne_nil_of_list {schema : Schema} (hx : x.Stands schema (.value type))
    (list : type.isList = true) : x.above ≠ [] := by
  intro habove
  rw [Selection.Stands, habove] at hx
  cases hx with
  | root operation => exact absurd list Bool.false_ne_true

theorem yields_item (hs : s.Tended) (hp : s.Knows p type) (list : type.isList = true)
    (position : Nat) : s.Yields p (.index position) [] false (.value type.item) := by
  apply hs.forest.ask hs.proper hp.mem hp.stands
  · exact fun id => .item list rfl rfl rfl
  · exact fun habove => absurd habove (above_ne_nil_of_list hp.stands list)

/-- An item stands where its list does. -/
theorem trunk_item {position : Nat} {next : Schema.Standing}
    (h : s.Yields p (.index position) [] false next) :
    (s.forest.child p (.index position) none [] false).1.trunk = p.trunk := by
  rw [Selection.trunk_of_above h.above, unwritten_index h.key]
  exact if_neg Bool.false_ne_true

/-- The choice among the branches of a value. -/
theorem yields_marker (hs : s.Tended) (hp : s.Knows p type) (single : type.isList = false)
    (below : p.above ≠ []) : s.Yields p (.field unionMarker) [] false (.choice type.name) := by
  apply hs.forest.ask hs.proper hp.mem hp.stands
  · exact fun id => .choice single rfl rfl rfl
  · exact fun habove => absurd habove below

theorem trunk_marker {next : Schema.Standing} (h : s.Yields p (.field unionMarker) [] false next) :
    (s.forest.child p (.field unionMarker) none [] false).1.trunk = p.trunk := by
  have hmarker : (s.forest.child p (.field unionMarker) none [] false).1.node.isMarker = true :=
    decide_eq_true h.key
  rw [Selection.trunk_of_above h.above, Node.isWritten, hmarker, Bool.not_true, Bool.and_false]
  exact if_neg Bool.false_ne_true

/-- A branch of a choice. -/
theorem yields_branch (hs : s.Tended) {marker : Selection} {abstract possible : String}
    (hmem : marker ∈ s.handed) (hstands : marker.Stands s.schema (.choice abstract))
    (hpossible : possible ∈ s.schema.possibleTypesOf abstract) (below : marker.above ≠ []) :
    s.Yields marker (.field possible) [] true (.value (.named possible)) := by
  apply hs.forest.ask hs.proper hmem hstands
  · exact fun id => .branch hpossible rfl rfl rfl
  · exact fun habove => absurd habove below

/-- An item is touched, with what identifies it unless it is a list. -/
theorem selects_touchItem (hs : s.Tended) {l : ListAccessor} (hl : s.Knows l.selection type)
    (list : type.isList = true) (hitem : l.itemType = type.item) (position : Nat) :
    s.Selects (Reach l.selection.trunk (l.itemType.isList = false))
        ((touchItem l position).run s).2 ∧
      (l.itemType.isList = false → ∀ name ∈ s.schema.identity s.identityFields type.name,
        ((touchItem l position).run s).2.Wants l.selection.trunk name) := by
  have hyields := yields_item hs hl list position
  have htrunk := trunk_item hyields
  have hchild := selects_child hs (Reach l.selection.trunk (l.itemType.isList = false)) hyields
  have hknown : ((child l.selection (.index position)).run s).2.Knows
      (s.forest.child l.selection (.index position) none [] false).1 l.itemType := by
    rw [hitem]
    exact ⟨hyields.mem, hyields.stands⟩
  have hregister := selects_register hchild.tended hknown
  rw [htrunk] at hregister
  refine ⟨selects_bind hchild hregister.1, fun single name hname => ?_⟩
  apply hregister.2 single
  rw [hitem]
  exact hname

end Walk

namespace UnionAccessor

open Walk

variable {s : Scene} (u : UnionAccessor)

/-- The node of a branch, with what identifies its objects selected. -/
def touch (possible : String) : Walk Selection := do
  let marker ← Walk.child u.selection (.field unionMarker)
  let branch ← Walk.child marker (.field possible) [] true
  Walk.selectIdentity branch possible
  pure branch

theorem selects_touch (hs : s.Tended) {type : TypeRef} (hu : s.Knows u.selection type)
    (single : type.isList = false) (below : u.selection.above ≠ []) {possible : String}
    (hpossible : possible ∈ s.schema.possibleTypesOf type.name) :
    let r := (u.touch possible).run s
    s.Selects (Reach r.1.trunk True) r.2 ∧ r.2.Knows r.1 (.named possible) ∧
      (∃ n, r.1.trunk = u.selection.trunk ++ [n]) ∧ r.1.node.isBranch = true := by
  have hmarker := yields_marker hs hu single below
  have hmarked := selects_child hs (fun _ => False) hmarker
  let t := ((Walk.child u.selection (.field unionMarker)).run s).2
  let marker := (s.forest.child u.selection (.field unionMarker) none [] false).1
  have habove : marker.above ≠ [] := by
    rw [hmarker.above]
    exact List.cons_ne_nil _ _
  have hbranch := yields_branch (s := t) hmarked.tended hmarker.mem hmarker.stands hpossible habove
  have hbranched := selects_child hmarked.tended (fun _ => False) hbranch
  let branch := (t.forest.child marker (.field possible) none [] true).1
  have hknown : ((Walk.child marker (.field possible) [] true).run t).2.Knows branch
      (.named possible) := ⟨hbranch.mem, hbranch.stands⟩
  obtain ⟨hselect, _⟩ := selects_selectIdentity hbranched.tended hknown rfl
  have htrunk : branch.trunk = u.selection.trunk ++ [branch.node] := by
    have hwritten := Node.isWritten_field (hs.proper.possible hpossible) hbranch.key
    rw [Selection.trunk_of_above hbranch.above, if_pos hwritten, trunk_marker hmarker]
  refine ⟨?_, hknown.later hselect, ⟨_, htrunk⟩, hbranch.isBranch⟩
  exact ((hmarked.trans hbranched).imp fun _ => False.elim).trans hselect

end UnionAccessor

/-! ### What is seen -/

/-- A value that was read, with its selection and its type. -/
structure Sight where
  selection : Selection
  type : TypeRef
  value : FieldValue

namespace Sight

/-- Whether the read opens the value: it is no list, or a list of such values that is there. -/
def Opens (v : Sight) : Prop :=
  v.type.isList = false ∨ ∃ l, v.value = .list (some l) ∧ l.itemType.isList = false

/-- The accessor stands at the selection, and what it gives has the type. -/
def Fits (v : Sight) : Prop :=
  match v.value with
  | .object (some a) =>
    a.selection = v.selection ∧ a.type = v.type.name ∧ v.type.isList = false
  | .list (some l) =>
    l.selection = v.selection ∧ l.itemType = v.type.item ∧ v.type.isList = true
  | .union (some u) =>
    u.selection = v.selection ∧ u.type = v.type.name ∧ v.type.isList = false ∧
      v.selection.above ≠ []
  | _ => True

end Sight

/-- The read that gave the value selects what opening it takes, and nothing else. -/
structure Scene.Shows (s : Scene) (v : Sight) (t : Scene) : Prop where
  selects : s.Selects (Reach v.selection.trunk v.Opens) t
  wants : v.Opens → ∀ name ∈ s.schema.identity s.identityFields v.type.name,
    t.Wants v.selection.trunk name
  fits : v.Fits

namespace Walk

variable {s : Scene} {x : Selection} {type : TypeRef} {path : CachePath} {isPlaceholder : Bool}

theorem quiet_bind {α β : Type} {m : Walk α} {f : α → Walk β} (h : s.Quiet (m.run s).2)
    (hf : (m.run s).2.Quiet ((f (m.run s).1).run (m.run s).2).2) :
    s.Quiet ((m >>= f).run s).2 :=
  h.trans hf

theorem quiet_read (s : Scene) (path : CachePath) (operation : Operation) :
    s.Quiet ((read path operation).run s).2 := ⟨rfl, rfl, rfl, rfl, rfl⟩

theorem quiet_seed (s : Scene) (path : CachePath) (value : Json) :
    s.Quiet ((seed path value).run s).2 := ⟨rfl, rfl, rfl, rfl, rfl⟩

theorem quiet_peek (s : Scene) (path : CachePath) : s.Quiet ((peek path).run s).2 :=
  ⟨rfl, rfl, rfl, rfl, rfl⟩

theorem quiet_accessorFor (s : Scene) (x : Selection) (type : String) (operation : Operation)
    (path : CachePath) (data : Json) :
    s.Quiet ((accessorFor x type operation path data).run s).2 ∧
      ((accessorFor x type operation path data).run s).1.selection = x ∧
      ((accessorFor x type operation path data).run s).1.type = type := by
  rw [accessorFor, run_get_bind]
  split
  · exact ⟨.refl s, rfl, rfl⟩
  · exact ⟨⟨rfl, rfl, rfl, rfl, rfl⟩, rfl, rfl⟩

section Resolve

variable (s : Scene) (x : Selection) (path : CachePath) (operation : Operation)
  (isPlaceholder : Bool)

theorem quiet_resolveScalar :
    s.Quiet ((resolveScalar path operation isPlaceholder).run s).2 ∧
      Sight.Fits ⟨x, type, ((resolveScalar path operation isPlaceholder).run s).1⟩ := by
  rw [resolveScalar]
  split
  · exact ⟨.refl s, trivial⟩
  · exact ⟨quiet_bind (quiet_read s path operation) (.refl _), trivial⟩

theorem quiet_resolveObject (single : type.isList = false) :
    s.Quiet ((resolveObject x type.name path operation isPlaceholder).run s).2 ∧
      Sight.Fits ⟨x, type, ((resolveObject x type.name path operation isPlaceholder).run s).1⟩ := by
  rw [resolveObject]
  split
  · exact ⟨⟨rfl, rfl, rfl, rfl, rfl⟩, rfl, rfl, single⟩
  · have hread := quiet_read s path operation
    rw [run_bind]
    split
    · rename_i fs _
      obtain ⟨hquiet, hselection, htype⟩ := quiet_accessorFor ((read path operation).run s).2 x
        type.name operation path (.object fs)
      exact ⟨hread.trans hquiet, hselection, htype, single⟩
    · exact ⟨hread, trivial⟩
    · have hseed := quiet_seed ((read path operation).run s).2 path (.object [])
      obtain ⟨hquiet, hselection, htype⟩ := quiet_accessorFor
        ((seed path (.object [])).run ((read path operation).run s).2).2 x type.name operation path
        (.object [])
      exact ⟨hread.trans (hseed.trans hquiet), hselection, htype, single⟩

theorem quiet_resolveUnion (single : type.isList = false) (below : x.above ≠ []) :
    s.Quiet ((resolveUnion x type.name path operation isPlaceholder).run s).2 ∧
      Sight.Fits ⟨x, type, ((resolveUnion x type.name path operation isPlaceholder).run s).1⟩ := by
  rw [resolveUnion]
  split
  · exact ⟨.refl s, rfl, rfl, single, below⟩
  · have hread := quiet_read s path operation
    rw [run_bind]
    split
    · exact ⟨hread, rfl, rfl, single, below⟩
    · exact ⟨hread, trivial⟩
    · exact ⟨hread.trans (quiet_seed _ path (.object [])), rfl, rfl, single, below⟩

end Resolve

/-- A list is presented with its first item. -/
theorem shows_present (hs : s.Tended) {l : ListAccessor} (hl : s.Knows l.selection type)
    (list : type.isList = true) (hitem : l.itemType = type.item) :
    s.Shows ⟨l.selection, type, .list (some l)⟩ ((touchItem l 0).run s).2 := by
  have hopens : Sight.Opens ⟨l.selection, type, .list (some l)⟩ ↔ l.itemType.isList = false := by
    refine ⟨fun h => ?_, fun h => .inr ⟨l, rfl, h⟩⟩
    rcases h with single | ⟨l', he, hl'⟩
    · cases list.symm.trans single
    · obtain rfl := Option.some.inj (FieldValue.list.inj he)
      exact hl'
  obtain ⟨hselects, hwants⟩ := selects_touchItem hs hl list hitem 0
  refine ⟨?_, ?_, rfl, hitem, list⟩
  · exact hselects.imp fun c hc => hc.imp_right fun h => ⟨hopens.mpr h.1, h.2⟩
  · exact fun h => hwants (hopens.mp h)

theorem shows_resolveList (hs : s.Tended) (hx : s.Knows x type) (list : type.isList = true)
    (path : CachePath) (operation : Operation) (isPlaceholder : Bool) :
    s.Shows ⟨x, type, ((resolveList x type.item path operation isPlaceholder).run s).1⟩
      ((resolveList x type.item path operation isPlaceholder).run s).2 := by
  have hpresent : ∀ (t : Scene) (isPlaceholder : Bool), s.Quiet t →
      let l : ListAccessor := { selection := x, itemType := type.item, operation, path, isPlaceholder }
      s.Shows ⟨x, type, .list (some l)⟩ ((touchItem l 0).run t).2 := by
    intro t isPlaceholder hquiet l
    have hselects := hquiet.selects hs (Reach x.trunk (Sight.Opens ⟨x, type, .list (some l)⟩))
    have hshows := shows_present hselects.tended (l := l) (hx.later hselects) list rfl
    refine ⟨hselects.trans hshows.selects, ?_, hshows.fits⟩
    have hwants := hshows.wants
    rw [hquiet.schema, hquiet.identityFields] at hwants
    exact hwants
  rw [resolveList]
  split
  · exact hpresent s true (.refl s)
  · have hread := quiet_read s path operation
    rw [run_bind]
    split
    · exact hpresent _ false hread
    · refine ⟨hread.selects hs _, fun hopens => ?_, trivial⟩
      rcases hopens with single | ⟨l, he, _⟩
      · cases list.symm.trans single
      · cases he
    · exact hpresent _ false (hread.trans (quiet_seed _ path (.array [])))

/-- A field or an item is resolved. -/
theorem shows_resolve (hs : s.Tended) (hx : s.Knows x type) (below : x.above ≠ [])
    (path : CachePath) (operation : Operation) (isPlaceholder : Bool) :
    s.Shows ⟨x, type, ((resolve x type path operation isPlaceholder).run s).1⟩
      ((resolve x type path operation isPlaceholder).run s).2 := by
  obtain ⟨hregister, hwants⟩ := selects_register hs hx
  rw [resolve, run_bind]
  cases hlist : type.isList with
  | true =>
      rw [if_pos rfl]
      rw [hlist] at hregister
      have hshows := shows_resolveList hregister.tended (hx.later hregister) hlist path operation
        isPlaceholder
      refine ⟨?_, ?_, hshows.fits⟩
      · refine (hregister.imp fun c hc => ?_).trans hshows.selects
        exact hc.imp_right fun h => absurd h.1.symm Bool.false_ne_true
      · have hlater := hshows.wants
        rw [hregister.schema, hregister.identityFields] at hlater
        exact hlater
  | false =>
      rw [if_neg Bool.false_ne_true, run_get_bind]
      have hquiet : ∀ {m : Walk FieldValue},
          ((register x type).run s).2.Quiet (m.run ((register x type).run s).2).2 ∧
            Sight.Fits ⟨x, type, (m.run ((register x type).run s).2).1⟩ →
          s.Shows ⟨x, type, (m.run ((register x type).run s).2).1⟩
            (m.run ((register x type).run s).2).2 := by
        rintro m ⟨hquiet, hfits⟩
        have hlater := hquiet.selects hregister.tended (Reach x.trunk (type.isList = false))
        refine ⟨?_, fun _ name hname => (hwants hlist name hname).later hlater, hfits⟩
        exact (hregister.trans hlater).imp fun c hc => hc.imp_right fun h => ⟨.inl hlist, h.2⟩
      split
      · exact hquiet (quiet_resolveScalar _ x path operation isPlaceholder)
      · exact hquiet (quiet_resolveObject _ x path operation isPlaceholder hlist)
      · exact hquiet (quiet_resolveUnion _ x path operation isPlaceholder hlist below)

end Walk

theorem ListAccessor.quiet_cachedLength (l : ListAccessor) (s : Scene) :
    s.Quiet (l.cachedLength.run s).2 := by
  rw [cachedLength]
  split
  · exact .refl s
  · rw [Walk.run_bind]
    split <;> exact ⟨rfl, rfl, rfl, rfl, rfl⟩

namespace UnionAccessor

theorem quiet_typename (u : UnionAccessor) (s : Scene) : s.Quiet (u.typename.run s).2 := by
  rw [typename]
  split
  · exact .refl s
  · rw [Walk.run_bind]
    split <;> exact ⟨rfl, rfl, rfl, rfl, rfl⟩

/-- The accessor over the node of a branch. -/
def opened (u : UnionAccessor) (branch : Selection) (type : String) : Walk Accessor :=
  if u.isPlaceholder then Walk.newAccessor branch type u.operation (some u.path) true
  else do
    let r ← Walk.peek u.path
    Walk.accessorFor branch type u.operation u.path (r.value.getD .null)

theorem enter_eq (u : UnionAccessor) (type : String) (s : Scene) :
    (u.enter type).run s =
      (u.opened ((u.touch type).run s).1 type).run ((u.touch type).run s).2 := rfl

theorem quiet_opened (u : UnionAccessor) (branch : Selection) (type : String) (s : Scene) :
    s.Quiet ((u.opened branch type).run s).2 ∧
      ((u.opened branch type).run s).1.selection = branch ∧
      ((u.opened branch type).run s).1.type = type := by
  rw [opened]
  split
  · exact ⟨⟨rfl, rfl, rfl, rfl, rfl⟩, rfl, rfl⟩
  · obtain ⟨hquiet, haccessor⟩ := Walk.quiet_accessorFor ((Walk.peek u.path).run s).2 branch type
      u.operation u.path (((Walk.peek u.path).run s).1.value.getD .null)
    exact ⟨(Walk.quiet_peek s u.path).trans hquiet, haccessor⟩

end UnionAccessor
end LazyGraph
