import LazyGraph.Accessor
import LazyGraph.Proofs.Selection.Regular

/-!
What touching a field does: the forest grows by plain names, selections are added, and nothing
else changes that a read depends on.
-/
namespace LazyGraph

/-- The fields that a schema declares have names. -/
def Schema.Named (schema : Schema) : Prop :=
  ∀ type field d, schema.requireField type field = .ok d → Selection.IsName field

theorem Schema.named_of_forall {schema : Schema}
    (h : ∀ q ∈ schema.types, ∀ r ∈ q.2, Selection.IsName r.1) : schema.Named := by
  intro type field d hd
  rcases requireField_cases hd with ⟨rfl, _⟩ | ⟨fs, hfs, hfield⟩
  · decide
  · exact h _ hfs _ hfield

/-- Plain names lead to all selections that were touched. -/
structure Scene.Ordered (root : Selection) (s : Scene) : Prop where
  plain : s.forest.Plain root
  known : s.context.selections ⊆ s.forest.known root

/-- Selections were touched, and nothing else has changed that a read depends on. -/
structure Scene.Touches (root : Selection) (s t : Scene) : Prop where
  same : ∃ forest context, t = { s with forest, context } ∧
    context.freshness = s.context.freshness ∧ context.roots = s.context.roots
  ordered : t.Ordered root
  known : s.forest.known root ⊆ t.forest.known root
  selected : s.context.selections ⊆ t.context.selections

variable {root : Selection} {way : List String}

theorem Scene.Touches.refl {s : Scene} (h : s.Ordered root) : s.Touches root s :=
  ⟨⟨_, _, rfl, rfl, rfl⟩, h, List.Subset.refl _, List.Subset.refl _⟩

theorem Scene.Touches.trans {s t u : Scene} (h : s.Touches root t) (h' : t.Touches root u) :
    s.Touches root u := by
  obtain ⟨⟨f, c, rfl, hf, hr⟩, _, hk, hs⟩ := h
  obtain ⟨⟨f', c', rfl, hf', hr'⟩, ho, hk', hs'⟩ := h'
  exact ⟨⟨f', c', rfl, hf'.trans hf, hr'.trans hr⟩, ho, List.Subset.trans hk hk',
    List.Subset.trans hs hs'⟩

namespace Walk

variable {α β : Type} {s : Scene} {x : Selection}

theorem run_bind (m : Walk α) (f : α → Walk β) (s : Scene) :
    (m >>= f).run s = (f (m.run s).1).run (m.run s).2 := rfl

theorem run_get_bind (f : Scene → Walk α) (s : Scene) : (get >>= f).run s = (f s).run s := rfl

section Register

variable {motive : Scene → Prop}

/-- What is kept as a declared field is touched is kept as all that identifies a value is. -/
theorem selectIdentity_induction {type : String} (start : motive s)
    (touch : ∀ (name : String) (d : FieldDef) (t : Scene),
      s.schema.requireField type name = .ok d → motive t →
      motive ((child x (.field name) >>= select).run t).2) :
    motive ((selectIdentity x type).run s).2 := by
  have hall : ∀ names : List String,
      (∀ name ∈ names, ∃ d, s.schema.requireField type name = .ok d) → ∀ t, motive t →
      motive ((names.forM fun name => child x (.field name) >>= select : Walk PUnit).run t).2 := by
    intro names hnames
    induction names with
    | nil => exact fun _ ht => ht
    | cons name names ih =>
        obtain ⟨⟨d, hd⟩, hrest⟩ := List.forall_mem_cons.mp hnames
        exact fun t ht => ih hrest _ (touch name d t hd ht)
  rw [selectIdentity, run_get_bind]
  exact hall _ (fun _ hname => Schema.exists_requireField hname) s start

/-- A value is touched, and then declared fields of it. -/
theorem register_induction {type : TypeRef} (start : motive ((select x).run s).2)
    (touch : ∀ (name : String) (d : FieldDef) (t : Scene),
      s.schema.requireField type.name name = .ok d → motive t →
      motive ((child x (.field name) >>= select).run t).2) :
    motive ((register x type).run s).2 := by
  have htypename := touch "__typename" Schema.typenameField _
    (Schema.requireField_typename s.schema type.name) start
  rw [register, run_bind]
  split
  · exact start
  · rw [run_get_bind]
    split
    · exact selectIdentity_induction htypename touch
    · exact htypename
    · exact start

end Register

theorem touches_child (hs : s.Ordered root) (hx : x ∈ s.forest.known root) (hway : x.Leads way)
    {name : String} (hname : Selection.IsName name) :
    s.Touches root ((child x (.field name)).run s).2 ∧
      ((child x (.field name)).run s).1 ∈ ((child x (.field name)).run s).2.forest.known root ∧
      ((child x (.field name)).run s).1.Leads (way ++ [name]) := by
  obtain ⟨hknown, hleads, hplain, hgrown⟩ := hs.plain.fieldChild hx hway hname
  refine ⟨⟨⟨_, s.context, rfl, rfl, rfl⟩, ⟨hplain, ?_⟩, hgrown, List.Subset.refl _⟩, hknown, hleads⟩
  exact List.Subset.trans hs.known hgrown

theorem touches_select (hs : s.Ordered root) (hx : x ∈ s.forest.known root) :
    s.Touches root ((select x).run s).2 ∧ x ∈ ((select x).run s).2.context.selections := by
  have hrun : ((select x).run s).2 = { s with context := s.context.select x } := rfl
  rw [hrun, Context.select]
  split
  · rename_i hany
    obtain ⟨y, hy, he⟩ := List.any_eq_true.mp hany
    obtain rfl := hs.plain.eq_of_id (hs.known hy) hx (eq_of_beq he)
    exact ⟨.refl hs, hy⟩
  · refine ⟨⟨⟨_, _, rfl, rfl, rfl⟩, ⟨hs.plain, ?_⟩, List.Subset.refl _,
      List.subset_append_left _ _⟩, List.mem_append_right _ (List.mem_singleton.mpr rfl)⟩
    exact List.append_subset.mpr ⟨hs.known, List.forall_mem_singleton.mpr hx⟩

theorem touches_selectChild (hs : s.Ordered root) (hx : x ∈ s.forest.known root)
    (hway : x.Leads way) {name : String} (hname : Selection.IsName name) :
    s.Touches root ((child x (.field name) >>= select).run s).2 := by
  obtain ⟨htouch, hknown, _⟩ := touches_child hs hx hway hname
  exact htouch.trans (touches_select htouch.ordered hknown).1

theorem touches_register (hs : s.Ordered root) (hn : s.schema.Named)
    (hx : x ∈ s.forest.known root) (hway : x.Leads way) (type : TypeRef) :
    s.Touches root ((register x type).run s).2 ∧ x ∈ ((register x type).run s).2.context.selections := by
  refine register_induction
    (motive := fun t => s.Touches root t ∧ x ∈ t.context.selections) (touches_select hs hx) ?_
  rintro name d t hd ⟨htouch, hmem⟩
  have hname : Selection.IsName name := hn _ _ _ hd
  have hlater := touches_selectChild htouch.ordered (htouch.known hx) hway hname
  exact ⟨htouch.trans hlater, hlater.selected hmem⟩

/-- The accessor for data stands where it was asked for, remembered or not. -/
theorem accessorFor_run (hs : s.Ordered root) (selection : Selection) (type : String)
    (operation : Operation) (path : CachePath) (data : Json) :
    s.Touches root ((accessorFor selection type operation path data).run s).2 ∧
      ∃ id, ((accessorFor selection type operation path data).run s).1 =
        { id, selection, type, operation, path := some path, isPlaceholder := false } := by
  have hsame : ∀ c : Context, c.freshness = s.context.freshness → c.roots = s.context.roots →
      c.selections = s.context.selections → s.Touches root { s with context := c } :=
    fun c hf hr hc => ⟨⟨_, _, rfl, hf, hr⟩, ⟨hs.plain, hc ▸ hs.known⟩, List.Subset.refl _,
      hc ▸ List.Subset.refl _⟩
  rw [accessorFor, run_get_bind]
  split
  · exact ⟨.refl hs, _, rfl⟩
  · exact ⟨hsame _ rfl rfl rfl, s.context.nextAccessor, rfl⟩

end Walk
end LazyGraph
