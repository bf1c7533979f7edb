import LazyGraph.Proofs.Client.Touch

/-!
Inert walks: nothing changes but which selections were handed out and touched. Whatever is
touched before a value is read, or instead of it, is.
-/
namespace LazyGraph

namespace Scene

/-- Nothing has changed but the forest, which has grown, and the selections that were touched, of
which the observers were told. -/
structure Inert (s t : Scene) : Prop where
  schema : t.schema = s.schema
  identityFields : t.identityFields = s.identityFields
  now : t.now = s.now
  cache : t.cache = s.cache
  notices : t.notices = s.notices
  roots : t.context.roots = s.context.roots
  freshness : t.context.freshness = s.context.freshness
  remembered : t.context.remembered = s.context.remembered
  held : t.context.held = s.context.held
  observers : t.context.observers = s.context.observers
  grown : s.forest.growth <+: t.forest.growth
  touched : ∃ new, t.context.selections = s.context.selections ++ new ∧
    t.context.told = s.context.told ++ new.flatMap fun x => s.context.observers.map (·, x)

variable {s t u : Scene}

theorem Inert.refl (s : Scene) : s.Inert s where
  schema := rfl
  identityFields := rfl
  now := rfl
  cache := rfl
  notices := rfl
  roots := rfl
  freshness := rfl
  remembered := rfl
  held := rfl
  observers := rfl
  grown := List.prefix_refl _
  touched := ⟨[], (List.append_nil _).symm, (List.append_nil _).symm⟩

theorem Inert.trans (h : s.Inert t) (h' : t.Inert u) : s.Inert u where
  schema := h'.schema.trans h.schema
  identityFields := h'.identityFields.trans h.identityFields
  now := h'.now.trans h.now
  cache := h'.cache.trans h.cache
  notices := h'.notices.trans h.notices
  roots := h'.roots.trans h.roots
  freshness := h'.freshness.trans h.freshness
  remembered := h'.remembered.trans h.remembered
  held := h'.held.trans h.held
  observers := h'.observers.trans h.observers
  grown := h.grown.trans h'.grown
  touched := by
    obtain ⟨new, hselected, htold⟩ := h.touched
    obtain ⟨new', hselected', htold'⟩ := h'.touched
    refine ⟨new ++ new', ?_, ?_⟩
    · rw [hselected', hselected, List.append_assoc]
    · rw [htold', htold, h.observers, List.flatMap_append, List.append_assoc]

theorem Inert.of_grown {forest : Selection.Forest} (h : s.forest.growth <+: forest.growth) :
    s.Inert { s with forest } :=
  { Inert.refl s with grown := h }

end Scene

/-! ### Touches -/

namespace Walk

variable {α β : Type} {s : Scene}

theorem inert_bind {m : Walk α} {f : α → Walk β} (h : s.Inert (m.run s).2)
    (hf : (m.run s).2.Inert ((f (m.run s).1).run (m.run s).2).2) :
    s.Inert ((m >>= f).run s).2 :=
  h.trans hf

theorem inert_select (x : Selection) (s : Scene) : s.Inert ((select x).run s).2 := by
  have hrun : ((select x).run s).2 = { s with context := s.context.select x } := rfl
  rw [hrun, Context.select]
  split
  · exact .refl s
  · refine { Scene.Inert.refl s with touched := ⟨[x], rfl, ?_⟩ }
    simp only [Context.tell, List.flatMap_cons, List.flatMap_nil, List.append_nil]

theorem inert_child (x : Selection) (key : Selection.Key) (arguments : Fields Selection.Argument)
    (isBranch : Bool) (s : Scene) : s.Inert ((child x key arguments isBranch).run s).2 := by
  have hgrown : s.forest.growth <+: (s.forest.child x key none arguments isBranch).2.growth := by
    rw [Selection.Forest.child]
    split
    · exact List.prefix_refl _
    · exact List.prefix_append _ _
  exact Scene.Inert.of_grown hgrown

theorem inert_newAccessor (selection : Selection) (type : String) (operation : Operation)
    (path : Option CachePath) (isPlaceholder : Bool) (s : Scene) :
    s.Inert ((newAccessor selection type operation path isPlaceholder).run s).2 :=
  { Scene.Inert.refl s with }

theorem inert_selectChild (x : Selection) (name : String) (s : Scene) :
    s.Inert ((child x (.field name) >>= select).run s).2 :=
  inert_bind (inert_child x (.field name) [] false s) (inert_select _ _)

theorem inert_selectIdentity (x : Selection) (type : String) (s : Scene) :
    s.Inert ((selectIdentity x type).run s).2 :=
  selectIdentity_induction (motive := s.Inert) (.refl s) fun name _ t _ ht =>
    ht.trans (inert_selectChild x name t)

theorem inert_register (x : Selection) (type : TypeRef) (s : Scene) :
    s.Inert ((register x type).run s).2 :=
  register_induction (motive := s.Inert) (inert_select x s) fun name _ t _ ht =>
    ht.trans (inert_selectChild x name t)

theorem inert_touchItem (l : ListAccessor) (position : Nat) (s : Scene) :
    s.Inert ((touchItem l position).run s).2 :=
  inert_bind (inert_child _ _ _ _ s) (inert_register _ _ _)

end Walk

end LazyGraph
