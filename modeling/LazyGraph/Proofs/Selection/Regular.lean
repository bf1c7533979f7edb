import LazyGraph.Accessor.Context
import LazyGraph.Proofs.Fields
import LazyGraph.Proofs.Selection.Tree

/-!
Forests whose nodes all have names of the query language and whose trees start with fields. Asking
for a field keeps them so, with arguments or without.
-/
namespace LazyGraph

namespace Schema

variable {schema : Schema} {type name : String} {d : FieldDef}

/-- The field of a type is its name, or one that the type declares. -/
theorem requireField_cases (h : schema.requireField type name = .ok d) :
    name = "__typename" ∧ d = typenameField ∨
      ∃ fs, (type, fs) ∈ schema.types ∧ (name, d) ∈ fs := by
  rw [requireField] at h
  split at h
  · exact .inl ⟨‹_›, (Except.ok.inj h).symm⟩
  · split at h
    · rename_i hfield
      obtain ⟨fs, hfs, hfield⟩ := Option.bind_eq_some_iff.mp hfield
      obtain rfl := Except.ok.inj h
      exact .inr ⟨fs, Fields.mem_of_get? hfs, Fields.mem_of_get? hfield⟩
    · cases h

theorem requireField_typename (schema : Schema) (type : String) :
    schema.requireField type "__typename" = .ok typenameField :=
  if_pos rfl

theorem exists_requireField {candidates : List String}
    (h : name ∈ schema.identityFields type candidates) :
    ∃ d, schema.requireField type name = .ok d := by
  obtain ⟨_, hfield⟩ := List.mem_filter.mp h
  obtain ⟨d, hd⟩ := Option.isSome_iff_exists.mp hfield
  rw [requireField]
  split
  · exact ⟨_, rfl⟩
  · rw [hd]
    exact ⟨d, rfl⟩

/-- All declared fields have names of the query language. -/
def HasGraphNames (schema : Schema) : Prop :=
  ∀ q ∈ schema.types, ∀ r ∈ q.2, Selection.isGraphName r.1 = true

theorem HasGraphNames.field (h : schema.HasGraphNames)
    (hd : schema.requireField type name = .ok d) : Selection.isGraphName name = true := by
  rcases requireField_cases hd with ⟨rfl, _⟩ | ⟨fs, hfs, hfield⟩
  · decide
  · exact h _ hfs _ hfield

/-- All possible types have names of the query language. -/
def HasGraphMembers (schema : Schema) : Prop :=
  ∀ q ∈ schema.possibleTypes, ∀ type ∈ q.2, Selection.isGraphName type = true

theorem HasGraphMembers.possible (h : schema.HasGraphMembers) {possible : String}
    (mem : possible ∈ schema.possibleTypesOf type) :
    Selection.isGraphName possible = true := by
  rw [possibleTypesOf] at mem
  cases hmembers : Fields.get? schema.possibleTypes type with
  | none =>
      rw [hmembers] at mem
      exact absurd mem List.not_mem_nil
  | some members =>
      rw [hmembers] at mem
      exact h _ (Fields.mem_of_get? hmembers) possible mem

end Schema

namespace Selection

theorem Node.label_of_plain {n : Node} {key : Key} (hkey : n.key = key) (halias : n.aliasName = none) :
    n.label = key.text := by
  rw [label, hkey, halias]
  rfl

theorem Node.isMarker_field {n : Node} {name : String} (hname : isGraphName name = true)
    (hkey : n.key = .field name) : n.isMarker = false := by
  rw [isMarker, hkey]
  refine decide_eq_false fun he => ?_
  obtain rfl := Key.field.inj he
  exact absurd hname (by decide)

theorem Node.isPlace_field {n : Node} {name : String} (hname : isGraphName name = true)
    (hkey : n.key = .field name) (hbranch : n.isBranch = false) : n.isPlace = true := by
  rw [isPlace, hkey, isMarker_field hname hkey, hbranch]
  rfl

/-- The selection stands right below another one. -/
structure Under (parent s : Selection) : Prop where
  above : s.above = parent.node :: parent.above
  aliasLength : s.aliasLength = parent.aliasLength

namespace Forest

variable {f : Forest} {roots : List Selection} {parent : Selection}

/-- A child is found where it was asked for, under the label of the request. -/
theorem Sound.child_under (h : f.Sound roots) (hp : parent ∈ f.handed roots) (key : Key)
    (aliasName : Option String) (arguments : Fields Argument) (isBranch : Bool) :
    parent.Under (f.child parent key aliasName arguments isBranch).1 ∧
      (f.child parent key aliasName arguments isBranch).1.node.label =
        (childAlias key aliasName arguments parent.aliasLength).getD key.text := by
  rw [Forest.child]
  split
  · rename_i s hs
    obtain ⟨g, hg, rfl⟩ := Option.map_eq_some_iff.mp hs
    have hfound := List.find?_some hg
    rw [Bool.and_eq_true, beq_iff_eq, beq_iff_eq] at hfound
    obtain ⟨p, hp', hunder⟩ := h.grown g (List.mem_of_find?_eq_some hg)
    obtain rfl := h.eq_of_id hp' hp (hunder.id.symm.trans hfound.1)
    exact ⟨⟨hunder.above, hunder.aliasLength⟩, hfound.2⟩
  · exact ⟨⟨rfl, rfl⟩, rfl⟩

/-- All nodes that were handed out have legal names, and a field stands at the top of each way. -/
structure Regular (f : Forest) (roots : List Selection) : Prop where
  grown : f.Grown roots
  legal : ∀ x ∈ f.handed roots, ∀ n ∈ x.ancestry, n.isLegal = true
  top : ∀ x ∈ f.handed roots, ∀ n ∈ x.ancestry[1]?, n.isPlace = true

theorem Regular.empty : ({} : Forest).Regular [] where
  grown := .empty
  legal _ hx := absurd hx List.not_mem_nil
  top _ hx := absurd hx List.not_mem_nil

/-- A root is planted. -/
theorem Regular.root (h : f.Regular roots) {key : String} (hkey : isGraphName key = true)
    (aliasLength : Nat) :
    (f.newRoot key aliasLength).2.Regular ((f.newRoot key aliasLength).1 :: roots) := by
  have hlegal : Node.isLegal { id := f.nextId, key := .field key } = true :=
    (Bool.and_eq_true _ _).mpr ⟨Bool.or_eq_true_iff.mpr (.inl hkey), rfl⟩
  constructor
  case grown => exact h.grown.root key aliasLength
  case legal =>
    exact List.forall_mem_cons.mpr ⟨List.forall_mem_singleton.mpr hlegal, h.legal⟩
  case top => exact List.forall_mem_cons.mpr ⟨nofun, h.top⟩

/-- A selection that is handed out with a child was so before, or is that child. -/
theorem mem_handed_child {key : Key} {aliasName : Option String} {arguments : Fields Argument}
    {isBranch : Bool} {x : Selection}
    (hx : x ∈ (f.child parent key aliasName arguments isBranch).2.handed roots) :
    x ∈ f.handed roots ∨
      (parent.Under x ∧ x.node =
        { id := f.nextId, key, aliasName := childAlias key aliasName arguments parent.aliasLength,
          arguments, isBranch }) := by
  rw [Forest.child] at hx
  split at hx
  · exact .inl hx
  · rw [mem_handed] at hx ⊢
    rcases hx with hx | ⟨g, hg, rfl⟩
    · exact .inl (.inl hx)
    · rcases List.mem_append.mp hg with hg | hg
      · exact .inl (.inr ⟨g, hg, rfl⟩)
      · rw [List.mem_singleton.mp hg]
        exact .inr ⟨⟨rfl, rfl⟩, rfl⟩

/-- A field is asked for. -/
theorem Regular.child (h : f.Regular roots) (hp : parent ∈ f.handed roots) {name : String}
    (hname : isGraphName name = true) (arguments : Fields Argument) :
    (f.child parent (.field name) none arguments false).2.Regular roots := by
  constructor
  case grown => exact (h.grown.ask hp (.field name) none arguments false).1
  case legal =>
    intro x hx
    rcases mem_handed_child hx with hx | ⟨hunder, hnode⟩
    · exact h.legal x hx
    · rw [ancestry_of_above hunder.above, hnode]
      exact List.forall_mem_append.mpr ⟨h.legal parent hp,
        List.forall_mem_singleton.mpr (Node.isLegal_field hname rfl arguments _ _ _)⟩
  case top =>
    intro x hx n hn
    rcases mem_handed_child hx with hx | ⟨hunder, hnode⟩
    · exact h.top x hx n hn
    · rw [ancestry_of_above hunder.above] at hn
      cases hparent : parent.above with
      | nil =>
          have hroot : parent.ancestry = [parent.node] := by
            rw [ancestry, hparent]
            rfl
          rw [hroot] at hn
          obtain rfl := Option.some.inj hn
          rw [hnode]
          exact Node.isPlace_field hname rfl rfl
      | cons m above =>
          have hlength : 1 < parent.ancestry.length := by
            rw [ancestry, hparent, List.length_reverse, List.length_cons, List.length_cons]
            exact Nat.succ_lt_succ (Nat.succ_pos _)
          rw [List.getElem?_append_left hlength] at hn
          exact h.top parent hp n hn

end Forest

end Selection

/-- The roots that a client plants, the last one first. -/
def Roots.all (r : Roots) : List Selection := [r.subscription, r.mutation, r.query]

theorem Roots.query_mem_all (r : Roots) : r.query ∈ r.all :=
  List.mem_cons_of_mem _ (List.mem_cons_of_mem _ List.mem_cons_self)

theorem Roots.mem_all {r : Roots} {x : Selection} : x ∈ r.all ↔ ∃ operation, r.get operation = x := by
  simp only [all, List.mem_cons, List.not_mem_nil, or_false]
  constructor
  · rintro (rfl | rfl | rfl)
    · exact ⟨.subscription, rfl⟩
    · exact ⟨.mutation, rfl⟩
    · exact ⟨.query, rfl⟩
  · rintro ⟨operation, rfl⟩
    cases operation <;> simp [get]

theorem Roots.regular_plant (aliasLength : Nat) :
    (plant {} aliasLength).2.Regular (plant {} aliasLength).1.all :=
  ((Selection.Forest.Regular.empty.root (by decide : Selection.isGraphName "query" = true)
    aliasLength).root (by decide : Selection.isGraphName "mutation" = true)
    aliasLength).root (by decide : Selection.isGraphName "subscription" = true) aliasLength

end LazyGraph
