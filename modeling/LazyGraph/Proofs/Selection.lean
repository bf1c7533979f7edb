import Mathlib.Data.List.Forall2
import Mathlib.Data.List.Nodup
import LazyGraph.Proofs.Text.Segments
import LazyGraph.Selection

/-!
Selections that plain field names lead to from the root of the query, and the forests that hand
them out.
-/
namespace LazyGraph

namespace Selection

/-- What a field of a schema can be called. -/
structure IsName (name : String) : Prop where
  undotted : '.' ∉ name.toList
  field : name ≠ unionMarker

instance : DecidablePred IsName := fun name =>
  decidable_of_iff ('.' ∉ name.toList ∧ name ≠ unionMarker)
    ⟨fun h => ⟨h.1, h.2⟩, fun h => ⟨h.undotted, h.field⟩⟩

/-- The node of a field without arguments. -/
structure Node.Names (n : Node) (name : String) : Prop where
  key : n.key = .field name
  aliasName : n.aliasName = none
  arguments : n.arguments = []
  isBranch : n.isBranch = false
  legal : IsName name

theorem Node.Names.label {n : Node} {name : String} (h : n.Names name) : n.label = name := by
  rw [Node.label, h.aliasName, h.key]
  rfl

/-- Field names lead from the root of the query to the selection. -/
def Leads (s : Selection) (way : List String) : Prop :=
  ∃ top nodes, s.ancestry = top :: nodes ∧ top.key = .field Operation.query.text ∧
    top.aliasName = none ∧ List.Forall₂ Node.Names nodes way

variable {s t : Selection} {way : List String}

theorem Leads.labels (h : s.Leads way) :
    s.ancestry.map (·.label) = Operation.query.text :: way := by
  obtain ⟨top, nodes, he, hkey, halias, hnodes⟩ := h
  have htop : top.label = Operation.query.text := by
    rw [Node.label, halias, hkey]
    rfl
  rw [he, List.map_cons, htop]
  refine congrArg _ ?_
  clear he
  induction hnodes with
  | nil => rfl
  | cons hn _ ih => rw [List.map_cons, hn.label, ih]

theorem Leads.eq {other : List String} (h : s.Leads way) (h' : s.Leads other) : way = other :=
  (List.cons.inj (h.labels.symm.trans h'.labels)).2

theorem Leads.legal (h : s.Leads way) : ∀ name ∈ way, IsName name := by
  obtain ⟨_, _, he, _, _, hnodes⟩ := h
  clear he
  induction hnodes with
  | nil => exact fun _ h => absurd h List.not_mem_nil
  | cons hn _ ih => exact List.forall_mem_cons.mpr ⟨hn.legal, ih⟩

/-- A signature tells the way. -/
theorem Leads.eq_of_signature {other : List String} (h : s.Leads way) (h' : t.Leads other)
    (hs : s.signature = t.signature) : way = other := by
  have hundotted : ∀ {x : Selection} {names : List String}, x.Leads names →
      Text.segments x.signature = Operation.query.text :: names := by
    intro x names hx
    rw [signature, hx.labels]
    refine Text.segments_dotted (List.cons_ne_nil _ _) (List.forall_mem_cons.mpr ⟨?_, ?_⟩)
    · decide
    · exact fun p hp => (hx.legal p hp).undotted
  have he := (hundotted h).symm.trans ((congrArg _ hs).trans (hundotted h'))
  exact (List.cons.inj he).2

theorem Leads.operation? (h : s.Leads way) : s.operation? = some .query := by
  obtain ⟨top, nodes, he, hkey, _⟩ := h
  have hroot : s.rootNode = top := by
    have hlast := congrArg List.head? he
    rw [ancestry, List.head?_reverse, List.getLast?_cons, ← List.getLastD_eq_getLast?] at hlast
    exact Option.some.inj hlast
  rw [Selection.operation?, hroot, hkey]
  rfl

theorem Leads.child (h : s.Leads way) {name : String} {n : Node} {length : Nat}
    (hn : n.Names name) :
    Leads { node := n, above := s.node :: s.above, aliasLength := length } (way ++ [name]) := by
  obtain ⟨top, nodes, he, hkey, halias, hnodes⟩ := h
  refine ⟨top, nodes ++ [n], ?_, hkey, halias, List.rel_append hnodes (.cons hn .nil)⟩
  rw [ancestry, List.reverse_cons, ← ancestry, he]
  rfl

/-! ### Forests -/

namespace Forest

/-- The root of the query with the nodes that were handed out below it. -/
def known (f : Forest) (root : Selection) : List Selection := root :: f.growth.map (·.child)

/-- Plain names lead to all that was handed out below the root of the query. -/
structure Plain (f : Forest) (root : Selection) : Prop where
  rooted : root.Leads []
  grown : ∀ g ∈ f.growth, ∃ parent ∈ f.known root, ∃ way name, g.parent = parent.id ∧
    parent.Leads way ∧ g.child.node.label = name ∧ g.child.Leads (way ++ [name])
  ids : ((f.known root).map (·.id)).Nodup
  earlier : ∀ x ∈ f.known root, x.id < f.nextId

variable {f : Forest} {root x y : Selection}

theorem Plain.leads (h : f.Plain root) (hx : x ∈ f.known root) : ∃ way, x.Leads way := by
  rcases List.mem_cons.mp hx with rfl | hx
  · exact ⟨[], h.rooted⟩
  · obtain ⟨g, hg, rfl⟩ := List.mem_map.mp hx
    obtain ⟨_, _, way, name, _, _, _, hleads⟩ := h.grown g hg
    exact ⟨_, hleads⟩

theorem Plain.eq_of_id (h : f.Plain root) (hx : x ∈ f.known root) (hy : y ∈ f.known root)
    (he : x.id = y.id) : x = y :=
  List.inj_on_of_nodup_map h.ids hx hy he

/-- The child that a name selects is known from then on, and the name leads to it. -/
theorem Plain.fieldChild (h : f.Plain root) (hx : x ∈ f.known root) (hway : x.Leads way)
    {name : String} (hname : IsName name) :
    (f.fieldChild x name).1 ∈ (f.fieldChild x name).2.known root ∧
      (f.fieldChild x name).1.Leads (way ++ [name]) ∧ (f.fieldChild x name).2.Plain root ∧
      f.known root ⊆ (f.fieldChild x name).2.known root := by
  simp only [Forest.fieldChild, Forest.child, childAlias, Option.getD_none]
  split
  · rename_i s hs
    obtain ⟨g, hg, rfl⟩ := Option.map_eq_some_iff.mp hs
    have hmem := List.mem_of_find?_eq_some hg
    have hfound := List.find?_some hg
    rw [Bool.and_eq_true] at hfound
    obtain ⟨parent, hp, way', name', hid, hleads, hlabel, hchild⟩ := h.grown g hmem
    obtain rfl := h.eq_of_id hp hx (hid.symm.trans (eq_of_beq hfound.1))
    obtain rfl := hleads.eq hway
    obtain rfl := hlabel.symm.trans (eq_of_beq hfound.2)
    exact ⟨List.mem_cons_of_mem _ (List.mem_map_of_mem hmem), hchild, h, List.Subset.refl _⟩
  · let child : Selection :=
      { node := { id := f.nextId, key := .field name }
        above := x.node :: x.above
        aliasLength := x.aliasLength }
    have hchild : child.Leads (way ++ [name]) := hway.child ⟨rfl, rfl, rfl, rfl, hname⟩
    have hknown : ({ nextId := f.nextId + 1, growth := f.growth ++ [{ parent := x.id, child }] } :
        Forest).known root = f.known root ++ [child] := by
      rw [known, List.map_append]
      rfl
    refine ⟨?_, hchild, ⟨h.rooted, fun g hg => ?_, ?_, ?_⟩, ?_⟩
    · exact hknown ▸ List.mem_append_right _ (List.mem_singleton.mpr rfl)
    · rw [hknown]
      rcases List.mem_append.mp hg with hg | hg
      · obtain ⟨parent, hp, rest⟩ := h.grown g hg
        exact ⟨parent, List.mem_append_left _ hp, rest⟩
      · rw [List.mem_singleton.mp hg]
        exact ⟨x, List.mem_append_left _ hx, way, name, rfl, hway, rfl, hchild⟩
    · rw [hknown, List.map_append, List.nodup_append]
      refine ⟨h.ids, List.nodup_singleton _, ?_⟩
      intro a ha b hb
      obtain ⟨y, hy, rfl⟩ := List.mem_map.mp ha
      rw [List.mem_singleton.mp hb]
      exact Nat.ne_of_lt (h.earlier y hy)
    · rw [hknown]
      intro y hy
      rcases List.mem_append.mp hy with hy | hy
      · exact Nat.lt_succ_of_lt (h.earlier y hy)
      · rw [List.mem_singleton.mp hy]
        exact Nat.lt_succ_self _
    · rw [hknown]
      exact List.subset_append_left _ _

end Forest
end Selection
end LazyGraph
