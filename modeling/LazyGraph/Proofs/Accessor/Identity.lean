import LazyGraph.Proofs.Accessor.Pass
import LazyGraph.Proofs.Document.Memory

/-!
Which fields of a document ask for the identity of their values. Of the fields of composite type
they are exactly those that a read of the pass opened; the others have no fields below them.
-/
namespace LazyGraph

namespace Document

/-- A read opened the value at the end of a way down. -/
def Opened (d : Document) (log : List Sight) (way : List Head) : Prop :=
  ∃ v ∈ log, v.Opens ∧ v.selection.operation? = some d.operation ∧
    (d.headsOf v.selection).map Head.text = way.map Head.text

/-- Each field has a type. If that is composite, then its identity is among the children exactly
where a read opened the field, and nothing is elsewhere. -/
def IdentifiesOpened (d : Document) (schema : Schema) (candidates : List String)
    (log : List Sight) : Prop :=
  ∀ way head t, d.fields.Holds (way ++ [head]) t → head.isField = true →
    ∃ type, schema.typeAt? d.operation.text (way ++ [head]) = some type ∧
      (schema.kind type ≠ .scalar →
        ((∀ name ∈ schema.identity candidates type, (t.below? name).isSome) ↔
          d.Opened log (way ++ [head])) ∧
        (t.isEmpty = false ↔ d.Opened log (way ++ [head])))

/-- Of each field the identity is among the children, whatever was read. -/
def IdentifiesAll (d : Document) (schema : Schema) (candidates : List String) : Prop :=
  ∀ way head t, d.fields.Holds (way ++ [head]) t → head.isField = true →
    ∀ type, schema.typeAt? d.operation.text (way ++ [head]) = some type →
      ∀ name ∈ schema.identity candidates type, (t.below? name).isSome

end Document

namespace Recorded

open Document (Head exists_trunk headsOf_concat operation?_of_trunk)
open Document.FieldTree (Holds)

variable {start s : Scene} {log : List Sight} {documents : List Document} {d : Document}
  {operationName : Option String}

/-- What was selected can be compiled. -/
theorem gathered (h : Recorded start s log) : Selection.Gathered s.context.selections := by
  refine h.tended.forest.gathered h.tended.proper ?_ h.tended.known
  obtain ⟨aliasLength, hroots⟩ := h.planted
  rw [hroots]
  have hoperation : ∀ operation : Operation,
      ((Roots.plant {} aliasLength).1.get operation).operation? = some operation := by
    intro operation
    cases operation <;> rfl
  intro r hr r' hr' he
  obtain ⟨operation, rfl⟩ := Roots.mem_all.mp hr
  obtain ⟨other, rfl⟩ := Roots.mem_all.mp hr'
  rw [hoperation, hoperation, Option.some.injEq] at he
  rw [he]

theorem mem_arrange (h : Recorded start s log) {x : Selection} :
    x ∈ Document.arrange s.context.selections ↔ x ∈ s.context.selections := by
  have hg := h.gathered
  refine Document.Sound.mem_arrange_of_undotted h.tended.forest.sound h.tended.known hg.tree ?_
  exact fun x hx n hn => Selection.Node.undotted_label (hg.legal x hx n hn)

/-- A sight whose heads end on a field is one of a field or of an item. -/
theorem isRead (h : Recorded start s log) {v : Sight} (hv : v ∈ log) {way : List Head} {head : Head}
    (hfield : head.isField = true) (hlegal : head.isLegal = true)
    (htexts : (d.headsOf v.selection).map Head.text = (way ++ [head]).map Head.text) :
    v.IsRead := by
  have hstands := (h.seen v hv).1.stands
  constructor
  · intro habove
    rw [d.headsOf_root hstands habove] at htexts
    exact absurd htexts.symm (by simp)
  · rw [← Bool.not_eq_true]
    intro hbranch
    obtain ⟨before, possible, hheads⟩ := d.exists_headsOf_branch h.tended.proper hstands hbranch
    rw [hheads, List.map_append, List.map_append] at htexts
    have htext := (List.cons.inj (List.append_inj' htexts rfl).2).1
    cases head with
    | field aliasName name arguments => exact Head.field_ne_branch hlegal htext.symm
    | branch type => cases hfield

section

variable (h : Recorded start s log)
  (hd : Document.ofArranged (Document.arrange s.context.selections) operationName = .ok documents)
  (hm : d ∈ documents) {way : List Head} {t : Document.FieldTree} (hway : d.fields.Holds way t)

include h hd hm hway

/-- What stands below a field was selected below an opened value. -/
theorem opened_of_child {text : String} (hbelow : (t.below? text).isSome) :
    d.Opened log way := by
  have hat := (Document.ordered_fields hd hm).at?_of_holds hway
  have hdeep : (d.fields.at? (way.map Head.text ++ [text])).isSome := by
    rw [Document.FieldTree.at?_concat, hat]
    exact hbelow
  obtain ⟨x, hx, ho, hpre⟩ := Document.exists_of_isSome_at? hd hm (by simp) hdeep
  have hx := h.mem_arrange.mp hx
  obtain ⟨standing, hstands⟩ := h.tended.forest.stands x (h.tended.known hx)
  obtain ⟨rest, htrunk, hheads⟩ := exists_trunk hstands
  have hwritten : ∀ n ∈ rest, n.isWritten = true := by
    intro n hn
    have hmem : n ∈ x.trunk := htrunk ▸ List.mem_cons_of_mem _ hn
    exact (List.mem_filter.mp hmem).2
  rw [hheads] at hpre
  obtain ⟨before, n, after, rfl, hbefore⟩ := Document.exists_split hwritten hpre
  obtain ⟨v, hv, hopens, hsame⟩ := h.selected x hx (x.rootNode :: before) n after htrunk
    (List.cons_ne_nil _ _)
  have hseen := (h.seen v hv).1.stands
  obtain ⟨others, hothers, hotherHeads⟩ := exists_trunk hseen
  obtain ⟨_, rfl⟩ := List.cons.inj (hothers.symm.trans hsame)
  refine ⟨v, hv, hopens, ?_, ?_⟩
  · have hlonger : x.trunk = v.selection.trunk ++ n :: after := by
      rw [htrunk, hsame]
      rfl
    rw [← ho, operation?_of_trunk hstands hseen hlonger]
  · rw [hotherHeads, hbefore]

/-- Below an opened value stand the fields that identify it. -/
theorem children_of_opened {before : List Head} {head : Head} (he : way = before ++ [head])
    (hfield : head.isField = true) (hopened : d.Opened log way) :
    ∃ type, s.schema.typeAt? d.operation.text way = some type ∧
      ∀ name ∈ s.schema.identity s.identityFields type, (t.below? name).isSome := by
  have hg := h.gathered.mono fun x hx => h.mem_arrange.mp hx
  have hat := (Document.ordered_fields hd hm).at?_of_holds hway
  have hlegal := (Document.legal_fields hd hm hg).of_holds hway
  obtain ⟨v, hv, hopens, ho, htexts⟩ := hopened
  have hseen := (h.seen v hv).1.stands
  have hread : v.IsRead := by
    subst he
    exact h.isRead hv hfield (hlegal head (List.mem_append_right _ List.mem_cons_self)) htexts
  have htype := d.typeAt?_headsOf h.tended.proper hseen ho
  rw [Schema.typeAt?_eq_of_texts (d.legal_headsOf h.tended.proper hseen) hlegal htexts] at htype
  refine ⟨v.type.name, htype, fun name hname => ?_⟩
  obtain ⟨x, hx, n, htrunk, hnames⟩ := h.wants v hv hopens hread name hname
  obtain ⟨standing, hstands⟩ := h.tended.forest.stands x (h.tended.known hx)
  obtain ⟨vs, hheads⟩ := headsOf_concat d hstands hseen htrunk
  rw [Document.heads_eq (.cons hnames .nil)] at hheads
  have hxtexts : (d.headsOf x).map Head.text = way.map Head.text ++ [name] := by
    rw [hheads, List.map_append, htexts]
    simp
  obtain ⟨first, rest, hfirst⟩ : ∃ first rest, way = first :: rest := by
    subst he
    exact List.exists_cons_of_ne_nil (by simp)
  have htop : (d.fields.at? [first.text]).isSome := by
    rw [hfirst, List.map_cons, Document.FieldTree.at?] at hat
    obtain ⟨u, hu, _⟩ := Option.bind_eq_some_iff.mp hat
    rw [Document.FieldTree.at?, hu]
    rfl
  have hall : first.text :: (rest.map Head.text ++ [name]) = (d.headsOf x).map Head.text := by
    rw [hxtexts, hfirst]
    rfl
  have hxo : x.operation? = some d.operation :=
    (operation?_of_trunk hstands hseen htrunk).trans ho
  have hpre : first.text :: (rest.map Head.text ++ [name]) <+: (d.headsOf x).map Head.text := by
    rw [hall]
  have hdeep := Document.isSome_at?_of_top hd hm hg (h.mem_arrange.mpr hx) hxo htop hpre
  rw [hall, hxtexts, Document.FieldTree.at?_concat, hat] at hdeep
  exact hdeep

end

end Recorded

/-- Whatever is read in a pass, in every document that is compiled from its selections the identity
of the values stands below exactly those fields of composite type that a read opened, and nothing
stands below the others. -/
theorem Pass.identifiesOpened {start s : Scene} {log : List Sight} (fresh : start.Fresh)
    (proper : start.schema.Proper start.aliasLength) (pass : Pass start s log)
    (operationName : Option String) :
    ∃ documents, Document.compile s.context.selections operationName = .ok documents ∧
      ∀ d ∈ documents, d.IdentifiesOpened start.schema start.identityFields log := by
  have h := pass.recorded fresh proper
  have hg := h.gathered.mono fun x hx => h.mem_arrange.mp hx
  obtain ⟨documents, hd⟩ := Document.exists_ofArranged hg.operation operationName
  refine ⟨documents, hd, fun d hm way head t hway hfield => ?_⟩
  have hstands : ∀ x ∈ Document.arrange s.context.selections, ∃ standing, x.Stands s.schema standing :=
    fun x hx => h.tended.forest.stands x (h.tended.known (h.mem_arrange.mp hx))
  rw [← h.schema, ← h.identityFields]
  obtain ⟨type, htype⟩ := d.exists_typeAt? h.tended.proper hd hm hg hstands hway
  refine ⟨type, htype, fun hkind => ?_⟩
  have hidentity : d.Opened log (way ++ [head]) →
      ∀ name ∈ s.schema.identity s.identityFields type, (t.below? name).isSome := by
    intro hopened
    obtain ⟨type', htype', hall⟩ := h.children_of_opened hd hm hway rfl hfield hopened
    obtain rfl := Option.some.inj (htype.symm.trans htype')
    exact hall
  have htypename : "__typename" ∈ s.schema.identity s.identityFields type := by
    rw [Schema.identity]
    split
    · exact List.mem_cons_self
    · exact List.mem_cons_self
    · exact absurd ‹_› hkind
  refine ⟨⟨fun hall => ?_, hidentity⟩, fun hfull => ?_, fun hopened => ?_⟩
  · exact h.opened_of_child hd hm hway (hall _ htypename)
  · obtain ⟨child, hchild⟩ := List.isEmpty_eq_false_iff_exists_mem.mp hfull
    have hbelow : (t.below? child.1.text).isSome := by
      rw [Document.FieldTree.below?, Option.isSome_map, List.find?_isSome]
      exact ⟨child, hchild, beq_self_eq_true _⟩
    exact h.opened_of_child hd hm hway hbelow
  · obtain ⟨u, hu⟩ := Option.isSome_iff_exists.mp (hidentity hopened _ htypename)
    obtain ⟨child, hchild, _⟩ := Option.map_eq_some_iff.mp hu
    exact List.isEmpty_eq_false_iff_exists_mem.mpr ⟨child, List.mem_of_find?_eq_some hchild⟩

/-! ### A shop without items -/

namespace Shop

def schema : Schema :=
  { types := [("Item", [("id", { type := "ID" }), ("name", { type := "String" }),
        ("date_added", { type := "String" })]),
      ("query", [("best", { type := "Item" }),
        ("items", { type := "[Item]", arguments := [("first", "Int")] })])] }

def best : Json := .object [("__typename", .string "Item"), ("id", .int 1)]

def stored : Cache :=
  (Cache.new {}).after 0
    [.set (.object [("query", .object [("best", best), ("items", .null)])]) false]

def start : Scene :=
  let (roots, forest) := Roots.plant {} Selection.defaultAliasLength
  { schema, identityFields := ["id"], now := 0, forest, cache := stored, context := { roots } }

def reader : Accessor := ((Accessor.root .query).run start).1

/-- The best item is read, and then the items, which are null. -/
def looks : List Look := [.root .query, .field reader "best" [], .field reader "items" []]

def entered : Scene := start.afterLooks (looks.take 1)

def found : Scene := start.afterLooks (looks.take 2)

def log : List Sight :=
  (Look.root .query).sights start ++ (Look.field reader "best" []).sights entered ++
    (Look.field reader "items" []).sights found

theorem fresh : start.Fresh := ⟨⟨Selection.defaultAliasLength, rfl⟩, rfl⟩

/-- Only the items have arguments, and no field is called like them up to a mark. -/
theorem proper : start.schema.Proper start.aliasLength := by
  constructor
  case fields =>
    have hnames : ∀ q ∈ schema.types, ∀ r ∈ q.2, Selection.isGraphName r.1 = true := by decide
    exact hnames
  case members => exact fun _ h => absurd h List.not_mem_nil
  case aliases =>
    have hitems : ∀ q ∈ schema.types, ∀ r ∈ q.2, r.2.arguments ≠ [] → r.1 = "items" := by decide
    have hunlike : ∀ q ∈ schema.types, ∀ r ∈ q.2, ¬"items_".toList <+: r.1.toList := by decide
    intro type name other d e hd he arguments hne hdeclares halias
    have harguments : e.arguments ≠ [] := by
      intro hnil
      obtain ⟨a, rest, rfl⟩ := List.exists_cons_of_ne_nil hne
      have hdeclared := hdeclares a List.mem_cons_self
      rw [hnil] at hdeclared
      cases hdeclared
    rcases Schema.requireField_cases he with ⟨_, rfl⟩ | ⟨fs, hfs, hother⟩
    · exact harguments rfl
    obtain rfl := hitems _ hfs _ hother harguments
    rcases Schema.requireField_cases hd with ⟨rfl, _⟩ | ⟨fs, hfs, hname⟩
    · exact Selection.generatedAlias_ne_typename halias.symm
    · refine hunlike _ hfs _ hname ?_
      obtain ⟨digits, htext, _⟩ := Selection.toList_generatedAlias "items" arguments
        start.aliasLength
      refine ⟨digits, ?_⟩
      rw [halias, htext]
      rfl

theorem pass : Pass start (start.afterLooks looks) log := by
  have hentered : Pass start entered ((Look.root .query).sights start) :=
    .look .start (.root .query) trivial
  have hreader : FieldValue.object (some reader) ∈ ((Look.root .query).sights start).map (·.value) :=
    List.mem_singleton.mpr rfl
  have hfound := hentered.look (.field reader "best" []) hreader
  have hlater : FieldValue.object (some reader) ∈ ((Look.root .query).sights start ++
      (Look.field reader "best" []).sights entered).map (·.value) := by
    rw [List.map_append]
    exact List.mem_append_left _ hreader
  exact hfound.look (.field reader "items" []) hlater

/-- The only document asks for the identity of the best item, and for nothing below the items. -/
theorem compiled : ∃ d t u, Document.compile (start.afterLooks looks).context.selections none = .ok [d] ∧
    d.operation = .query ∧ d.fields.children = [(Document.plain "best", t), (Document.plain "items", u)] ∧
    t.isEmpty = false ∧ u.isEmpty = true := by
  have hsorted : (start.afterLooks looks).context.selections.Pairwise
      (·.signature < ·.signature) := by
    decide +kernel
  have hshape : (Document.ofArranged (start.afterLooks looks).context.selections none).toOption.map
      (·.map fun d => (d.operation, d.fields.children.map fun q => (q.1, q.2.isEmpty))) =
      some [(.query, [(Document.plain "best", false), (Document.plain "items", true)])] := by
    decide +kernel
  rw [Document.compile, Document.arrange_of_sorted hsorted]
  cases hresult : Document.ofArranged (start.afterLooks looks).context.selections none with
  | error e =>
      rw [hresult] at hshape
      cases hshape
  | ok documents =>
      rw [hresult] at hshape
      obtain ⟨d, rfl, hd⟩ := List.map_eq_singleton_iff.mp (Option.some.inj hshape)
      obtain ⟨hoperation, hchildren⟩ := Prod.mk.inj hd
      obtain ⟨⟨head, t⟩, rest, he, hfirst, hrest⟩ := List.map_eq_cons_iff.mp hchildren
      obtain ⟨⟨other, u⟩, rfl, hsecond⟩ := List.map_eq_singleton_iff.mp hrest
      obtain ⟨rfl, ht⟩ := Prod.mk.inj hfirst
      obtain ⟨rfl, hu⟩ := Prod.mk.inj hsecond
      exact ⟨d, t, u, rfl, hoperation, he, ht, hu⟩

theorem typeAt?_best : start.schema.typeAt? "query" [Document.plain "best"] = some "Item" := by
  decide +kernel

theorem typeAt?_items : start.schema.typeAt? "query" [Document.plain "items"] = some "Item" := by
  decide +kernel

/-- The best item was opened, and the items were not. -/
theorem identifiesOpened_best :
    (start.Fresh ∧ start.schema.Proper start.aliasLength ∧ Pass start (start.afterLooks looks) log) ∧
    ∃ d, Document.compile (start.afterLooks looks).context.selections none = .ok [d] ∧
      d.IdentifiesOpened start.schema start.identityFields log ∧
      d.Opened log [Document.plain "best"] ∧ ¬d.Opened log [Document.plain "items"] := by
  obtain ⟨d, t, u, hcompile, hoperation, hchildren, ht, hu⟩ := compiled
  obtain ⟨documents, hdocuments, hall⟩ := Pass.identifiesOpened fresh proper pass none
  obtain rfl := Except.ok.inj (hcompile.symm.trans hdocuments)
  have hd := hall d List.mem_cons_self
  have hkind : start.schema.kind "Item" ≠ .scalar := by decide +kernel
  refine ⟨⟨fresh, proper, pass⟩, d, hcompile, hd, ?_, ?_⟩
  · have hbest : d.fields.Holds ([] ++ [Document.plain "best"]) t :=
      .child (hchildren ▸ List.mem_cons_self) (.here t)
    obtain ⟨type, htype, hidentity⟩ := hd [] _ t hbest rfl
    rw [List.nil_append, hoperation] at htype
    obtain rfl := Option.some.inj (typeAt?_best.symm.trans htype)
    exact (hidentity hkind).2.mp ht
  · have hitems : d.fields.Holds ([] ++ [Document.plain "items"]) u :=
      .child (hchildren ▸ List.mem_cons_of_mem _ List.mem_cons_self) (.here u)
    obtain ⟨type, htype, hidentity⟩ := hd [] _ u hitems rfl
    rw [List.nil_append, hoperation] at htype
    obtain rfl := Option.some.inj (typeAt?_items.symm.trans htype)
    intro hopened
    rw [(hidentity hkind).2.mpr hopened] at hu
    cases hu

/-- The items are null, so nothing identifies them. -/
theorem items_unidentified :
    start.Fresh ∧ start.schema.Proper start.aliasLength ∧ Pass start (start.afterLooks looks) log ∧
    start.schema.kind "Item" = .object ∧
    ∃ d, Document.compile (start.afterLooks looks).context.selections none = .ok [d] ∧
      ¬d.IdentifiesAll start.schema start.identityFields := by
  obtain ⟨d, t, u, hcompile, hoperation, hchildren, _, hu⟩ := compiled
  refine ⟨fresh, proper, pass, by decide +kernel, d, hcompile, fun hall => ?_⟩
  have hitems : d.fields.Holds ([] ++ [Document.plain "items"]) u :=
    .child (hchildren ▸ List.mem_cons_of_mem _ List.mem_cons_self) (.here u)
  have htypename : "__typename" ∈ start.schema.identity start.identityFields "Item" := by
    decide +kernel
  have hchild := hall [] _ u hitems rfl "Item" (by
    rw [hoperation]
    exact typeAt?_items) "__typename" htypename
  cases u with
  | node children =>
      obtain rfl : children = [] := List.isEmpty_iff.mp hu
      cases hchild

end Shop

end LazyGraph
