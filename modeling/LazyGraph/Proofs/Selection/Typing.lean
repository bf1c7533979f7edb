import LazyGraph.Proofs.Selection.Regular

/-!
The types of selections. A schema tells what stands at each node of a tree: a value of a type, or
the choice among the possible types of one. Asking for a field, an item or a branch gives a node
that stands for it, whatever was handed out before.
-/
namespace LazyGraph

/-- A named type without wrappers. -/
def TypeRef.named (name : String) : TypeRef := { name, listDepth := 0, nullable := true }

namespace Selection

variable {name other : String} {arguments others : Fields Argument} {length : Nat}

/-! ### Generated aliases -/

theorem underscore_not_mem_hexDigits : '_' ∉ hexDigits := by decide

/-- What stands before the last mark is told by the whole. -/
theorem eq_of_append_mark {as bs xs ys : List Char} (hx : '_' ∉ xs) (hy : '_' ∉ ys)
    (h : as ++ '_' :: xs = bs ++ '_' :: ys) : as = bs ∧ xs = ys := by
  rcases List.append_eq_append_iff.mp h with ⟨cs, hcs, hrest⟩ | ⟨cs, hcs, hrest⟩
  · cases cs with
    | nil => exact ⟨(hcs.trans (List.append_nil as)).symm, (List.cons.inj hrest).2⟩
    | cons c cs =>
        have hmem : '_' ∈ xs := by
          rw [(List.cons.inj hrest).2]
          exact List.mem_append_right _ List.mem_cons_self
        exact absurd hmem hx
  · cases cs with
    | nil => exact ⟨hcs.trans (List.append_nil bs), (List.cons.inj hrest).2.symm⟩
    | cons c cs =>
        have hmem : '_' ∈ ys := by
          rw [(List.cons.inj hrest).2]
          exact List.mem_append_right _ List.mem_cons_self
        exact absurd hmem hy

theorem generatedAlias_injective (h : generatedAlias (.field name) arguments length =
    generatedAlias (.field other) others length) : name = other := by
  obtain ⟨digits, htext, hdigits⟩ := toList_generatedAlias name arguments length
  obtain ⟨digits', htext', hdigits'⟩ := toList_generatedAlias other others length
  have he : name.toList ++ '_' :: digits = other.toList ++ '_' :: digits' := by
    rw [← htext, ← htext', h]
  have hsame := eq_of_append_mark (fun hm => underscore_not_mem_hexDigits (hdigits _ hm))
    (fun hm => underscore_not_mem_hexDigits (hdigits' _ hm)) he
  exact String.toList_inj.mp hsame.1

theorem generatedAlias_ne_typename : generatedAlias (.field name) arguments length ≠ "__typename" := by
  intro h
  obtain ⟨digits, htext, hdigits⟩ := toList_generatedAlias name arguments length
  have he : name.toList ++ '_' :: digits = ['_'] ++ '_' :: "typename".toList := by
    rw [← htext, h]
    rfl
  have hsame := eq_of_append_mark (fun hm => underscore_not_mem_hexDigits (hdigits _ hm))
    (by decide) he
  have ht : 't' ∈ digits := by
    rw [hsame.2]
    decide
  exact absurd (hdigits _ ht) (by decide)

theorem position_of_text {i j : Nat} (h : (Key.index i).text = (Key.index j).text) : i = j := by
  have hdigits : i.repr.toList = j.repr.toList := congrArg String.toList h
  rw [Nat.toList_repr, Nat.toList_repr] at hdigits
  have hnumber := congrArg (Nat.ofDigitChars 10 · 0) hdigits
  simpa only [Nat.ofDigitChars_ten_toDigits] using hnumber

/-- The alias of a field is the one that its arguments generate. -/
def Node.Aliased (n : Node) (name : String) (length : Nat) : Prop :=
  (n.aliasName = none ∧ n.arguments = []) ∨
    (n.arguments ≠ [] ∧ n.aliasName = some (generatedAlias (.field name) n.arguments length))

theorem aliased_childAlias (id : Nat) (isBranch : Bool) (name : String)
    (arguments : Fields Argument) (length : Nat) :
    Node.Aliased
      { id, key := .field name, aliasName := childAlias (.field name) none arguments length
        arguments, isBranch } name length := by
  cases arguments with
  | nil => exact .inl ⟨rfl, rfl⟩
  | cons a arguments => exact .inr ⟨List.cons_ne_nil _ _, rfl⟩

end Selection

/-! ### Standings -/

/-- The arguments are declared, with the types that they have. -/
def FieldDef.Declares (d : FieldDef) (arguments : Fields Selection.Argument) : Prop :=
  ∀ a ∈ arguments, Fields.get? d.arguments a.1 = some a.2.type

namespace Schema

open Selection (Node isGraphName generatedAlias)

/-- All names are names of the query language, and no field is called like the alias that declared
arguments generate for another field of its type. -/
structure Proper (schema : Schema) (length : Nat) : Prop where
  fields : schema.HasGraphNames
  members : schema.HasGraphMembers
  aliases : ∀ {type name other : String} {d e : FieldDef},
    schema.requireField type name = .ok d → schema.requireField type other = .ok e →
    ∀ arguments, arguments ≠ [] → e.Declares arguments →
      name ≠ generatedAlias (.field other) arguments length

/-- What a node stands for: a value, or the choice among the possible types of an abstract one. -/
inductive Standing
  | value (type : TypeRef)
  | choice (type : String)

/-- What a node stands for below another one. -/
inductive Below (schema : Schema) (length : Nat) : Standing → Node → Standing → Prop
  | field {type : TypeRef} {n : Node} {name : String} {d : FieldDef} (single : type.isList = false)
    (declared : schema.requireField type.name name = .ok d) (key : n.key = .field name)
    (arguments : d.Declares n.arguments) (aliasName : n.Aliased name length)
    (isBranch : n.isBranch = false) : Below schema length (.value type) n (.value d.typeRef)
  | item {type : TypeRef} {n : Node} {position : Nat} (list : type.isList = true)
    (key : n.key = .index position) (aliasName : n.aliasName = none) (isBranch : n.isBranch = false) :
    Below schema length (.value type) n (.value type.item)
  | choice {type : TypeRef} {n : Node} (single : type.isList = false)
    (key : n.key = .field unionMarker) (aliasName : n.aliasName = none)
    (isBranch : n.isBranch = false) : Below schema length (.value type) n (.choice type.name)
  | branch {type : String} {n : Node} {possible : String}
    (mem : possible ∈ schema.possibleTypesOf type) (key : n.key = .field possible)
    (aliasName : n.aliasName = none) (isBranch : n.isBranch = true) :
    Below schema length (.choice type) n (.value (.named possible))

/-- What the first of nodes stands for, the others above it. Right below a root stands a place. -/
inductive Stands (schema : Schema) (length : Nat) : List Node → Standing → Prop
  | root {n : Node} (operation : Operation) (key : n.key = .field operation.text)
    (aliasName : n.aliasName = none) (isBranch : n.isBranch = false) :
    Stands schema length [n] (.value (.named operation.text))
  | child {n m : Node} {above : List Node} {standing next : Standing}
    (parent : Stands schema length (m :: above) standing)
    (node : Below schema length standing n next) (top : above = [] → n.isPlace = true) :
    Stands schema length (n :: m :: above) next

variable {schema : Schema} {length : Nat} {standing a b : Standing} {n m : Node}

theorem Proper.possible (proper : schema.Proper length) {type possible : String}
    (mem : possible ∈ schema.possibleTypesOf type) : isGraphName possible = true :=
  HasGraphMembers.possible proper.members mem

theorem isGraphName_ne_marker {name : String} (h : isGraphName name = true) : name ≠ unionMarker := by
  rintro rfl
  exact absurd h (by decide)

/-- The label of a declared field tells the field and whether it has an alias. -/
theorem Proper.field_of_label (proper : schema.Proper length) {type name other : String}
    {d e : FieldDef} (hd : schema.requireField type name = .ok d)
    (he : schema.requireField type other = .ok e) (hn : n.key = .field name)
    (hm : m.key = .field other) (hdn : d.Declares n.arguments) (hem : e.Declares m.arguments)
    (han : n.Aliased name length) (ham : m.Aliased other length) (hlabel : n.label = m.label) :
    name = other ∧ n.aliasName = m.aliasName := by
  rcases han with ⟨han, _⟩ | ⟨hne, han⟩
  · rw [Node.label_of_plain hn han] at hlabel
    rcases ham with ⟨ham, _⟩ | ⟨hne, ham⟩
    · rw [Node.label_of_plain hm ham] at hlabel
      exact ⟨hlabel, han.trans ham.symm⟩
    · rw [Node.label, ham] at hlabel
      exact absurd hlabel (proper.aliases hd he _ hne hem)
  · rw [Node.label, han] at hlabel
    rcases ham with ⟨ham, _⟩ | ⟨_, ham⟩
    · rw [Node.label_of_plain hm ham] at hlabel
      exact absurd hlabel.symm (proper.aliases he hd _ hne hdn)
    · rw [Node.label, ham] at hlabel
      refine ⟨Selection.generatedAlias_injective hlabel, ?_⟩
      rw [han, ham]
      exact congrArg some hlabel

theorem Proper.label_ne_marker (proper : schema.Proper length) {type name : String} {d : FieldDef}
    (hd : schema.requireField type name = .ok d) (hn : n.key = .field name)
    (han : n.Aliased name length) : n.label ≠ unionMarker := by
  have hname := proper.fields.field hd
  rcases han with ⟨han, _⟩ | ⟨_, han⟩
  · rw [Node.label_of_plain hn han]
    exact isGraphName_ne_marker hname
  · rw [Node.label, han]
    exact isGraphName_ne_marker (Selection.isGraphName_generatedAlias hname _ _)

/-- Side by side, a label tells the request and what the node stands for: lists have items alone,
choices branches alone, and beside fields there may be the choice. -/
theorem Below.alike (proper : schema.Proper length) (h : schema.Below length standing n a)
    (h' : schema.Below length standing m b) (hlabel : n.label = m.label) :
    n.key = m.key ∧ n.aliasName = m.aliasName ∧ n.isBranch = m.isBranch ∧ a = b := by
  cases h with
  | field single declared key arguments aliasName isBranch =>
      cases h' with
      | field _ declared' key' arguments' aliasName' isBranch' =>
          obtain ⟨rfl, halias⟩ := proper.field_of_label declared declared' key key' arguments
            arguments' aliasName aliasName' hlabel
          obtain rfl := Except.ok.inj (declared.symm.trans declared')
          exact ⟨key.trans key'.symm, halias, isBranch.trans isBranch'.symm, rfl⟩
      | item list => exact absurd list (by rw [single]; decide)
      | choice _ key' aliasName' =>
          rw [Node.label_of_plain key' aliasName'] at hlabel
          exact absurd hlabel (proper.label_ne_marker declared key aliasName)
  | item list key aliasName isBranch =>
      cases h' with
      | field single => exact absurd list (by rw [single]; decide)
      | item _ key' aliasName' isBranch' =>
          rw [Node.label_of_plain key aliasName, Node.label_of_plain key' aliasName'] at hlabel
          obtain rfl := Selection.position_of_text hlabel
          exact ⟨key.trans key'.symm, aliasName.trans aliasName'.symm,
            isBranch.trans isBranch'.symm, rfl⟩
      | choice single => exact absurd list (by rw [single]; decide)
  | choice single key aliasName isBranch =>
      cases h' with
      | field _ declared' key' _ aliasName' =>
          rw [Node.label_of_plain key aliasName] at hlabel
          exact absurd hlabel.symm (proper.label_ne_marker declared' key' aliasName')
      | item list => exact absurd list (by rw [single]; decide)
      | choice _ key' aliasName' isBranch' =>
          exact ⟨key.trans key'.symm, aliasName.trans aliasName'.symm,
            isBranch.trans isBranch'.symm, rfl⟩
  | branch _ key aliasName isBranch =>
      cases h' with
      | branch _ key' aliasName' isBranch' =>
          rw [Node.label_of_plain key aliasName, Node.label_of_plain key' aliasName'] at hlabel
          obtain rfl : _ = _ := hlabel
          exact ⟨key.trans key'.symm, aliasName.trans aliasName'.symm,
            isBranch.trans isBranch'.symm, rfl⟩

/-- A field without an alias has no arguments. -/
theorem Below.arguments_eq_nil (h : schema.Below length standing n a) {name : String}
    (hkey : n.key = .field name) (hname : isGraphName name = true) (halias : n.aliasName = none)
    (hbranch : n.isBranch = false) : n.arguments = [] := by
  cases h with
  | field _ _ _ _ aliasName =>
      rcases aliasName with ⟨_, harguments⟩ | ⟨_, hsome⟩
      · exact harguments
      · cases halias.symm.trans hsome
  | item _ key => cases key.symm.trans hkey
  | choice _ key =>
      obtain rfl := Selection.Key.field.inj (key.symm.trans hkey)
      exact absurd rfl (isGraphName_ne_marker hname)
  | branch _ _ _ isBranch => cases isBranch.symm.trans hbranch

theorem Stands.unique (proper : schema.Proper length) {nodes : List Node}
    (h : schema.Stands length nodes a) (h' : schema.Stands length nodes b) : a = b := by
  induction h generalizing b with
  | root operation key =>
      cases h' with
      | root operation' key' =>
          rw [Selection.Key.field.inj (key.symm.trans key')]
  | child parent node top ih =>
      cases h' with
      | child parent' node' top' =>
          obtain rfl := ih parent'
          exact (node.alike proper node' rfl).2.2.2

theorem isLegal_of_aliased {name : String} (hkey : n.key = .field name)
    (hname : isGraphName name = true) (halias : n.Aliased name length) : n.isLegal = true := by
  rw [Node.isLegal, hkey]
  refine (Bool.and_eq_true _ _).mpr ⟨Bool.or_eq_true_iff.mpr (.inl hname), ?_⟩
  rcases halias with ⟨halias, _⟩ | ⟨_, halias⟩
  · rw [halias]
    rfl
  · rw [halias]
    exact Selection.isGraphName_generatedAlias hname _ _

theorem Below.legal (proper : schema.Proper length) {given : Nat}
    (h : schema.Below given standing n a) : n.isLegal = true := by
  cases h with
  | field _ declared key _ aliasName =>
      exact isLegal_of_aliased key (proper.fields.field declared) aliasName
  | item _ key aliasName =>
      rw [Node.isLegal, key, aliasName]
      rfl
  | choice _ key aliasName =>
      rw [Node.isLegal, key, aliasName]
      rfl
  | branch mem key aliasName =>
      rw [Node.isLegal, key, aliasName]
      exact (Bool.and_eq_true _ _).mpr ⟨Bool.or_eq_true_iff.mpr (.inl (proper.possible mem)), rfl⟩

theorem Stands.legal (proper : schema.Proper length) {given : Nat} {nodes : List Node}
    (h : schema.Stands given nodes a) : ∀ n ∈ nodes, n.isLegal = true := by
  induction h with
  | root operation key aliasName =>
      refine List.forall_mem_singleton.mpr ?_
      rw [Node.isLegal, key, aliasName]
      cases operation <;> decide
  | child _ node _ ih => exact List.forall_mem_cons.mpr ⟨node.legal proper, ih⟩

theorem Stands.top {nodes : List Node} (h : schema.Stands length nodes a) :
    ∀ n ∈ nodes.reverse[1]?, n.isPlace = true := by
  induction h with
  | root => exact nofun
  | @child n m above _ _ _ _ top ih =>
      rw [List.reverse_cons]
      intro k hk
      cases above with
      | nil =>
          obtain rfl := Option.some.inj hk
          exact top rfl
      | cons l above =>
          have hlength : 1 < (m :: l :: above).reverse.length := by
            rw [List.length_reverse, List.length_cons, List.length_cons]
            omega
          rw [List.getElem?_append_left hlength] at hk
          exact ih k hk

theorem Stands.exists_operation {nodes : List Node} (h : schema.Stands length nodes a) :
    ∃ operation top, nodes.getLast? = some top ∧ top.key = .field (Operation.text operation) := by
  induction h with
  | @root n operation key => exact ⟨operation, n, rfl, key⟩
  | child _ _ _ ih =>
      obtain ⟨operation, top, hlast, hkey⟩ := ih
      exact ⟨operation, top, List.getLast?_cons_cons.trans hlast, hkey⟩

end Schema

namespace Selection

/-- What a selection stands for. -/
def Stands (s : Selection) (schema : Schema) (standing : Schema.Standing) : Prop :=
  schema.Stands s.aliasLength (s.node :: s.above) standing

namespace Forest

open Schema (Standing)

variable {schema : Schema} {length : Nat} {f : Forest} {roots : List Selection}
  {parent : Selection} {standing next : Standing}

/-- All nodes that were handed out stand for something, with aliases of one length. -/
structure Typed (schema : Schema) (length : Nat) (f : Forest) (roots : List Selection) : Prop where
  sound : f.Sound roots
  aliasLength : ∀ x ∈ f.handed roots, x.aliasLength = length
  stands : ∀ x ∈ f.handed roots, ∃ standing, x.Stands schema standing

/-- A child that was asked for, with the forest that is left. -/
structure Yields (schema : Schema) (length : Nat) (f : Forest) (roots : List Selection)
    (parent : Selection) (request : Nat → Node) (next : Standing) (child : Selection) (g : Forest) :
    Prop where
  typed : g.Typed schema length roots
  mem : child ∈ g.handed roots
  mono : f.handed roots ⊆ g.handed roots
  above : child.above = parent.node :: parent.above
  stands : child.Stands schema next
  below : ∃ standing, schema.Below length standing child.node next
  key : child.node.key = (request 0).key
  aliasName : child.node.aliasName = (request 0).aliasName
  isBranch : child.node.isBranch = (request 0).isBranch

/-- Whatever was handed out before, a request for something that stands below the parent gives a
node that stands for it. -/
theorem Typed.ask (h : f.Typed schema length roots) (proper : schema.Proper length)
    (hp : parent ∈ f.handed roots) (hstands : parent.Stands schema standing) (key : Key)
    (arguments : Fields Argument) (isBranch : Bool)
    (hbelow : ∀ id, schema.Below length standing
      { id, key, aliasName := childAlias key none arguments parent.aliasLength
        arguments, isBranch } next)
    (htop : parent.above = [] → ∀ id, Node.isPlace
      { id, key, aliasName := childAlias key none arguments parent.aliasLength
        arguments, isBranch } = true) :
    Yields schema length f roots parent
      (fun id =>
        { id, key, aliasName := childAlias key none arguments parent.aliasLength
          arguments, isBranch })
      next (f.child parent key none arguments isBranch).1
      (f.child parent key none arguments isBranch).2 := by
  obtain ⟨hsound, hmem, hmono⟩ := h.sound.child hp key none arguments isBranch
  obtain ⟨hunder, hlabel⟩ := h.sound.child_under hp key none arguments isBranch
  have hlength := h.aliasLength parent hp
  rw [Selection.Stands, hlength] at hstands
  have htyped : (f.child parent key none arguments isBranch).2.Typed schema length roots := by
    refine ⟨hsound, fun x hx => ?_, fun x hx => ?_⟩
    · rcases mem_handed_child hx with hx | ⟨hunder, _⟩
      · exact h.aliasLength x hx
      · exact hunder.aliasLength.trans hlength
    · rcases mem_handed_child hx with hx | ⟨hunder, hnode⟩
      · exact h.stands x hx
      · refine ⟨next, ?_⟩
        rw [Selection.Stands, hunder.above, hunder.aliasLength, hlength, hnode]
        exact .child hstands (hbelow _) fun he => htop he _
  obtain ⟨found, hfound⟩ := htyped.stands _ hmem
  have hchild := hfound
  rw [Selection.Stands, hunder.above, htyped.aliasLength _ hmem] at hchild
  cases hchild with
  | child hparent hnode _ =>
      obtain rfl := hparent.unique proper hstands
      obtain ⟨hkey, halias, hbranch, rfl⟩ := hnode.alike proper (hbelow 0) hlabel
      exact ⟨htyped, hmem, hmono, hunder.above, hfound, ⟨_, hnode⟩, hkey, halias, hbranch⟩

theorem Typed.plant (schema : Schema) (length : Nat) :
    (Roots.plant {} length).2.Typed schema length (Roots.plant {} length).1.all := by
  have hroots : ∀ x ∈ (Roots.plant {} length).2.handed (Roots.plant {} length).1.all,
      ∃ operation, x = (Roots.plant {} length).1.get operation := by
    intro x hx
    rcases mem_handed.mp hx with hx | ⟨g, hg, _⟩
    · obtain ⟨operation, he⟩ := Roots.mem_all.mp hx
      exact ⟨operation, he.symm⟩
    · exact absurd hg List.not_mem_nil
  refine ⟨(Roots.regular_plant length).grown.sound, fun x hx => ?_, fun x hx => ?_⟩
  · obtain ⟨operation, rfl⟩ := hroots x hx
    cases operation <;> rfl
  · obtain ⟨operation, rfl⟩ := hroots x hx
    refine ⟨.value (.named operation.text), ?_⟩
    cases operation <;> exact .root _ rfl rfl rfl

end Forest
end Selection
end LazyGraph
