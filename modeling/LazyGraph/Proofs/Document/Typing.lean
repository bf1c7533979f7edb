import LazyGraph.Proofs.Document.Occurrence
import LazyGraph.Proofs.Selection.Typing

/-!
The types of the fields of a document. Heads carry the names that the schema types, so the type at
the end of a way down is that of the selections that are written there.
-/
namespace LazyGraph

namespace Selection

/-- Whether a document writes a head for the node; positions and the `$on` node have none. -/
def Node.isWritten (n : Node) : Bool := !n.key.isIndex && !n.isMarker

/-- The written nodes from the root down. -/
def trunk (s : Selection) : List Node := s.ancestry.filter (·.isWritten)

theorem Node.isWritten_field {n : Node} {name : String} (hname : isGraphName name = true)
    (hkey : n.key = .field name) : n.isWritten = true := by
  rw [isWritten, hkey, isMarker_field hname hkey]
  rfl

theorem trunk_of_above {s parent : Selection} (h : s.above = parent.node :: parent.above) :
    s.trunk = if s.node.isWritten then parent.trunk ++ [s.node] else parent.trunk := by
  rw [trunk, ancestry_of_above h, List.filter_append, List.filter_singleton, trunk]
  cases s.node.isWritten with
  | true => rfl
  | false => exact List.append_nil _

theorem length_trunk_root {s : Selection} (h : s.above = []) : s.trunk.length ≤ 1 := by
  refine (List.length_filter_le _ _).trans ?_
  rw [ancestry, h]
  exact Nat.le_refl 1

end Selection

namespace Document

open Selection (Node isGraphName isNameChar)

/-! ### Heads of ways -/

theorem heads_append (vs : Variables) (way rest : List Node) :
    heads vs (way ++ rest) =
      ((heads vs way).1 ++ (heads (heads vs way).2 rest).1, (heads (heads vs way).2 rest).2) := by
  induction way generalizing vs with
  | nil => rfl
  | cons n way ih =>
      rw [List.cons_append]
      cases hkey : n.key with
      | index position => simp only [heads, hkey, ih]
      | field name =>
          simp only [heads, hkey]
          split
          · exact ih vs
          · split
            · simp only [ih, List.cons_append]
            · simp only [ih, List.cons_append]

/-- A node that is not written has no head, and any other has one. -/
theorem heads_singleton (vs : Variables) (n : Node) :
    if n.isWritten then (heads vs [n]).1.length = 1 else heads vs [n] = ([], vs) := by
  rw [Node.isWritten]
  cases hkey : n.key with
  | index position =>
      simp only [Selection.Key.isIndex, Bool.not_true, Bool.false_and, Bool.false_eq_true, if_false]
      simp only [heads, hkey]
  | field name =>
      cases hmarker : n.isMarker with
      | true => simp [Selection.Key.isIndex, heads, hkey, hmarker]
      | false =>
          simp only [Selection.Key.isIndex, Bool.not_false, Bool.and_self, if_true]
          simp only [heads, hkey, hmarker, Bool.false_eq_true, if_false]
          split <;> rfl

theorem heads_written (vs : Variables) (way : List Node) :
    heads vs (way.filter (·.isWritten)) = heads vs way := by
  induction way generalizing vs with
  | nil => rfl
  | cons n way ih =>
      have hsingle := heads_singleton vs n
      have hcons : n :: way = [n] ++ way := rfl
      rw [hcons, List.filter_append, heads_append, heads_append, List.filter_singleton]
      cases hwritten : n.isWritten with
      | true => simp only [cond_true, ih]
      | false =>
          rw [hwritten, if_neg Bool.false_ne_true] at hsingle
          rw [cond_false, hsingle]
          simp only [heads, ih]

theorem length_heads (vs : Variables) {way : List Node} (h : ∀ n ∈ way, n.isWritten = true) :
    (heads vs way).1.length = way.length := by
  induction way generalizing vs with
  | nil => rfl
  | cons n way ih =>
      obtain ⟨hn, hrest⟩ := List.forall_mem_cons.mp h
      have hsingle := heads_singleton vs n
      rw [if_pos hn] at hsingle
      have hcons : n :: way = [n] ++ way := rfl
      rw [hcons, heads_append, List.length_append, hsingle, ih _ hrest, List.length_append]
      rfl

/-- What lies on the way to a head below is written in front of it. -/
theorem exists_split {vs : Variables} {way : List Node} {text : String} {texts : List String}
    (hway : ∀ n ∈ way, n.isWritten = true)
    (h : texts ++ [text] <+: (heads vs way).1.map Head.text) :
    ∃ before n after, way = before ++ n :: after ∧ (heads vs before).1.map Head.text = texts := by
  have hlength : texts.length < way.length := by
    have hle := h.length_le
    rw [List.length_append, List.length_map, length_heads vs hway, List.length_singleton] at hle
    omega
  obtain ⟨n, after, hdrop⟩ : ∃ n after, way.drop texts.length = n :: after := by
    have hsome : 0 < (way.drop texts.length).length := by
      rw [List.length_drop]
      omega
    exact List.exists_cons_of_length_pos hsome
  have hsplit : way = way.take texts.length ++ n :: after := by
    rw [← hdrop, List.take_append_drop]
  refine ⟨way.take texts.length, n, after, hsplit, ?_⟩
  have hbefore : ∀ n ∈ way.take texts.length, n.isWritten = true :=
    fun n hn => hway n (List.mem_of_mem_take hn)
  rw [hsplit, heads_append, List.map_append] at h
  have hprefix : texts <+: (heads vs (way.take texts.length)).1.map Head.text ++ _ :=
    List.IsPrefix.trans (List.prefix_append texts [text]) h
  have hsame := List.prefix_of_prefix_length_le hprefix (List.prefix_append _ _) (by
    rw [List.length_map, length_heads vs hbefore, List.length_take]
    omega)
  refine (hsame.eq_of_length ?_).symm
  rw [List.length_map, length_heads vs hbefore, List.length_take]
  omega

/-! ### Names in heads -/

namespace Head

variable {h h' : Head}

def isField : Head → Bool
  | .field .. => true
  | .branch _ => false

/-- What stands behind the name of a field. -/
def argumentsText : List (String × String) → List Char
  | [] => []
  | arguments => '(' :: (",".intercalate (arguments.map argumentText) ++ ")").toList

theorem toList_text (aliasName : Option String) (name : String)
    (arguments : List (String × String)) : (field aliasName name arguments).text.toList =
      (match aliasName with
        | some a => a.toList ++ ':' :: (name.toList ++ argumentsText arguments)
        | none => name.toList ++ argumentsText arguments) := by
  cases aliasName <;> cases arguments <;>
    simp [text, argumentsText, String.toList_append]

theorem takeWhile_argumentsText {name : String} (hname : isGraphName name = true)
    (arguments : List (String × String)) :
    (name.toList ++ argumentsText arguments).takeWhile isNameChar = name.toList := by
  cases arguments with
  | nil =>
      rw [List.takeWhile_append_of_pos (Selection.isNameChar_of_isGraphName hname)]
      exact List.append_nil _
  | cons a arguments => exact takeWhile_isNameChar hname (by decide) _

theorem colon_not_mem_argumentsText (arguments : List (String × String)) (rest : List Char) :
    argumentsText arguments ≠ ':' :: rest := by
  cases arguments with
  | nil => exact nofun
  | cons a arguments => exact fun h => absurd (List.cons.inj h).1 (by decide)

/-- Legal fields of one text have one name. -/
theorem name_eq_of_text {aliasName other : Option String} {name name' : String}
    {arguments arguments' : List (String × String)}
    (hl : (field aliasName name arguments).isLegal = true)
    (hl' : (field other name' arguments').isLegal = true)
    (he : (field aliasName name arguments).text = (field other name' arguments').text) :
    name = name' := by
  have hkey := responseKey?_eq_of_text hl hl' he
  have htext := congrArg String.toList he
  rw [isLegal, Bool.and_eq_true] at hl hl'
  rw [toList_text, toList_text] at htext
  cases aliasName with
  | none =>
      cases other with
      | none => exact Option.some.inj hkey
      | some b =>
          obtain rfl : name = b := Option.some.inj hkey
          exact absurd (List.append_cancel_left htext) (colon_not_mem_argumentsText _ _)
  | some a =>
      cases other with
      | none =>
          obtain rfl : a = name' := Option.some.inj hkey
          exact absurd (List.append_cancel_left htext).symm (colon_not_mem_argumentsText _ _)
      | some b =>
          obtain rfl : a = b := Option.some.inj hkey
          have hnames := (List.cons.inj (List.append_cancel_left htext)).2
          have htake := congrArg (List.takeWhile isNameChar) hnames
          rw [takeWhile_argumentsText hl.2, takeWhile_argumentsText hl'.2] at htake
          exact String.toList_inj.mp htake

theorem field_ne_branch {aliasName : Option String} {name type : String}
    {arguments : List (String × String)} (hl : (field aliasName name arguments).isLegal = true) :
    (field aliasName name arguments).text ≠ (branch type).text := by
  intro he
  cases responseKey?_eq_of_text hl rfl he

end Head
end Document

/-! ### Types of ways -/

namespace Schema

open Document (Head)

/-- The type below a head: that of the field, or the one that the branch narrows it to. -/
def typeBelow? (schema : Schema) (type : String) : Head → Option String
  | .field _ name _ => (schema.requireField type name).toOption.map (·.typeRef.name)
  | .branch possible => some possible

/-- The type at the end of a way down from a type. -/
def typeAt? (schema : Schema) (type : String) (way : List Head) : Option String :=
  way.foldlM schema.typeBelow? type

variable {schema : Schema} {type : String} {way other : List Head}

theorem typeBelow?_eq_of_text {h h' : Head} (hl : h.isLegal = true) (hl' : h'.isLegal = true)
    (he : h.text = h'.text) : schema.typeBelow? type h = schema.typeBelow? type h' := by
  cases h with
  | field aliasName name arguments =>
      cases h' with
      | field other name' arguments' =>
          rw [typeBelow?, typeBelow?, Head.name_eq_of_text hl hl' he]
      | branch possible => exact absurd he (Head.field_ne_branch hl)
  | branch possible =>
      cases h' with
      | field other name' arguments' => exact absurd he.symm (Head.field_ne_branch hl')
      | branch possible' =>
          have htexts := congrArg String.toList he
          rw [Head.text, Head.text, String.toList_append, String.toList_append] at htexts
          rw [String.toList_inj.mp (List.append_cancel_left htexts)]

/-- Texts tell types. -/
theorem typeAt?_eq_of_texts (hl : ∀ h ∈ way, h.isLegal = true) (hl' : ∀ h ∈ other, h.isLegal = true)
    (he : way.map Head.text = other.map Head.text) :
    schema.typeAt? type way = schema.typeAt? type other := by
  induction way generalizing other type with
  | nil =>
      rw [List.map_nil] at he
      rw [List.map_eq_nil_iff.mp he.symm]
  | cons h way ih =>
      cases other with
      | nil => exact absurd he (List.cons_ne_nil _ _)
      | cons h' other =>
          obtain ⟨hfirst, hrest⟩ := List.cons.inj he
          obtain ⟨hh, hway⟩ := List.forall_mem_cons.mp hl
          obtain ⟨hh', hother⟩ := List.forall_mem_cons.mp hl'
          rw [typeAt?, typeAt?, List.foldlM_cons, List.foldlM_cons,
            typeBelow?_eq_of_text hh hh' hfirst]
          exact Option.bind_congr fun type _ => ih hway hother hrest

theorem typeAt?_append (schema : Schema) (type : String) (way rest : List Head) :
    schema.typeAt? type (way ++ rest) = (schema.typeAt? type way).bind (schema.typeAt? · rest) :=
  List.foldlM_append

/-- The type that a node stands in. -/
def Standing.name : Standing → String
  | .value type => type.name
  | .choice type => type

/-- The head of a node leads to the type that the node stands in. -/
theorem Below.typeAt? {length given : Nat} (proper : schema.Proper length)
    {standing next : Standing} {n : Selection.Node} (h : schema.Below given standing n next)
    (vs : Document.Variables) :
    schema.typeAt? standing.name (Document.heads vs [n]).1 = some next.name := by
  cases h with
  | field _ declared key _ _ isBranch =>
      have hmarker := Selection.Node.isMarker_field (proper.fields.field declared) key
      simp only [Document.heads, key, hmarker, isBranch, Bool.false_eq_true, if_false]
      simp only [Schema.typeAt?, List.foldlM_cons, List.foldlM_nil, typeBelow?, Standing.name, declared]
      rfl
  | item _ key =>
      simp only [Document.heads, key]
      rfl
  | choice _ key =>
      have hself : n.isMarker = true := decide_eq_true key
      simp only [Document.heads, key, hself, if_true]
      rfl
  | branch mem key _ isBranch =>
      have hmarker := Selection.Node.isMarker_field (proper.possible mem) key
      simp only [Document.heads, key, hmarker, isBranch, Bool.false_eq_true, if_false, if_true]
      rfl

/-- Heads lead from the root of an operation to the type that the last node stands in. -/
theorem Stands.typeAt? {length given : Nat} (proper : schema.Proper length) {standing : Standing}
    {nodes : List Selection.Node} (h : schema.Stands given nodes standing)
    (vs : Document.Variables) :
    ∃ operation top rest, nodes.reverse = top :: rest ∧ top.key = .field (Operation.text operation) ∧
      schema.typeAt? operation.text (Document.heads vs rest).1 = some standing.name := by
  induction h with
  | @root n operation key => exact ⟨operation, n, [], rfl, key, rfl⟩
  | @child n m above standing next parent node top ih =>
      obtain ⟨operation, first, rest, hnodes, hkey, htype⟩ := ih
      refine ⟨operation, first, rest ++ [n], ?_, hkey, ?_⟩
      · rw [List.reverse_cons, hnodes]
        rfl
      · rw [Document.heads_append, typeAt?_append, htype]
        exact node.typeAt? proper _

end Schema

/-! ### Selections in documents -/

namespace Document

open Selection (Gathered Node)

variable {schema : Schema} {length : Nat} {standing : Schema.Standing} {x : Selection} (d : Document)

/-- The heads of a selection are those of its written nodes, the root apart. -/
theorem exists_trunk (h : x.Stands schema standing) :
    ∃ rest, x.trunk = x.rootNode :: rest ∧ ∀ d : Document, d.headsOf x = (heads d.declared rest).1 := by
  obtain ⟨operation, top, hlast, hkey⟩ := h.exists_operation
  have hroot : x.rootNode = top := by
    rw [List.getLast?_cons, ← List.getLastD_eq_getLast?] at hlast
    exact Option.some.inj hlast
  obtain ⟨nodes, hnodes⟩ := List.getLast?_eq_some_iff.mp hlast
  have hancestry : x.ancestry = top :: nodes.reverse := by
    rw [Selection.ancestry, hnodes, List.reverse_append]
    rfl
  have hwritten : top.isWritten = true := by
    rw [Node.isWritten, Node.isMarker, hkey]
    cases operation <;> decide
  refine ⟨nodes.reverse.filter (·.isWritten), ?_, fun d => ?_⟩
  · rw [Selection.trunk, hancestry, List.filter_cons, if_pos hwritten, hroot]
  · rw [headsOf, hancestry, List.tail_cons, heads_written]

theorem operation?_of_trunk {p : Selection} (h : x.Stands schema standing)
    {above : Schema.Standing} (hp : p.Stands schema above) {rest : List Node}
    (htrunk : x.trunk = p.trunk ++ rest) : x.operation? = p.operation? := by
  obtain ⟨_, hx, _⟩ := exists_trunk h
  obtain ⟨_, hp, _⟩ := exists_trunk hp
  rw [hx, hp] at htrunk
  rw [Selection.operation?, Selection.operation?, (List.cons.inj htrunk).1]

/-- One more node adds its head, if it has one. -/
theorem headsOf_concat {p : Selection} (h : x.Stands schema standing) {above : Schema.Standing}
    (hp : p.Stands schema above) {n : Node} (htrunk : x.trunk = p.trunk ++ [n]) :
    ∃ vs, d.headsOf x = d.headsOf p ++ (heads vs [n]).1 := by
  obtain ⟨rest, hx, hheads⟩ := exists_trunk h
  obtain ⟨before, hp, hbefore⟩ := exists_trunk hp
  rw [hx, hp] at htrunk
  obtain ⟨_, rfl⟩ : x.rootNode = p.rootNode ∧ rest = before ++ [n] := List.cons.inj htrunk
  refine ⟨(heads d.declared before).2, ?_⟩
  rw [hheads, hbefore, heads_append]

theorem headsOf_root (h : x.Stands schema standing) (habove : x.above = []) : d.headsOf x = [] := by
  obtain ⟨rest, htrunk, hheads⟩ := exists_trunk h
  have hlength := Selection.length_trunk_root habove
  rw [htrunk, List.length_cons] at hlength
  rw [hheads, List.eq_nil_of_length_eq_zero (Nat.le_zero.mp (Nat.le_of_succ_le_succ hlength))]
  rfl

theorem exists_headsOf_branch (proper : schema.Proper length) (h : x.Stands schema standing)
    (hbranch : x.node.isBranch = true) : ∃ before possible,
      d.headsOf x = before ++ [.branch possible] := by
  have hbelow := h
  rw [Selection.Stands] at hbelow
  cases habove : x.above with
  | nil =>
      rw [habove] at hbelow
      cases hbelow with
      | root _ _ _ isBranch => cases isBranch.symm.trans hbranch
  | cons m above =>
      rw [habove] at hbelow
      cases hbelow with
      | child parent node =>
          cases node with
          | field _ _ _ _ _ isBranch => cases isBranch.symm.trans hbranch
          | item _ _ _ isBranch => cases isBranch.symm.trans hbranch
          | choice _ _ _ isBranch => cases isBranch.symm.trans hbranch
          | @branch _ _ possible mem key _ _ =>
              have hname := proper.possible mem
              have hmarker := Node.isMarker_field hname key
              let p : Selection := { node := m, above, aliasLength := x.aliasLength }
              have hchild : x.above = p.node :: p.above := habove
              have htrunk := Selection.trunk_of_above hchild
              rw [if_pos (Node.isWritten_field hname key)] at htrunk
              obtain ⟨vs, hheads⟩ := headsOf_concat d h (p := p) parent htrunk
              refine ⟨d.headsOf p, possible, ?_⟩
              rw [hheads]
              simp only [heads, key, hmarker, hbranch, Bool.false_eq_true, if_false, if_true]

theorem legal_headsOf (proper : schema.Proper length) (h : x.Stands schema standing) :
    ∀ head ∈ d.headsOf x, head.isLegal = true := by
  apply isLegal_heads
  intro n hn
  apply h.legal proper
  exact List.mem_reverse.mp (List.mem_of_mem_tail hn)

theorem typeAt?_headsOf (proper : schema.Proper length) (h : x.Stands schema standing)
    (ho : x.operation? = some d.operation) :
    schema.typeAt? d.operation.text (d.headsOf x) = some standing.name := by
  obtain ⟨operation, top, rest, hnodes, hkey, htype⟩ := h.typeAt? proper d.declared
  have hroot : x.rootNode = top := by
    have hhead := congrArg List.head? hnodes
    rw [List.head?_reverse, List.getLast?_cons, ← List.getLastD_eq_getLast?] at hhead
    exact Option.some.inj hhead
  have hsame : operation = d.operation := by
    rw [Selection.operation?, hroot, hkey] at ho
    apply Option.some.inj
    rw [← ho]
    cases operation <;> rfl
  rw [headsOf, Selection.ancestry, hnodes, ← hsame]
  exact htype

/-- Every place of a document has a type. -/
theorem exists_typeAt? (proper : schema.Proper length) {ss : List Selection}
    {operationName : Option String} {documents : List Document}
    (h : ofArranged ss operationName = .ok documents) (hd : d ∈ documents) (hg : Gathered ss)
    (hstands : ∀ x ∈ ss, ∃ standing, x.Stands schema standing) {way : List Head} {t : FieldTree}
    (hway : d.fields.Holds way t) : ∃ type, schema.typeAt? d.operation.text way = some type := by
  by_cases hne : way = []
  · subst hne
    exact ⟨_, rfl⟩
  have hlegal := (legal_fields h hd hg).of_holds hway
  have hat := (ordered_fields h hd).at?_of_holds hway
  obtain ⟨x, hx, ho, hpre⟩ := exists_of_isSome_at? h hd (List.map_eq_nil_iff.not.mpr hne)
    (Option.isSome_of_eq_some hat)
  obtain ⟨standing, hx⟩ := hstands x hx
  have hheads := d.legal_headsOf proper hx
  have htype := d.typeAt?_headsOf proper hx ho
  rw [← List.take_append_drop way.length (d.headsOf x), Schema.typeAt?_append] at htype
  obtain ⟨type, htake, _⟩ := Option.bind_eq_some_iff.mp htype
  refine ⟨type, ?_⟩
  rw [← htake]
  apply Schema.typeAt?_eq_of_texts hlegal fun head hm => hheads head (List.mem_of_mem_take hm)
  rw [List.map_take]
  have hprefix := List.prefix_iff_eq_take.mp hpre
  rwa [List.length_map] at hprefix

end Document

namespace Selection

variable {schema : Schema} {length : Nat} {f : Forest} {roots ss : List Selection}

/-- Typed selections, with one root for each operation, can be compiled. -/
theorem Forest.Typed.gathered (h : f.Typed schema length roots) (proper : schema.Proper length)
    (hroots : ∀ r ∈ roots, ∀ r' ∈ roots, r.operation? = r'.operation? → r.id = r'.id)
    (hss : ss ⊆ f.handed roots) : Gathered ss := by
  have hroot : ∀ x ∈ ss, ∃ r ∈ roots, x.operation? = r.operation? ∧ x.rootNode.id = r.id := by
    intro x hx
    obtain ⟨r, hr, _, _, htop⟩ := h.sound.exists_root (hss hx)
    refine ⟨r, hr, ?_, congrArg Node.id htop⟩
    rw [operation?, operation?, htop, rootNode_of_isRoot (h.sound.tops r hr)]
  constructor
  case operation =>
    intro x hx
    obtain ⟨standing, hstands⟩ := h.stands x (hss hx)
    obtain ⟨operation, top, hlast, hkey⟩ := hstands.exists_operation
    have htop : x.rootNode = top := by
      rw [List.getLast?_cons, ← List.getLastD_eq_getLast?] at hlast
      exact Option.some.inj hlast
    rw [operation?, htop, hkey]
    cases operation <;> decide
  case tree =>
    intro x hx y hy he
    obtain ⟨r, hr, hxr, hid⟩ := hroot x hx
    obtain ⟨r', hr', hyr, hid'⟩ := hroot y hy
    rw [hid, hid', hroots r hr r' hr' (hxr.symm.trans (he.trans hyr))]
  case legal =>
    intro x hx n hn
    obtain ⟨standing, hstands⟩ := h.stands x (hss hx)
    exact hstands.legal proper n (List.mem_reverse.mp hn)
  case top =>
    intro x hx
    obtain ⟨standing, hstands⟩ := h.stands x (hss hx)
    exact hstands.top

end Selection
end LazyGraph
