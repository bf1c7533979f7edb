import LazyGraph.Proofs.Selection.Regular

/-!
Forests that accessors grow. A request below a node gives a node of the kind that was requested,
whatever was handed out before, even where an alias is called like another field. So the cache keys
of a selection follow from the requests that led to it.
-/
namespace LazyGraph

namespace Text

def isNumeral (s : String) : Bool := (natural? s.toList).isSome

theorem isNumeral_toString (n : Nat) : isNumeral (toString n) = true := by
  have hdigits : (toString n).toList = Nat.toDigits 10 n := Nat.toList_repr
  have hall : (Nat.toDigits 10 n).all isDigit = true := by
    refine List.all_eq_true.mpr fun c hc => ?_
    have hdigit := Nat.isDigit_of_mem_toDigits (by decide) (by decide) hc
    simp only [Char.isDigit, ge_iff_le, Bool.and_eq_true, decide_eq_true_eq] at hdigit
    simp only [isDigit, Bool.and_eq_true, decide_eq_true_eq, Char.le_def]
    exact hdigit
  have hnonempty : (Nat.toDigits 10 n).isEmpty = false := by
    rw [List.isEmpty_eq_false_iff]
    exact Nat.toDigits_ne_nil
  rw [isNumeral, hdigits, natural?, hall, hnonempty]
  rfl

theorem isNumeral_of_isGraphName {s : String} (h : Selection.isGraphName s = true) :
    isNumeral s = false := by
  rw [Selection.isGraphName] at h
  split at h
  · cases h
  · rename_i c cs hs
    rw [isNumeral, hs, Selection.natural?_of_isNameStart (Bool.and_eq_true_iff.mp h).1]
    rfl

end Text

namespace Selection

/-! ### Nodes below nodes -/

namespace Node

/-- The nodes that accessors ask for below a node. -/
inductive Bears (n : Node) : Node → Prop
  | field {m : Node} (plain : n.isMarker = false) (place : m.isPlace = true)
    (name : isGraphName m.label = true) : Bears n m
  | item {m : Node} {position : Nat} (plain : n.isMarker = false) (key : m.key = .index position)
    (aliasName : m.aliasName = none) : Bears n m
  | choice {m : Node} (plain : n.isMarker = false) (key : m.key = .field unionMarker)
    (aliasName : m.aliasName = none) : Bears n m
  | branch {m : Node} (marker : n.isMarker = true) (isBranch : m.isBranch = true)
    (plain : m.isMarker = false) : Bears n m

variable {n m : Node}

theorem isPlace_of_isMarker (h : m.isMarker = true) : m.isPlace = false := by
  rw [isPlace, h, Bool.not_true, Bool.and_false, Bool.false_and]

theorem isPlace_of_isBranch (h : m.isBranch = true) : m.isPlace = false := by
  rw [isPlace, h, Bool.not_true, Bool.and_false]

theorem isPlace_of_index {position : Nat} (hkey : m.key = .index position) : m.isPlace = false := by
  rw [isPlace, hkey]
  rfl

theorem isMarker_of_isPlace (h : m.isPlace = true) : m.isMarker = false := by
  rw [← Bool.not_eq_true]
  intro hmarker
  rw [isPlace_of_isMarker hmarker] at h
  cases h

theorem Bears.isPlace_eq (h : n.Bears m) : m.isPlace = (!n.isMarker && isGraphName m.label) := by
  cases h with
  | field plain place name => rw [place, plain, name]; rfl
  | @item position plain key aliasName =>
      have hname : isGraphName (Key.index position).text = false := by
        rw [← Bool.not_eq_true]
        intro hname
        have hnumeral := Text.isNumeral_of_isGraphName hname
        rw [Key.text, Text.isNumeral_toString] at hnumeral
        cases hnumeral
      rw [isPlace_of_index key, plain, label_of_plain key aliasName, hname]
      rfl
  | choice plain key aliasName =>
      rw [isPlace_of_isMarker (decide_eq_true key), plain, label_of_plain key aliasName]
      decide
  | branch marker isBranch plain => rw [isPlace_of_isBranch isBranch, marker]; rfl

theorem Bears.isMarker_eq (h : n.Bears m) : m.isMarker = (!n.isMarker && m.label == unionMarker) := by
  cases h with
  | field plain place name =>
      have hlabel : (m.label == unionMarker) = false := by
        rw [beq_eq_false_iff_ne]
        intro he
        rw [he] at name
        exact absurd name (by decide)
      rw [isMarker_of_isPlace place, plain, hlabel]
      rfl
  | @item position plain key aliasName =>
      have hlabel : ((Key.index position).text == unionMarker) = false := by
        rw [beq_eq_false_iff_ne]
        intro he
        have hnumeral : Text.isNumeral (Key.index position).text = true :=
          Text.isNumeral_toString position
        rw [he] at hnumeral
        exact absurd hnumeral (by decide)
      rw [isMarker, key, plain, label_of_plain key aliasName, hlabel]
      rfl
  | choice plain key aliasName =>
      rw [isMarker, key, plain, label_of_plain key aliasName]
      decide
  | branch marker isBranch plain => rw [plain, marker]; rfl

end Node

variable {s parent : Selection}

theorem cacheKeys_of_above (h : s.above = parent.node :: parent.above) :
    s.cacheKeys = parent.cacheKeys ++ if s.node.isPlace then [s.node.label] else [] := by
  rw [cacheKeys, cacheKeys, ancestry_of_above h, List.filter_append, List.map_append]
  cases hplace : s.node.isPlace with
  | true => rw [List.filter_cons_of_pos hplace]; rfl
  | false => rw [List.filter_cons_of_neg (Bool.not_eq_true _ ▸ hplace)]; rfl

/-- The node that a request asks for, whose number is told by the forest. -/
def request (parent : Selection) (key : Key) (arguments : Fields Argument) (isBranch : Bool) : Node :=
  { id := 0, key, aliasName := childAlias key none arguments parent.aliasLength
    arguments, isBranch }

theorem isGraphName_label_request (parent : Selection) {name : String}
    (hname : isGraphName name = true) (arguments : Fields Argument) (isBranch : Bool) :
    isGraphName (parent.request (.field name) arguments isBranch).label = true := by
  cases arguments with
  | nil => exact hname
  | cons a arguments => exact isGraphName_generatedAlias hname _ _

namespace Forest

variable {f : Forest} {roots : List Selection} {name : String}

/-- Below the nodes that were handed out stand such as accessors ask for. -/
structure Orderly (f : Forest) (roots : List Selection) : Prop where
  sound : f.Sound roots
  bears : ∀ x ∈ f.handed roots, ∀ n above, x.above = n :: above → n.Bears x.node

/-- A node that was asked for, with the forest that is left. -/
structure Gives (f : Forest) (roots : List Selection) (parent : Selection) (request : Node)
    (child : Selection) (g : Forest) : Prop where
  orderly : g.Orderly roots
  mem : child ∈ g.handed roots
  mono : f.handed roots ⊆ g.handed roots
  above : child.above = parent.node :: parent.above
  label : child.node.label = request.label
  isPlace : child.node.isPlace = request.isPlace
  isMarker : child.node.isMarker = request.isMarker

/-- What accessors ask for they get: it may be older than the request, but the label tells its kind. -/
theorem Orderly.ask (h : f.Orderly roots) (hp : parent ∈ f.handed roots) {key : Key}
    {arguments : Fields Argument} {isBranch : Bool}
    (hbears : ∀ id, parent.node.Bears { parent.request key arguments isBranch with id }) :
    Gives f roots parent (parent.request key arguments isBranch)
      (f.child parent key none arguments isBranch).1
      (f.child parent key none arguments isBranch).2 := by
  obtain ⟨hsound, hmem, hmono⟩ := h.sound.child hp key none arguments isBranch
  obtain ⟨hunder, hlabel⟩ := h.sound.child_under hp key none arguments isBranch
  have horderly : (f.child parent key none arguments isBranch).2.Orderly roots := by
    refine ⟨hsound, fun x hx n above habove => ?_⟩
    rcases mem_handed_child hx with hx | ⟨hnew, hnode⟩
    · exact h.bears x hx n above habove
    · obtain ⟨rfl, _⟩ := List.cons.inj (hnew.above.symm.trans habove)
      rw [hnode]
      exact hbears _
  have hfound := horderly.bears _ hmem _ _ hunder.above
  have hrequest := hbears 0
  have hsame : (f.child parent key none arguments isBranch).1.node.label =
      (parent.request key arguments isBranch).label := hlabel
  refine ⟨horderly, hmem, hmono, hunder.above, hsame, ?_, ?_⟩
  · rw [hfound.isPlace_eq, hsame]
    exact hrequest.isPlace_eq.symm
  · rw [hfound.isMarker_eq, hsame]
    exact hrequest.isMarker_eq.symm

theorem Orderly.field (h : f.Orderly roots) (hp : parent ∈ f.handed roots)
    (plain : parent.node.isMarker = false) (hname : isGraphName name = true)
    (arguments : Fields Argument) :
    Gives f roots parent (parent.request (.field name) arguments false)
      (f.child parent (.field name) none arguments false).1
      (f.child parent (.field name) none arguments false).2 :=
  h.ask hp fun _ => .field plain (Node.isPlace_field hname rfl rfl)
    (isGraphName_label_request parent hname arguments false)

theorem Orderly.item (h : f.Orderly roots) (hp : parent ∈ f.handed roots)
    (plain : parent.node.isMarker = false) (position : Nat) :
    Gives f roots parent (parent.request (.index position) [] false)
      (f.child parent (.index position) none [] false).1
      (f.child parent (.index position) none [] false).2 :=
  h.ask hp fun _ => .item plain rfl rfl

theorem Orderly.choice (h : f.Orderly roots) (hp : parent ∈ f.handed roots)
    (plain : parent.node.isMarker = false) :
    Gives f roots parent (parent.request (.field unionMarker) [] false)
      (f.child parent (.field unionMarker) none [] false).1
      (f.child parent (.field unionMarker) none [] false).2 :=
  h.ask hp fun _ => .choice plain rfl rfl

theorem Orderly.branch (h : f.Orderly roots) (hp : parent ∈ f.handed roots)
    (marker : parent.node.isMarker = true) (hname : isGraphName name = true) :
    Gives f roots parent (parent.request (.field name) [] true)
      (f.child parent (.field name) none [] true).1
      (f.child parent (.field name) none [] true).2 :=
  h.ask hp fun _ => .branch marker rfl (Node.isMarker_field hname rfl)

theorem Gives.cacheKeys {request : Node} {child : Selection} {g : Forest}
    (h : Gives f roots parent request child g) :
    child.cacheKeys = parent.cacheKeys ++ if request.isPlace then [child.node.label] else [] := by
  rw [cacheKeys_of_above h.above, h.isPlace]

theorem Orderly.plant (aliasLength : Nat) :
    (Roots.plant {} aliasLength).2.Orderly (Roots.plant {} aliasLength).1.all := by
  refine ⟨(Roots.regular_plant aliasLength).grown.sound, fun x hx n above habove => ?_⟩
  rcases mem_handed.mp hx with hx | ⟨g, hg, _⟩
  · obtain ⟨operation, rfl⟩ := Roots.mem_all.mp hx
    cases operation <;> cases habove
  · exact absurd hg List.not_mem_nil

end Forest
end Selection
end LazyGraph
