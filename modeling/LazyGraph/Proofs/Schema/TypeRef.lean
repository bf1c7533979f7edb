import LazyGraph.Proofs.Selection.Tree
import LazyGraph.Schema.TypeRef

/-!
Types as the query language writes them, and what a reference keeps of one: the name, the number of
lists and the outermost mark. The marks inside are not kept. An element is taken to allow null, so
that it is what its own text is read as exactly if no mark ends that text.
-/
namespace LazyGraph

/-- A name or the list of a type, each with or without the mark that forbids null. -/
inductive TypeExpr
  | named (name : String) (legal : Selection.isGraphName name = true) (required : Bool)
  | list (item : TypeExpr) (required : Bool)

namespace TypeExpr

open Selection (isGraphName isNameChar)
open Text (isBlank stripBoth)
open TypeRef (isWrapper parse)

def mark (required : Bool) : String := if required then "!" else ""

def text : TypeExpr → String
  | named name _ required => name ++ mark required
  | list item required => "[" ++ item.text ++ "]" ++ mark required

/-- The texts of types: a name, a text in brackets, and a text that ends without a mark with one
behind it. -/
inductive IsText : String → Prop
  | name {s : String} (legal : isGraphName s = true) : IsText s
  | list {s : String} (item : IsText s) : IsText ("[" ++ s ++ "]")
  | required {s : String} (type : IsText s) (unmarked : s.toList.getLast? ≠ some '!') :
    IsText (s ++ "!")

/-- The name inside all wrappers. -/
def name : TypeExpr → String
  | named name _ _ => name
  | list item _ => item.name

/-- The number of lists around the name. -/
def depth : TypeExpr → Nat
  | named _ _ _ => 0
  | list item _ => item.depth + 1

/-- Whether the type as a whole forbids null. -/
def required : TypeExpr → Bool
  | named _ _ required => required
  | list _ required => required

/-- What a reference keeps of a type. -/
def outline (t : TypeExpr) : TypeRef :=
  { name := t.name, listDepth := t.depth, nullable := !t.required }

/-- The text without the outermost mark. -/
def core : TypeExpr → String
  | named name _ _ => name
  | list item _ => "[" ++ item.text ++ "]"

/-- The wrappers behind the name. -/
def closing : TypeExpr → List Char
  | named _ _ required => (mark required).toList
  | list item required => item.closing ++ ']' :: (mark required).toList

theorem text_eq (t : TypeExpr) : t.text = t.core ++ mark t.required := by
  cases t <;> rfl

theorem isGraphName_name (t : TypeExpr) : isGraphName t.name = true := by
  induction t with
  | named _ legal _ => exact legal
  | list _ _ ih => exact ih

theorem isNameChar_name (t : TypeExpr) : ∀ c ∈ t.name.toList, isNameChar c = true :=
  Selection.isNameChar_of_isGraphName t.isGraphName_name

/-! ### Wrappers -/

section Wrappers

variable {c : Char}

theorem isWrapper_iff : isWrapper c = true ↔ c ∈ ['[', ']', '!'] := by
  simp [isWrapper, or_assoc]

theorem isBlank_of_isWrapper (h : isWrapper c = true) : isBlank c = false := by
  have hmarks : ['[', ']', '!'].any isBlank = false := by decide
  exact Bool.eq_false_iff.mpr (List.any_eq_false.mp hmarks c (isWrapper_iff.mp h))

theorem not_isWrapper_of_isNameChar (h : isNameChar c = true) : ¬ isWrapper c = true := by
  have hmarks : ['[', ']', '!'].any isNameChar = false := by decide
  exact fun hc => List.any_eq_false.mp hmarks c (isWrapper_iff.mp hc) h

theorem isWrapper_of_mem_openings {n : Nat} (h : c ∈ List.replicate n '[') : isWrapper c = true := by
  rw [List.eq_of_mem_replicate h]
  rfl

theorem isWrapper_of_mem_mark {required : Bool} (h : c ∈ (mark required).toList) :
    isWrapper c = true := by
  cases required with
  | false => cases h
  | true =>
      rw [List.mem_singleton.mp h]
      rfl

theorem isWrapper_of_mem_closing {t : TypeExpr} (h : c ∈ t.closing) : isWrapper c = true := by
  induction t with
  | named _ _ _ => exact isWrapper_of_mem_mark h
  | list item _ ih =>
      rcases List.mem_append.mp h with hitem | h
      · exact ih hitem
      · rcases List.mem_cons.mp h with rfl | hmark
        · rfl
        · exact isWrapper_of_mem_mark hmark

end Wrappers

/-! ### The parts of a text -/

/-- Each list opens in front of the name, and all other wrappers stand behind it. -/
theorem toList_text (t : TypeExpr) :
    t.text.toList = List.replicate t.depth '[' ++ (t.name.toList ++ t.closing) := by
  induction t with
  | named name _ required => exact String.toList_append
  | list item required ih =>
      have hopen : "[".toList = ['['] := rfl
      have hclose : "]".toList = [']'] := rfl
      rw [text, String.toList_append, String.toList_append, String.toList_append, ih, hopen, hclose,
        depth, List.replicate_succ, closing]
      simp only [List.cons_append, List.nil_append, List.append_assoc, name]

theorem trimmed_text (t : TypeExpr) : Text.Trimmed t.text.toList := by
  refine .of_forall fun c hc => ?_
  rw [toList_text, List.mem_append, List.mem_append] at hc
  rcases hc with hopening | hname | hclosing
  · exact isBlank_of_isWrapper (isWrapper_of_mem_openings hopening)
  · exact Selection.isBlank_of_isNameChar (t.isNameChar_name c hname)
  · exact isBlank_of_isWrapper (isWrapper_of_mem_closing hclosing)

theorem stripBoth_text (t : TypeExpr) : stripBoth isWrapper t.text.toList = t.name.toList := by
  rw [toList_text]
  exact Text.stripBoth_append (fun _ => isWrapper_of_mem_openings)
    (fun c hc => not_isWrapper_of_isNameChar (t.isNameChar_name c hc))
    (fun _ => isWrapper_of_mem_closing)

theorem takeWhile_text (t : TypeExpr) :
    t.text.toList.takeWhile (· == '[') = List.replicate t.depth '[' := by
  obtain ⟨c, cs, hname, hc⟩ := Selection.exists_cons_of_isGraphName t.isGraphName_name
  have hne : c ≠ '[' := by
    rintro rfl
    exact absurd hc (by decide)
  rw [toList_text, hname, List.takeWhile_append_of_pos fun d hd =>
    beq_iff_eq.mpr (List.eq_of_mem_replicate hd), List.cons_append, List.takeWhile_cons,
    if_neg (mt beq_iff_eq.mp hne), List.append_nil]

theorem getLast?_core (t : TypeExpr) : t.core.toList.getLast? ≠ some '!' := by
  cases t with
  | named name legal _ =>
      intro hlast
      exact Selection.not_mem_of_isGraphName legal (by decide) (List.mem_of_getLast? hlast)
  | list item _ =>
      have hclose : "]".toList = [']'] := rfl
      rw [core, String.toList_append, hclose, List.getLast?_concat]
      decide

theorem append_mark_false (s : String) : s ++ mark false = s := String.append_empty

/-- A text ends in a mark exactly if the type as a whole has one. -/
theorem getLast?_text (t : TypeExpr) : t.text.toList.getLast? = some '!' ↔ t.required = true := by
  rw [text_eq]
  cases t.required with
  | false =>
      rw [append_mark_false]
      exact iff_of_false t.getLast?_core Bool.false_ne_true
  | true =>
      rw [String.toList_append]
      exact iff_of_true List.getLast?_concat rfl

/-! ### The grammar of texts -/

theorem exists_marked {t : TypeExpr} (h : t.required = false) :
    ∃ u : TypeExpr, u.text = t.text ++ "!" := by
  rw [text_eq, h, append_mark_false]
  cases t with
  | named name legal _ => exact ⟨named name legal true, rfl⟩
  | list item _ => exact ⟨list item true, rfl⟩

theorem IsText.of_core {t : TypeExpr} (h : IsText t.core) : IsText t.text := by
  rw [text_eq]
  cases t.required with
  | false => rwa [append_mark_false]
  | true => exact h.required t.getLast?_core

/-- The texts of the grammar are those of the types. -/
theorem isText_iff {s : String} : IsText s ↔ ∃ t : TypeExpr, t.text = s := by
  constructor
  · intro h
    induction h with
    | name legal => exact ⟨named _ legal false, append_mark_false _⟩
    | list _ ih =>
        obtain ⟨t, rfl⟩ := ih
        exact ⟨list t false, append_mark_false _⟩
    | required _ unmarked ih =>
        obtain ⟨t, rfl⟩ := ih
        exact exists_marked (Bool.eq_false_iff.mpr (mt t.getLast?_text.mpr unmarked))
  · rintro ⟨t, rfl⟩
    induction t with
    | named _ legal _ => exact .of_core (.name legal)
    | list _ _ ih => exact .of_core (.list ih)

/-! ### Reading -/

theorem parse_text (t : TypeExpr) : parse t.text = t.outline := by
  have hnullable : (t.text.toList.getLast? != some '!') = !t.required := by
    rw [Bool.eq_iff_iff, bne_iff_ne, ne_eq, getLast?_text, Bool.not_eq_true, Bool.not_eq_true']
  rw [parse, t.trimmed_text.stripBoth, stripBoth_text, takeWhile_text, List.length_replicate,
    String.ofList_toList, hnullable, outline]

theorem item_parse_list (t : TypeExpr) (required : Bool) :
    (parse (list t required).text).item = { parse t.text with nullable := true } := by
  rw [parse_text, parse_text]
  rfl

theorem nullable_outline_iff (t : TypeExpr) :
    { t.outline with nullable := true } = t.outline ↔ t.required = false := by
  constructor
  · intro h
    have hnullable : true = !t.required := congrArg TypeRef.nullable h
    exact (Bool.not_eq_true' _).mp hnullable.symm
  · intro h
    rw [outline, h]
    rfl

/-- The texts of the grammar are those of the types. A type is read with its name, the number of its
lists and its outermost mark. The element of a list of it is read alike but as one that allows null,
and so as the type itself exactly if that one has no mark. -/
theorem keeps_outline :
    (∀ s, IsText s ↔ ∃ t : TypeExpr, t.text = s) ∧
      ∀ t : TypeExpr,
        parse t.text = { name := t.name, listDepth := t.depth, nullable := !t.required } ∧
        ∀ required,
          (parse (list t required).text).item = { parse t.text with nullable := true } ∧
          ((parse (list t required).text).item = parse t.text ↔ t.required = false) := by
  refine ⟨fun s => isText_iff, fun t => ⟨t.parse_text, fun required => ?_⟩⟩
  refine ⟨t.item_parse_list required, ?_⟩
  rw [item_parse_list, parse_text]
  exact t.nullable_outline_iff

/-- In lists of users that must be there, a user is read as one that may be null. -/
theorem required_item_forgotten :
    IsText "User!" ∧ (parse "[User!]").item ≠ parse "User!" ∧
      (parse "[User!]!").item ≠ parse "User!" := by
  refine ⟨?_, by decide, by decide⟩
  have hmarked : IsText ("User" ++ "!") := .required (.name (by decide)) (by decide)
  exact hmarked

end TypeExpr
end LazyGraph
