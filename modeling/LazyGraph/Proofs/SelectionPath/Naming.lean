import Mathlib.Data.List.Forall2
import Mathlib.Data.List.Infix
import LazyGraph.Proofs.Text.Blank
import LazyGraph.SelectionPath

/-!
What the fields of an accepted path are called. The checks for an empty segment and for a position
look at a segment with its arguments, and a segment is trimmed before its positions are stripped;
so the name that is left is proper exactly if it passes both again.
-/
namespace LazyGraph.SelectionPath

open Text (Trimmed isBlank isDigit stripBoth trimmed_stripBoth)

/-- A name of a field: not empty, without blanks at its ends, and no bare position. -/
structure IsFieldName (name : List Char) : Prop where
  nonempty : name ≠ []
  trimmed : Trimmed name
  not_position : name.all isDigit = false

/-- The texts of the fields among segments: without positions, those of digits passed over. -/
def fieldTextsOf (pieces : List (List Char)) : List (List Char) :=
  (pieces.map withoutPositions).filter fun cs => !cs.all isDigit

/-- The texts of the fields of a path; none where its brackets are out of balance. -/
def fieldTexts (path : String) : List (List Char) :=
  match split '.' path.toList with
  | .ok pieces => fieldTextsOf (pieces.map (stripBoth isBlank))
  | .error _ => []

/-- More than digits and blanks stands in front of the arguments, and no blank at the end of a
field without arguments. -/
def Tidy (cs : List Char) : Prop :=
  if '(' ∈ cs then (stripBoth isBlank (cs.takeWhile (· ≠ '('))).all isDigit = false
  else ∀ c ∈ cs.getLast?, isBlank c = false

/-! ### Stripping positions -/

theorem beforeBracket?_suffix {cs rest : List Char} (h : beforeBracket? cs = some rest) :
    rest <:+ cs := by
  induction cs using beforeBracket?.induct with
  | case1 => cases h
  | case2 cs =>
      obtain rfl := Option.some.inj h
      exact List.suffix_cons '[' cs
  | case3 c cs hc ih =>
      rw [beforeBracket?.eq_3 _ _ hc] at h
      exact (ih h).trans (List.suffix_cons c cs)

theorem stripPositions_suffix (fuel : Nat) (cs : List Char) : stripPositions fuel cs <:+ cs := by
  induction fuel, cs using stripPositions.induct with
  | case1 fuel cs rest hbefore ih =>
      rw [stripPositions, hbefore]
      exact ih.trans (beforeBracket?_suffix hbefore)
  | case2 fuel cs hbefore =>
      rw [stripPositions, hbefore]
  | case3 fuel cs h =>
      rw [stripPositions.eq_2 _ _ h]

theorem withoutPositions_prefix (cs : List Char) : withoutPositions cs <+: cs := by
  have hsuffix := stripPositions_suffix cs.length cs.reverse
  rw [withoutPositions, ← List.reverse_suffix, List.reverse_reverse]
  exact hsuffix

/-- Stripping positions uncovers no blank at the start. -/
theorem isBlank_head?_withoutPositions {cs : List Char} (h : Trimmed cs) :
    ∀ c ∈ (withoutPositions cs).head?, isBlank c = false := by
  intro c hc
  obtain ⟨rest, hrest⟩ := withoutPositions_prefix cs
  refine h.first c ?_
  rw [← hrest, List.head?_append, hc]
  rfl

/-! ### Fields -/

/-- What a field is called in its text. -/
def nameText (cs : List Char) : List Char :=
  if '(' ∈ cs then stripBoth isBlank (cs.takeWhile (· ≠ '(')) else cs

theorem segment_name {cs : List Char} {s : PathSegment} (h : segment cs = .ok s) :
    s.name.toList = nameText cs := by
  rw [segment] at h
  cases hrest : cs.dropWhile (· ≠ '(') with
  | nil =>
      have hnone : '(' ∉ cs := by
        intro hm
        have hdropped := List.dropWhile_eq_nil_iff.mp hrest '(' hm
        exact absurd hdropped (by decide)
      rw [hrest] at h
      obtain rfl := Except.ok.inj h
      rw [nameText, if_neg hnone, String.toList_ofList]
  | cons c rest =>
      have hopen : '(' ∈ cs := by
        by_contra hnone
        have hdropped : cs.dropWhile (· ≠ '(') = [] := by
          refine List.dropWhile_eq_nil_iff.mpr fun c hc => decide_eq_true ?_
          rintro rfl
          exact hnone hc
        rw [hdropped] at hrest
        cases hrest
      rw [hrest] at h
      simp only at h
      split at h
      · cases harguments : SelectionPath.arguments rest.dropLast with
        | error fault => rw [harguments] at h; cases h
        | ok arguments =>
            rw [harguments] at h
            obtain rfl := Except.ok.inj h
            rw [nameText, if_pos hopen, String.toList_ofList]
      · cases h

theorem isFieldName_nameText_iff {cs : List Char} (position : cs.all isDigit = false)
    (first : ∀ c ∈ cs.head?, isBlank c = false) : IsFieldName (nameText cs) ↔ Tidy cs := by
  rw [nameText, Tidy]
  split
  · refine ⟨fun h => h.not_position, fun h => ⟨?_, trimmed_stripBoth _, h⟩⟩
    intro he
    rw [he] at h
    cases h
  · refine ⟨fun h => h.trimmed.last, fun h => ⟨?_, ⟨first, h⟩, position⟩⟩
    rintro rfl
    cases position

/-- The fields of accepted segments are read from their texts, one by one. -/
theorem forall₂_of_segments {path : String} {pieces : List (List Char)}
    {fields : List PathSegment} (h : segments path pieces = .ok fields) :
    List.Forall₂ (fun cs s => segment cs = .ok s) (fieldTextsOf pieces) fields := by
  induction pieces generalizing fields with
  | nil =>
      obtain rfl := Except.ok.inj h
      exact .nil
  | cons cs pieces ih =>
      rw [segments] at h
      rw [fieldTextsOf, List.map_cons]
      simp only at h
      split at h
      · cases h
      · split at h
        · rename_i hposition
          rw [List.filter_cons_of_neg (by rw [hposition]; decide)]
          exact ih h
        · rename_i hposition
          rw [List.filter_cons_of_pos (by rw [Bool.eq_false_iff.mpr hposition]; decide)]
          cases hsegment : segment (withoutPositions cs) with
          | error fault => rw [hsegment] at h; cases h
          | ok s =>
              cases hrest : segments path pieces with
              | error fault => rw [hsegment, hrest] at h; cases h
              | ok rest =>
                  rw [hsegment, hrest] at h
                  obtain rfl := Except.ok.inj h
                  exact .cons hsegment (ih hrest)

/-- An accepted path has a field at least, read from its texts. -/
theorem forall₂_of_parse {path : String} {fields : List PathSegment}
    (h : parse path = .ok fields) :
    fields ≠ [] ∧ List.Forall₂ (fun cs s => segment cs = .ok s) (fieldTexts path) fields := by
  rw [fieldTexts]
  rw [parse] at h
  cases hsplit : split '.' path.toList with
  | error fault => rw [hsplit] at h; cases h
  | ok pieces =>
      cases hsegments : segments path (pieces.map (stripBoth isBlank)) with
      | error fault => simp only [hsplit, hsegments, bind, Except.bind] at h; cases h
      | ok found =>
          cases found with
          | nil => simp only [hsplit, hsegments, bind, Except.bind] at h; cases h
          | cons s found =>
              simp only [hsplit, hsegments, bind, Except.bind] at h
              obtain rfl := Except.ok.inj h
              exact ⟨List.cons_ne_nil s found, forall₂_of_segments hsegments⟩

theorem mem_fieldTexts {path : String} {cs : List Char} (h : cs ∈ fieldTexts path) :
    cs.all isDigit = false ∧ ∀ c ∈ cs.head?, isBlank c = false := by
  rw [fieldTexts] at h
  split at h
  · obtain ⟨hmem, hposition⟩ := List.mem_filter.mp h
    rw [Bool.not_eq_eq_eq_not, Bool.not_true] at hposition
    obtain ⟨piece, hpiece, rfl⟩ := List.mem_map.mp hmem
    obtain ⟨raw, _, rfl⟩ := List.mem_map.mp hpiece
    exact ⟨hposition, isBlank_head?_withoutPositions (trimmed_stripBoth raw)⟩
  · cases h

/-- The names of an accepted path are those in its texts. -/
theorem names_of_parse {path : String} {fields : List PathSegment} (h : parse path = .ok fields) :
    (fieldTexts path).map nameText = fields.map (·.name.toList) := by
  rw [← List.forall₂_eq_eq_eq, List.forall₂_map_left_iff, List.forall₂_map_right_iff]
  exact (forall₂_of_parse h).2.imp fun _ _ hs => (segment_name hs).symm

/-- A path is rejected, or it has a field at least; and its fields have proper names exactly if
all of its texts are tidy. -/
theorem parse_names (path : String) :
    (∃ fault, parse path = .error fault) ∨
      ∃ fields, parse path = .ok fields ∧ fields ≠ [] ∧
        ((∀ s ∈ fields, IsFieldName s.name.toList) ↔ ∀ cs ∈ fieldTexts path, Tidy cs) := by
  cases hparse : parse path with
  | error fault => exact .inl ⟨fault, rfl⟩
  | ok fields =>
      refine .inr ⟨fields, rfl, (forall₂_of_parse hparse).1, ?_⟩
      rw [← List.forall_mem_map (P := IsFieldName), ← names_of_parse hparse, List.forall_mem_map]
      refine forall₂_congr fun cs hcs => ?_
      obtain ⟨hposition, hfirst⟩ := mem_fieldTexts hcs
      exact isFieldName_nameText_iff hposition hfirst

/-- Arguments alone make a field without a name, a position in front of arguments is taken for a
name, and a blank in front of a stripped position stays. -/
theorem parse_misnamed :
    (parse "(id:1)").toOption.map (·.map (·.name)) = some [""] ∧
      (parse "0(id:1)").toOption.map (·.map (·.name)) = some ["0"] ∧
      (parse "a [0]").toOption.map (·.map (·.name)) = some ["a "] ∧
      ¬ ∀ path fields, parse path = .ok fields → ∀ s ∈ fields, IsFieldName s.name.toList := by
  refine ⟨by decide +kernel, by decide +kernel, by decide +kernel, fun h => ?_⟩
  have hempty : ∃ fields, parse "(id:1)" = .ok fields ∧ fields.map (·.name) = [""] :=
    ⟨[{ name := "", arguments := [("id", .number (.int 1))] }], rfl, rfl⟩
  obtain ⟨fields, hparse, hnames⟩ := hempty
  obtain ⟨s, hs, hname⟩ := List.mem_map.mp (hnames ▸ List.mem_singleton_self "")
  exact (h "(id:1)" fields hparse s hs).nonempty (congrArg String.toList hname)

end LazyGraph.SelectionPath
