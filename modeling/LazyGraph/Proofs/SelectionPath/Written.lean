import LazyGraph.Proofs.Fields
import LazyGraph.Proofs.Selection.Tree
import LazyGraph.Proofs.SelectionPath.Splitting

/-!
Written paths are read back: each field with its arguments in canonical text, in any mixture with
list positions, as suffixes in brackets or as segments of digits.
-/
namespace LazyGraph

namespace Text

theorem Trimmed.append {cs cs' : List Char} (h : Trimmed cs) (h' : Trimmed cs') :
    Trimmed (cs ++ cs') where
  first c hc := by
    rw [List.head?_append] at hc
    cases hfirst : cs.head? with
    | none =>
        rw [hfirst] at hc
        exact h'.first c hc
    | some d =>
        rw [hfirst] at hc
        exact h.first c (hfirst.trans hc)
  last c hc := by
    rw [List.getLast?_append] at hc
    cases hlast : cs'.getLast? with
    | none =>
        rw [hlast] at hc
        exact h.last c hc
    | some d =>
        rw [hlast] at hc
        exact h'.last c (hlast.trans hc)

end Text

namespace SelectionPath

open Json (chars)
open Text (Trimmed isBlank isDigit stripBoth)

/-! ### The grammar of paths -/

/-- The characters that have a meaning in paths. -/
def marks : List Char := ['.', ',', ':'] ++ delimiters

/-- A name without blanks and without characters that have a meaning in paths. -/
structure IsName (name : String) : Prop where
  nonempty : name.toList ≠ []
  plain : ∀ c ∈ name.toList, c ∉ marks ∧ isBlank c = false

/-- A field with arguments whose names a path can hold. The name of the field is no position. -/
structure Proper (s : PathSegment) : Prop where
  named : IsName s.name
  not_position : s.name.toList.all isDigit = false
  arguments : ∀ a ∈ s.arguments, IsName a.1
  ascending : Fields.Ascending s.arguments

/-- A list position, leading zeros allowed. -/
structure Numeral where
  digits : List Char
  nonempty : digits ≠ []
  decimal : digits.all isDigit = true

def argumentText (a : String × Json) : List Char := a.1.toList ++ ':' :: chars a.2

def argumentsText (arguments : List (String × Json)) : List Char :=
  [','].intercalate (arguments.map argumentText)

/-- A position in brackets. -/
def positionText (n : Numeral) : List Char := '[' :: (n.digits ++ [']'])

/-- The texts of a field: its name, and its arguments in parentheses in any order. Where there are
no arguments the parentheses may be left out. -/
inductive Writes (s : PathSegment) : List Char → Prop
  | name (none : s.arguments = []) : Writes s s.name.toList
  | call {written : List (String × Json)} (all : written.Perm s.arguments) :
    Writes s (s.name.toList ++ '(' :: (argumentsText written ++ [')']))

/-- The segments of a path that holds the given fields, with positions anywhere among them. -/
inductive WritesPath : List PathSegment → List (List Char) → Prop
  | nil : WritesPath [] []
  | field {s : PathSegment} {segments : List PathSegment} {text : List Char}
    {texts : List (List Char)} (written : Writes s text) (positions : List Numeral)
    (rest : WritesPath segments texts) :
    WritesPath (s :: segments) ((text ++ positions.flatMap positionText) :: texts)
  | position {segments : List PathSegment} {texts : List (List Char)} (n : Numeral)
    (positions : List Numeral) (rest : WritesPath segments texts) :
    WritesPath segments ((n.digits ++ positions.flatMap positionText) :: texts)

/-- The canonical text of a value is read back as that value. -/
def IsRead (v : Json) : Prop := Json.parseChars? (chars v) = some v

/-! ### Names and numerals -/

namespace IsName

variable {name : String}

/-- Letters, digits and underscores make a name. -/
theorem of_isNameChar (nonempty : name.toList ≠ [])
    (h : name.toList.all Selection.isNameChar = true) : IsName name := by
  have hchar := List.all_eq_true.mp h
  have hmarks : marks.any Selection.isNameChar = false := by decide
  refine ⟨nonempty, fun c hc => ⟨fun hm => ?_, Selection.isBlank_of_isNameChar (hchar c hc)⟩⟩
  exact List.any_eq_false.mp hmarks c hm (hchar c hc)

theorem trimmed (h : IsName name) : Trimmed name.toList := .of_forall fun c hc => (h.plain c hc).2

theorem not_mem (h : IsName name) {c : Char} (hc : c ∈ marks) : c ∉ name.toList :=
  fun hm => (h.plain c hm).1 hc

theorem carries (h : IsName name) {sep : Char} (hsep : sep ∈ marks) (depth : Nat) :
    Carries sep (.outside depth) name.toList (.outside depth) := by
  refine .plain fun c hc => ⟨fun hm => (h.plain c hc).1 (List.mem_append_right _ hm), fun he => ?_⟩
  exact absurd (he ▸ hsep) (h.plain c hc).1

theorem ne_of_mem (h : IsName name) {c : Char} (hc : c ∈ marks) :
    ∀ d ∈ name.toList, decide (d ≠ c) = true := by
  intro d hd
  refine decide_eq_true ?_
  rintro rfl
  exact h.not_mem hc hd

/-- A mark behind a name ends it. -/
theorem cut (h : IsName name) {c : Char} (hc : c ∈ marks) (rest : List Char) :
    (name.toList ++ c :: rest).takeWhile (· ≠ c) = name.toList ∧
      (name.toList ++ c :: rest).dropWhile (· ≠ c) = c :: rest := by
  have hstop : decide (c ≠ c) = false := decide_eq_false (fun hne => hne rfl)
  rw [List.takeWhile_append_of_pos (h.ne_of_mem hc), List.dropWhile_append_of_pos (h.ne_of_mem hc)]
  rw [List.takeWhile_cons, List.dropWhile_cons, hstop]
  exact ⟨List.append_nil _, rfl⟩

end IsName

namespace Numeral

variable (n : Numeral)

theorem isDigit_of_mem {c : Char} (hc : c ∈ n.digits) : isDigit c = true :=
  List.all_eq_true.mp n.decimal c hc

theorem trimmed : Trimmed n.digits :=
  .of_forall fun _ hc => Text.isBlank_of_isDigit (n.isDigit_of_mem hc)

theorem not_mem {c : Char} (hc : isDigit c = false) : c ∉ n.digits :=
  fun hm => Bool.eq_false_iff.mp hc (n.isDigit_of_mem hm)

theorem carries (depth : Nat) : Carries '.' (.outside depth) n.digits (.outside depth) := by
  refine .plain fun c hc => ⟨not_mem_delimiters ?_, ?_⟩
  · exact Json.isNumeralChar_of_isDigit (n.isDigit_of_mem hc)
  · rintro rfl
    exact absurd hc (n.not_mem (by decide))

end Numeral

/-! ### Arguments -/

section Arguments

variable {a : String × Json}

theorem trimmed_argumentText (named : IsName a.1) : Trimmed (argumentText a) := by
  have hcolon : Trimmed [':'] := .of_any (by decide)
  exact named.trimmed.append (hcolon.append (Json.trimmed_chars a.2))

theorem carries_argumentText (named : IsName a.1) {sep : Char} {depth : Nat} (hsep : sep ∈ marks)
    (h : sep = ',' ∨ depth ≠ 0) :
    Carries sep (.outside depth) (argumentText a) (.outside depth) := by
  have hcolon : Carries sep (.outside depth) [':'] (.outside depth) :=
    carries_word h (List.forall_mem_singleton.mpr (by decide))
  exact (named.carries hsep depth).append (hcolon.append (carries_chars a.2 h))

theorem argument_argumentText (named : IsName a.1) (read : IsRead a.2) :
    argument (argumentText a) = .ok a := by
  obtain ⟨htake, hdrop⟩ := named.cut (by decide : ':' ∈ marks) (chars a.2)
  have hread : Json.parseChars? (chars a.2) = some a.2 := read
  rw [argument, argumentText, hdrop, htake]
  simp only [named.trimmed.stripBoth, (Json.trimmed_chars a.2).stripBoth, hread,
    String.ofList_toList]

theorem mapM_argument {written : List (String × Json)} (named : ∀ a ∈ written, IsName a.1)
    (read : ∀ a ∈ written, IsRead a.2) :
    (written.map argumentText).mapM argument = .ok written := by
  induction written with
  | nil => rfl
  | cons a written ih =>
      obtain ⟨ha, hnamed⟩ := List.forall_mem_cons.mp named
      obtain ⟨hread, hreads⟩ := List.forall_mem_cons.mp read
      rw [List.map_cons, List.mapM_cons, argument_argumentText ha hread, ih hnamed hreads]
      rfl

/-- Of arguments with one name each the order does not matter. -/
theorem ofList_of_perm {written arguments : List (String × Json)} (all : written.Perm arguments)
    (ascending : Fields.Ascending arguments) : Fields.ofList written = arguments := by
  have hnodup : (Fields.keys written).Nodup :=
    (all.map Prod.fst).nodup_iff.mpr ascending.nodup_keys
  refine Fields.Ascending.ext (Fields.ofList_ascending written) ascending fun key => ?_
  refine Option.ext fun v => ?_
  rw [Fields.get?_ofList_eq_some_iff hnodup, ascending.get?_eq_some_iff, all.mem_iff]

theorem arguments_of_split {cs : List Char} {pieces : List (List Char)}
    {read : List (String × Json)} (hsplit : split ',' cs = .ok pieces)
    (hread : ((pieces.map (stripBoth isBlank)).filter fun cs => !cs.isEmpty).mapM argument =
      .ok read) :
    SelectionPath.arguments cs = .ok (Fields.ofList read) := by
  simp only [SelectionPath.arguments, hsplit, hread, bind, Except.bind, pure, Except.pure]

/-- Arguments that are written in any order are read back. -/
theorem arguments_argumentsText {written arguments : List (String × Json)}
    (all : written.Perm arguments) (ascending : Fields.Ascending arguments)
    (named : ∀ a ∈ arguments, IsName a.1) (read : ∀ a ∈ arguments, IsRead a.2) :
    SelectionPath.arguments (argumentsText written) = .ok arguments := by
  have hnamed : ∀ a ∈ written, IsName a.1 := fun a ha => named a (all.mem_iff.mp ha)
  have hread : ∀ a ∈ written, IsRead a.2 := fun a ha => read a (all.mem_iff.mp ha)
  have hpieces : ∃ pieces, split ',' (argumentsText written) = .ok pieces ∧
      (pieces.map (stripBoth isBlank)).filter (fun cs => !cs.isEmpty) =
        written.map argumentText := by
    cases written with
    | nil => exact ⟨[[]], rfl, rfl⟩
    | cons a rest =>
        refine ⟨(a :: rest).map argumentText, split_intercalate (by simp) ?_, ?_⟩
        · exact List.forall_mem_map.mpr fun a ha =>
            carries_argumentText (hnamed a ha) (by decide) (.inl rfl)
        · have hstrip : ((a :: rest).map argumentText).map (stripBoth isBlank) =
              (a :: rest).map argumentText := by
            rw [List.map_map]
            exact List.map_congr_left fun a ha => (trimmed_argumentText (hnamed a ha)).stripBoth
          rw [hstrip, List.filter_eq_self]
          refine List.forall_mem_map.mpr fun a _ => ?_
          simp [argumentText]
  obtain ⟨pieces, hsplit, hkept⟩ := hpieces
  rw [arguments_of_split hsplit (hkept ▸ mapM_argument hnamed hread),
    ofList_of_perm all ascending]

end Arguments

/-! ### Positions at the end of a segment -/

theorem beforeBracket?_append {cs : List Char} (h : '[' ∉ cs) (rest : List Char) :
    beforeBracket? (cs ++ '[' :: rest) = some rest := by
  induction cs with
  | nil => rfl
  | cons c cs ih =>
      obtain ⟨hc, hcs⟩ := not_or.mp (mt List.mem_cons.mpr h)
      rw [List.cons_append, beforeBracket?, ih hcs]
      exact fun he => hc he.symm

theorem stripPositions_of_head? {cs : List Char} (h : cs.head? ≠ some ']') (fuel : Nat) :
    stripPositions fuel cs = cs := by
  cases fuel with
  | zero => rfl
  | succ fuel =>
      rw [stripPositions]
      rintro _ rest - rfl
      exact h rfl

theorem stripPositions_positions (positions : List Numeral) {cs : List Char}
    (h : cs.head? ≠ some ']') {fuel : Nat} (enough : positions.length ≤ fuel) :
    stripPositions fuel ((positions.flatMap positionText).reverse ++ cs) = cs := by
  induction positions using List.reverseRecOn generalizing fuel with
  | nil => exact stripPositions_of_head? h fuel
  | append_singleton positions n ih =>
      rw [List.length_append, List.length_singleton] at enough
      obtain ⟨fuel, rfl⟩ : ∃ k, fuel = k + 1 := ⟨fuel - 1, by omega⟩
      have hopen : '[' ∉ ']' :: n.digits.reverse := by
        refine not_or.mpr ⟨by decide, ?_⟩ ∘ List.mem_cons.mp
        exact fun hm => n.not_mem (by decide) (List.mem_reverse.mp hm)
      have htext : ((positions ++ [n]).flatMap positionText).reverse ++ cs =
          ']' :: n.digits.reverse ++ '[' :: ((positions.flatMap positionText).reverse ++ cs) := by
        simp [positionText]
      have hbefore := beforeBracket?_append hopen ((positions.flatMap positionText).reverse ++ cs)
      rw [htext]
      rw [List.cons_append] at hbefore ⊢
      rw [stripPositions, hbefore]
      exact ih (by omega)

/-- Positions at the end of a segment are stripped. -/
theorem withoutPositions_append {text : List Char} (h : text.getLast? ≠ some ']')
    (positions : List Numeral) :
    withoutPositions (text ++ positions.flatMap positionText) = text := by
  have hlength : positions.length ≤ (positions.flatMap positionText).length := by
    induction positions with
    | nil => exact Nat.zero_le _
    | cons n positions ih =>
        rw [List.flatMap_cons, List.length_append, List.length_cons, positionText, List.length_cons]
        omega
  rw [withoutPositions, List.reverse_append, stripPositions_positions positions,
    List.reverse_reverse]
  · rwa [List.head?_reverse]
  · rw [List.length_append]
    omega

theorem trimmed_positions (positions : List Numeral) :
    Trimmed (positions.flatMap positionText) := by
  induction positions with
  | nil => exact .of_forall (by simp)
  | cons n positions ih =>
      exact (Json.trimmed_enclosed (by decide) (by decide) n.digits).append ih

theorem carries_positions (positions : List Numeral) :
    Carries '.' (.outside 0) (positions.flatMap positionText) (.outside 0) :=
  .flatMap fun n _ => .enclosed (by decide) (by decide) (by decide) (n.carries 1)

/-! ### Segments -/

section Segments

variable {s : PathSegment} {text : List Char}

theorem Writes.trimmed (written : Writes s text) (proper : Proper s) : Trimmed text := by
  cases written with
  | name none => exact proper.named.trimmed
  | call all => exact proper.named.trimmed.append (Json.trimmed_enclosed (by decide) (by decide) _)

theorem carries_argumentsText {written : List (String × Json)}
    (named : ∀ a ∈ written, IsName a.1) :
    Carries '.' (.outside 1) (argumentsText written) (.outside 1) := by
  rw [argumentsText]
  induction written with
  | nil => exact .nil '.' _
  | cons a written ih =>
      obtain ⟨ha, hrest⟩ := List.forall_mem_cons.mp named
      have hfirst : Carries '.' (.outside 1) (argumentText a) (.outside 1) :=
        carries_argumentText ha (by decide) (.inr Nat.one_ne_zero)
      cases written with
      | nil => rwa [List.map_singleton, List.intercalate_singleton]
      | cons b written =>
          rw [List.map_cons, List.map_cons, List.intercalate_cons_cons]
          exact (hfirst.append (carries_comma '.' 0)).append (ih hrest)

theorem Writes.carries (written : Writes s text) (proper : Proper s) :
    Carries '.' (.outside 0) text (.outside 0) := by
  have hname : Carries '.' (.outside 0) s.name.toList (.outside 0) :=
    proper.named.carries (by decide) 0
  cases written with
  | name none => exact hname
  | call all =>
      refine hname.append (.enclosed (by decide) (by decide) (by decide) ?_)
      exact carries_argumentsText fun a ha => proper.arguments a (all.mem_iff.mp ha)

theorem Writes.getLast? (written : Writes s text) (proper : Proper s) :
    text.getLast? ≠ some ']' := by
  cases written with
  | name none =>
      exact fun h => proper.named.not_mem (by decide) (List.mem_of_mem_getLast? h)
  | call all =>
      rw [← List.cons_append, ← List.append_assoc, List.getLast?_concat]
      decide

/-- A field is no position, whatever its arguments are. -/
theorem Writes.all_isDigit (written : Writes s text) (proper : Proper s) :
    text.all isDigit = false := by
  cases written with
  | name none => exact proper.not_position
  | call all => rw [List.all_append, proper.not_position, Bool.false_and]

/-- A written field is read back. -/
theorem segment_of_writes (written : Writes s text) (proper : Proper s)
    (read : ∀ a ∈ s.arguments, IsRead a.2) : segment text = .ok s := by
  cases written with
  | name none =>
      have hdrop : s.name.toList.dropWhile (· ≠ '(') = [] :=
        List.dropWhile_eq_nil_iff.mpr (proper.named.ne_of_mem (by decide))
      rw [segment, hdrop]
      refine congrArg Except.ok ?_
      rw [String.ofList_toList, ← none]
  | @call written all =>
      obtain ⟨htake, hdrop⟩ :=
        proper.named.cut (by decide : '(' ∈ marks) (argumentsText written ++ [')'])
      have harguments := arguments_argumentsText all proper.ascending proper.arguments read
      rw [segment, hdrop, htake]
      simp only [List.getLast?_concat, if_true, List.dropLast_concat, harguments,
        proper.named.trimmed.stripBoth, String.ofList_toList]
      rfl

end Segments

/-! ### Paths -/

section Paths

variable {fields : List PathSegment} {texts : List (List Char)}

theorem WritesPath.trimmed (written : WritesPath fields texts) (proper : ∀ s ∈ fields, Proper s) :
    ∀ text ∈ texts, Trimmed text := by
  induction written with
  | nil => exact fun _ h => nomatch h
  | field written positions _ ih =>
      obtain ⟨hs, hrest⟩ := List.forall_mem_cons.mp proper
      exact List.forall_mem_cons.mpr
        ⟨(written.trimmed hs).append (trimmed_positions positions), ih hrest⟩
  | position n positions _ ih =>
      exact List.forall_mem_cons.mpr
        ⟨n.trimmed.append (trimmed_positions positions), ih proper⟩

theorem WritesPath.carries (written : WritesPath fields texts) (proper : ∀ s ∈ fields, Proper s) :
    ∀ text ∈ texts, Carries '.' (.outside 0) text (.outside 0) := by
  induction written with
  | nil => exact fun _ h => nomatch h
  | field written positions _ ih =>
      obtain ⟨hs, hrest⟩ := List.forall_mem_cons.mp proper
      exact List.forall_mem_cons.mpr
        ⟨(written.carries hs).append (carries_positions positions), ih hrest⟩
  | position n positions _ ih =>
      exact List.forall_mem_cons.mpr
        ⟨(n.carries 0).append (carries_positions positions), ih proper⟩

/-- Written segments are read back as the fields among them. -/
theorem segments_of_writesPath (path : String) (written : WritesPath fields texts)
    (proper : ∀ s ∈ fields, Proper s) (read : ∀ s ∈ fields, ∀ a ∈ s.arguments, IsRead a.2) :
    segments path texts = .ok fields := by
  induction written with
  | nil => rfl
  | @field s fields text texts written positions rest ih =>
      obtain ⟨hs, hproper⟩ := List.forall_mem_cons.mp proper
      obtain ⟨hread, hreads⟩ := List.forall_mem_cons.mp read
      have hall := written.all_isDigit hs
      have hne : text.isEmpty = false := by
        cases text with
        | nil => cases hall
        | cons c text => rfl
      rw [segments, withoutPositions_append (written.getLast? hs)]
      simp only [hne, hall, Bool.false_eq_true, if_false, segment_of_writes written hs hread,
        ih hproper hreads]
      rfl
  | @position fields texts n positions rest ih =>
      have hlast : n.digits.getLast? ≠ some ']' :=
        fun h => n.not_mem (by decide) (List.mem_of_mem_getLast? h)
      have hne : n.digits.isEmpty = false := List.isEmpty_eq_false_iff.mpr n.nonempty
      rw [segments, withoutPositions_append hlast]
      simp only [hne, n.decimal, Bool.false_eq_true, if_false, if_true]
      exact ih proper read

/-- A written path is read back as its fields. -/
theorem parse_written (written : WritesPath fields texts) (nonempty : fields ≠ [])
    (proper : ∀ s ∈ fields, Proper s) (read : ∀ s ∈ fields, ∀ a ∈ s.arguments, IsRead a.2) :
    parse (String.ofList (['.'].intercalate texts)) = .ok fields := by
  have htexts : texts ≠ [] := by
    rintro rfl
    cases written
    exact nonempty rfl
  have hstrip : texts.map (stripBoth isBlank) = texts := by
    conv_rhs => rw [← List.map_id texts]
    exact List.map_congr_left fun text h => (written.trimmed proper text h).stripBoth
  have hsplit := split_intercalate htexts (written.carries proper)
  have hne : fields.isEmpty = false := List.isEmpty_eq_false_iff.mpr nonempty
  simp only [parse, String.toList_ofList, hsplit, hstrip, segments_of_writesPath _ written proper read,
    hne, Bool.false_eq_true, if_false, bind, Except.bind, pure, Except.pure]

end Paths

/-- The fields of a path with positions of both kinds and a string full of marks. -/
def friendNames : List PathSegment :=
  [{ name := "user", arguments := [("id", .number (.int 1)), ("tag", .string "a.b)\"[")] },
    { name := "friends" }, { name := "name" }]

theorem parse_friendNames :
    parse "3.user(tag:\"a.b)\\\"[\",id:1).friends[0][12].name" = .ok friendNames := by
  have hnamed (s : String) (h : s.toList ≠ [] ∧ s.toList.all Selection.isNameChar = true) :
      IsName s := .of_isNameChar h.1 h.2
  have hid := hnamed "id" (by decide)
  have htag := hnamed "tag" (by decide)
  have proper : ∀ s ∈ friendNames, Proper s := by
    refine List.forall_mem_cons.mpr ⟨⟨hnamed _ (by decide), by decide, ?_, ?_⟩, ?_⟩
    · exact List.forall_mem_cons.mpr ⟨hid, List.forall_mem_singleton.mpr htag⟩
    · exact List.pairwise_pair.mpr (by decide)
    · refine List.forall_mem_cons.mpr ⟨?_, List.forall_mem_singleton.mpr ?_⟩
      · exact ⟨hnamed _ (by decide), by decide, List.forall_mem_nil _, .nil⟩
      · exact ⟨hnamed _ (by decide), by decide, List.forall_mem_nil _, .nil⟩
  have read : ∀ s ∈ friendNames, ∀ a ∈ s.arguments, IsRead a.2 := by
    refine List.forall_mem_cons.mpr ⟨?_, List.forall_mem_cons.mpr
      ⟨List.forall_mem_nil _, List.forall_mem_singleton.mpr (List.forall_mem_nil _)⟩⟩
    exact List.forall_mem_cons.mpr ⟨rfl, List.forall_mem_singleton.mpr rfl⟩
  obtain ⟨texts, written, htext⟩ : ∃ texts, WritesPath friendNames texts ∧
      String.ofList (['.'].intercalate texts) =
        "3.user(tag:\"a.b)\\\"[\",id:1).friends[0][12].name" :=
    ⟨_, .position ⟨['3'], by decide, by decide⟩ []
      (.field (.call (List.Perm.swap _ _ [])) []
        (.field (.name rfl) [⟨['0'], by decide, by decide⟩, ⟨['1', '2'], by decide, by decide⟩]
          (.field (.name rfl) [] .nil))), by decide +kernel⟩
  rw [← htext]
  exact parse_written written (List.cons_ne_nil _ _) proper read

end SelectionPath
end LazyGraph
