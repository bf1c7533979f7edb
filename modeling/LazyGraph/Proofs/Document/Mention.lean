import LazyGraph.Proofs.Document.Typing

/-!
The variables that the text of a document mentions: the names behind its dollar signs.
-/
namespace LazyGraph.Document

open Selection (isGraphName isNameChar)

/-- The names behind the dollar signs of a text. -/
def dollarNames : List Char → List String
  | [] => []
  | c :: cs =>
    if c = '$' then String.ofList (cs.takeWhile isNameChar) :: dollarNames cs
    else dollarNames cs

def mentioned (text : String) : List String := dollarNames text.toList

theorem dollarNames_append_of_not_mem {cs : List Char} (h : '$' ∉ cs) (rest : List Char) :
    dollarNames (cs ++ rest) = dollarNames rest := by
  induction cs with
  | nil => rfl
  | cons c cs ih =>
      obtain ⟨hc, hcs⟩ := not_or.mp (mt List.mem_cons.mpr h)
      rw [List.cons_append, dollarNames, if_neg (Ne.symm hc), ih hcs]

theorem dollarNames_eq_nil {cs : List Char} (h : '$' ∉ cs) : dollarNames cs = [] := by
  rw [← List.append_nil cs, dollarNames_append_of_not_mem h]
  rfl

theorem takeWhile_append_cons {c : Char} (hc : isNameChar c = false) (cs rest : List Char) :
    (cs ++ c :: rest).takeWhile isNameChar = cs.takeWhile isNameChar := by
  induction cs with
  | nil => rw [List.nil_append, List.takeWhile_cons, hc]; rfl
  | cons d cs ih => simp only [List.cons_append, List.takeWhile_cons, ih]

/-- A character that no name has parts the names before it from those after it. -/
theorem dollarNames_append_cons {c : Char} (hc : isNameChar c = false) (cs rest : List Char) :
    dollarNames (cs ++ c :: rest) = dollarNames cs ++ dollarNames (c :: rest) := by
  induction cs with
  | nil => rfl
  | cons d cs ih =>
      rw [List.cons_append, dollarNames, dollarNames, ih, takeWhile_append_cons hc]
      split <;> rfl

theorem dollarNames_cons_of_ne {c : Char} (h : c ≠ '$') (cs : List Char) :
    dollarNames (c :: cs) = dollarNames cs := by
  rw [dollarNames, if_neg h]

/-- Behind a text without dollar signs stands a variable. -/
theorem dollarNames_variable {before name : List Char} (hb : '$' ∉ before)
    (hn : ∀ c ∈ name, isNameChar c = true) :
    dollarNames (before ++ '$' :: name) = [String.ofList name] := by
  have hname : '$' ∉ name := fun h => absurd (hn _ h) (by decide)
  have htake : (name ++ []).takeWhile isNameChar = name ++ [] := List.takeWhile_append_of_pos hn
  rw [List.append_nil] at htake
  rw [dollarNames_append_of_not_mem hb, dollarNames, if_pos rfl, dollarNames_eq_nil hname, htake]

theorem mentioned_intercalate (pieces : List String) :
    mentioned (",".intercalate pieces) = pieces.flatMap mentioned := by
  have hcomma : ",".toList = [','] := rfl
  rw [mentioned, String.toList_intercalate, hcomma]
  induction pieces with
  | nil => rfl
  | cons piece pieces ih =>
      cases pieces with
      | nil => simp [mentioned]
      | cons next pieces =>
          rw [List.map_cons, List.map_cons, List.intercalate_cons_cons, List.append_assoc,
            List.singleton_append, dollarNames_append_cons (by decide),
            dollarNames_cons_of_ne (by decide), ← List.map_cons, ih]
          rfl

namespace Head

/-- The variables of the arguments. -/
def uses : Head → List String
  | .field _ _ arguments => arguments.map (·.2)
  | .branch _ => []

/-- All that is written in a head, variables included, is a name. -/
def Named : Head → Prop
  | .field aliasName name arguments =>
    aliasName.all isGraphName = true ∧ isGraphName name = true ∧
      ∀ a ∈ arguments, isGraphName a.1 = true ∧ isGraphName a.2 = true
  | .branch type => isGraphName type = true

instance (h : Head) : Decidable h.Named :=
  match h with
  | .field .. => inferInstanceAs (Decidable (_ ∧ _ ∧ _))
  | .branch _ => inferInstanceAs (Decidable (_ = true))

theorem dollar_not_mem {s : String} (h : isGraphName s = true) : '$' ∉ s.toList :=
  Selection.not_mem_of_isGraphName h (by decide)

theorem toList_argumentText (a : String × String) :
    (argumentText a).toList = a.1.toList ++ ':' :: '$' :: a.2.toList := by
  simp [argumentText, toString, String.toList_append]

theorem mentioned_argumentText {a : String × String} (ha : isGraphName a.1 = true)
    (hv : isGraphName a.2 = true) : mentioned (argumentText a) = [a.2] := by
  have htext : (argumentText a).toList = (a.1.toList ++ [':']) ++ '$' :: a.2.toList := by
    rw [toList_argumentText, List.append_assoc]
    rfl
  have hbefore : '$' ∉ a.1.toList ++ [':'] := by
    simpa using dollar_not_mem ha
  rw [mentioned, htext, dollarNames_variable hbefore (Selection.isNameChar_of_isGraphName hv),
    String.ofList_toList]

theorem dollarNames_argumentsText {arguments : List (String × String)}
    (h : ∀ a ∈ arguments, isGraphName a.1 = true ∧ isGraphName a.2 = true) :
    dollarNames (argumentsText arguments) = arguments.map (·.2) := by
  cases harguments : arguments with
  | nil => rfl
  | cons first rest =>
      rw [← harguments]
      have htext : argumentsText arguments =
          '(' :: ((",".intercalate (arguments.map argumentText)).toList ++ [')']) := by
        rw [harguments, argumentsText, String.toList_append]
        · rfl
        · exact List.cons_ne_nil _ _
      have hpieces := mentioned_intercalate (arguments.map argumentText)
      rw [mentioned, List.flatMap_map] at hpieces
      rw [htext, dollarNames_cons_of_ne (by decide), dollarNames_append_cons (by decide), hpieces]
      have hclosed : dollarNames [')'] = [] := rfl
      rw [hclosed, List.append_nil, List.map_eq_flatMap]
      exact List.flatMap_congr fun a ha => mentioned_argumentText (h a ha).1 (h a ha).2

theorem Named.mentioned_text {h : Head} (named : h.Named) : mentioned h.text = h.uses := by
  cases h with
  | branch type =>
      apply dollarNames_eq_nil
      rw [text, String.toList_append, List.mem_append, not_or]
      exact ⟨by decide, dollar_not_mem named⟩
  | field aliasName name arguments =>
      obtain ⟨halias, hname, harguments⟩ := named
      have hplain : dollarNames (name.toList ++ argumentsText arguments) = arguments.map (·.2) := by
        rw [dollarNames_append_of_not_mem (dollar_not_mem hname),
          dollarNames_argumentsText harguments]
      rw [mentioned, toList_text]
      cases aliasName with
      | none => exact hplain
      | some a =>
          have ha : '$' ∉ a.toList := dollar_not_mem halias
          rw [dollarNames_append_of_not_mem ha, dollarNames_cons_of_ne (by decide)]
          exact hplain

end Head

/-! ### Trees -/

namespace FieldTree

variable {t u : FieldTree} {name : String}

/-- Induction over a tree with the trees below its heads. -/
theorem induction {P : FieldTree → Prop}
    (node : ∀ children : List (Head × FieldTree), (∀ q ∈ children, P q.2) → P (.node children))
    (t : FieldTree) : P t :=
  FieldTree.rec (motive_1 := P) (motive_2 := fun children => ∀ q ∈ children, P q.2)
    (motive_3 := fun q => P q.2) node (fun _ h => nomatch h)
    (fun _ _ hq hrest => List.forall_mem_cons.mpr ⟨hq, hrest⟩) (fun _ _ h => h) t

theorem toList_text_node (q : Head × FieldTree) (children : List (Head × FieldTree)) :
    (text (.node (q :: children))).toList =
      '\x7b' :: ((childrenText (q :: children)).toList ++ ['\x7d']) := by
  simp [text, String.toList_append]

theorem toList_text_cases (t : FieldTree) :
    t.text.toList = [] ∨ ∃ rest, t.text.toList = '\x7b' :: rest := by
  cases t with
  | node children =>
      cases children with
      | nil => exact .inl rfl
      | cons q children => exact .inr ⟨_, toList_text_node q children⟩

theorem mentioned_append_text (s : String) (t : FieldTree) :
    mentioned (s ++ t.text) = mentioned s ++ mentioned t.text := by
  rw [mentioned, mentioned, mentioned, String.toList_append]
  rcases t.toList_text_cases with h | ⟨rest, h⟩
  · rw [h, List.append_nil, dollarNames, List.append_nil]
  · rw [h, dollarNames_append_cons (by decide)]

theorem mem_mentioned_childrenText {children : List (Head × FieldTree)} :
    name ∈ mentioned (childrenText children) ↔
      ∃ q ∈ children, name ∈ mentioned q.1.text ∨ name ∈ mentioned q.2.text := by
  induction children with
  | nil => simp [childrenText, mentioned, dollarNames]
  | cons q children ih =>
      obtain ⟨h, t⟩ := q
      cases children with
      | nil => simp [childrenText, mentioned_append_text]
      | cons next children =>
          have htext : (childrenText ((h, t) :: next :: children)).toList =
              (h.text ++ t.text).toList ++ ' ' :: (childrenText (next :: children)).toList := by
            simp [childrenText, String.toList_append]
          have hparts : mentioned (childrenText ((h, t) :: next :: children)) =
              mentioned (h.text ++ t.text) ++ mentioned (childrenText (next :: children)) := by
            rw [mentioned, htext, dollarNames_append_cons (by decide),
              dollarNames_cons_of_ne (by decide)]
            rfl
          rw [hparts, mentioned_append_text, List.mem_append, List.mem_append, ih]
          simp only [List.mem_cons, exists_eq_or_imp]

theorem mem_mentioned_node {children : List (Head × FieldTree)} :
    name ∈ mentioned (text (.node children)) ↔
      ∃ q ∈ children, name ∈ mentioned q.1.text ∨ name ∈ mentioned q.2.text := by
  cases children with
  | nil => simp [text, mentioned, dollarNames]
  | cons q children =>
      have hclosed : dollarNames ['\x7d'] = [] := rfl
      rw [mentioned, toList_text_node, dollarNames_cons_of_ne (by decide),
        dollarNames_append_cons (by decide), hclosed, List.append_nil]
      exact mem_mentioned_childrenText

/-- The text of a tree mentions what the heads in it mention. -/
theorem mem_mentioned_text : name ∈ mentioned t.text ↔
    ∃ way head u, t.Holds (way ++ [head]) u ∧ name ∈ mentioned head.text := by
  induction t using FieldTree.induction with
  | node children ih =>
      rw [mem_mentioned_node]
      constructor
      · rintro ⟨q, hq, hname | hname⟩
        · exact ⟨[], q.1, q.2, .child hq (.here q.2), hname⟩
        · obtain ⟨way, head, u, hway, hname⟩ := (ih q hq).mp hname
          exact ⟨q.1 :: way, head, u, .child hq hway, hname⟩
      · rintro ⟨way, head, u, hway, hname⟩
        cases way with
        | nil =>
            cases hway with
            | @child _ v _ _ _ first rest => exact ⟨_, first, .inl hname⟩
        | cons first way =>
            cases hway with
            | @child _ v _ _ _ hfirst rest =>
                exact ⟨_, hfirst, .inr ((ih _ hfirst).mpr ⟨way, head, u, rest, hname⟩)⟩

theorem exists_holds_of_at? {texts : List String} (h : t.at? texts = some u) :
    ∃ way, t.Holds way u ∧ way.map Head.text = texts := by
  induction texts generalizing t with
  | nil =>
      obtain rfl := Option.some.inj h
      exact ⟨[], .here _, rfl⟩
  | cons text texts ih =>
      obtain ⟨v, hv, h⟩ := Option.bind_eq_some_iff.mp h
      obtain ⟨q, hq, rfl⟩ := Option.map_eq_some_iff.mp hv
      obtain ⟨way, hway, htexts⟩ := ih h
      have hfound := List.find?_some hq
      have htext : q.1.text = text := beq_iff_eq.mp hfound
      exact ⟨q.1 :: way, .child (List.mem_of_find?_eq_some hq) hway,
        List.cons_eq_cons.mpr ⟨htext, htexts⟩⟩

/-- What an ordered tree mentions is told by the texts that occur in it. -/
theorem Ordered.mem_mentioned_text (h : t.Ordered) : name ∈ mentioned t.text ↔
    ∃ texts text, (t.at? (texts ++ [text])).isSome ∧ name ∈ mentioned text := by
  rw [FieldTree.mem_mentioned_text]
  constructor
  · rintro ⟨way, head, u, hway, hname⟩
    have hat := h.at?_of_holds hway
    rw [List.map_append, List.map_singleton] at hat
    exact ⟨_, _, Option.isSome_of_eq_some hat, hname⟩
  · rintro ⟨texts, text, hat, hname⟩
    obtain ⟨u, hu⟩ := Option.isSome_iff_exists.mp hat
    obtain ⟨way, hway, htexts⟩ := exists_holds_of_at? hu
    obtain ⟨before, last, rfl, _, hlast⟩ := List.map_eq_append_iff.mp htexts
    obtain ⟨head, rfl, rfl⟩ := List.map_eq_singleton_iff.mp hlast
    exact ⟨before, head, u, hway, hname⟩

end FieldTree

/-! ### The header -/

theorem mentioned_declaration {name type : String} (hn : isGraphName name = true)
    (ht : '$' ∉ type.toList) : mentioned s!"${name}:{type}" = [name] := by
  have htext : (s!"${name}:{type}").toList = ([] ++ '$' :: name.toList) ++ ':' :: type.toList := by
    simp [toString, String.toList_append]
  rw [mentioned, htext, dollarNames_append_cons (by decide),
    dollarNames_variable List.not_mem_nil (Selection.isNameChar_of_isGraphName hn),
    dollarNames_cons_of_ne (by decide), dollarNames_eq_nil ht, String.ofList_toList]
  rfl

/-- The header mentions the declared variables, unless a type has a dollar sign. -/
theorem mentioned_header {vs : Variables} (hn : ∀ v ∈ vs, isGraphName v.1 = true)
    (ht : ∀ v ∈ vs, '$' ∉ v.2.type.toList) : mentioned (header vs) = Fields.keys vs := by
  cases hvs : vs with
  | nil => rfl
  | cons first rest =>
      rw [← hvs]
      have htext : (header vs).toList =
          '(' :: ((",".intercalate (vs.map fun v => s!"${v.1}:{v.2.type}")).toList ++ [')']) := by
        rw [hvs]
        simp [header, String.toList_append]
      have hpieces := mentioned_intercalate (vs.map fun v => s!"${v.1}:{v.2.type}")
      rw [mentioned, List.flatMap_map] at hpieces
      have hclosed : dollarNames [')'] = [] := rfl
      rw [mentioned, htext, dollarNames_cons_of_ne (by decide), dollarNames_append_cons (by decide),
        hpieces, hclosed, List.append_nil, Fields.keys, List.map_eq_flatMap]
      exact List.flatMap_congr fun v hv => mentioned_declaration (hn v hv) (ht v hv)

end LazyGraph.Document
