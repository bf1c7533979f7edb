import LazyGraph.Proofs.Document.Binding

/-!
The text of a field tree tells the tree. No two trees are written alike, the braces of a text are
balanced, and a head stands within one open block for each head above it.
-/
namespace LazyGraph.Document

open Selection (Node isGraphName isNameChar)

/-! ### What follows a text -/

/-- The end, or a text that starts with one of the marks. -/
def Follows (marks rest : List Char) : Prop := ∀ c ∈ rest.head?, c ∈ marks

section Follows

variable {marks others rest rest' : List Char} {c : Char}

theorem Follows.nil (marks : List Char) : Follows marks [] := nofun

@[simp] theorem follows_cons : Follows marks (c :: rest) ↔ c ∈ marks := by
  simp [Follows]

theorem follows_self (c : Char) (rest : List Char) : Follows [c] (c :: rest) :=
  follows_cons.mpr List.mem_cons_self

theorem Follows.mono (h : Follows marks rest) (hmarks : marks ⊆ others) : Follows others rest :=
  fun c hc => hmarks (h c hc)

/-- A name ends where a mark that no name has follows. -/
theorem takeWhile_append_follows {s : String} (hs : isGraphName s = true)
    (hmarks : marks.any isNameChar = false) (hrest : Follows marks rest) :
    (s.toList ++ rest).takeWhile isNameChar = s.toList := by
  cases rest with
  | nil =>
      rw [List.takeWhile_append_of_pos (Selection.isNameChar_of_isGraphName hs)]
      exact List.append_nil _
  | cons c rest =>
      have hmark := List.any_eq_false.mp hmarks c (follows_cons.mp hrest)
      exact Head.takeWhile_isNameChar hs (Bool.eq_false_of_not_eq_true hmark) rest

theorem name_append_cancel {s s' : String} (hs : isGraphName s = true)
    (hs' : isGraphName s' = true) (hmarks : marks.any isNameChar = false)
    (hrest : Follows marks rest) (hrest' : Follows marks rest')
    (h : s.toList ++ rest = s'.toList ++ rest') : s = s' ∧ rest = rest' := by
  have htake := congrArg (List.takeWhile isNameChar) h
  rw [takeWhile_append_follows hs hmarks hrest, takeWhile_append_follows hs' hmarks hrest'] at htake
  obtain rfl := String.toList_inj.mp htake
  exact ⟨rfl, List.append_cancel_left h⟩

end Follows

/-! ### Heads -/

namespace Head

variable {a b : String × String} {as bs : List (String × String)} {h h' : Head}
  {rest rest' : List Char}

/-- What may follow a head: a sibling, the block below it or the end of the block that it is in. -/
def marks : List Char := [' ', '\x7b', '\x7d']

def NamedArgument (a : String × String) : Prop := isGraphName a.1 = true ∧ isGraphName a.2 = true

theorem argumentText_append_cancel (ha : NamedArgument a) (hb : NamedArgument b)
    (hrest : Follows [',', ')'] rest) (hrest' : Follows [',', ')'] rest')
    (he : (argumentText a).toList ++ rest = (argumentText b).toList ++ rest') :
    a = b ∧ rest = rest' := by
  simp only [toList_argumentText, List.append_assoc, List.cons_append] at he
  obtain ⟨hname, he⟩ := name_append_cancel ha.1 hb.1 (by decide) (follows_self ':' _)
    (follows_self ':' _) he
  obtain ⟨hvariable, he⟩ := name_append_cancel ha.2 hb.2 (by decide) hrest hrest'
    (List.cons.inj (List.cons.inj he).2).2
  exact ⟨Prod.ext hname hvariable, he⟩

/-- The arguments behind the first one and the end of the list. -/
def furtherText : List (String × String) → List Char
  | [] => [')']
  | a :: as => ',' :: ((argumentText a).toList ++ furtherText as)

theorem follows_furtherText (as : List (String × String)) (rest : List Char) :
    Follows [',', ')'] (furtherText as ++ rest) := by
  cases as <;> simp [furtherText]

theorem argumentsText_cons (a : String × String) (as : List (String × String)) :
    argumentsText (a :: as) = '(' :: ((argumentText a).toList ++ furtherText as) := by
  have hlist : (",".intercalate ((a :: as).map argumentText)).toList ++ [')'] =
      (argumentText a).toList ++ furtherText as := by
    have hcomma : ",".toList = [','] := rfl
    rw [String.toList_intercalate, hcomma]
    induction as generalizing a with
    | nil => simp [furtherText]
    | cons b as ih =>
        rw [furtherText, ← ih b, List.map_cons, List.map_cons, List.map_cons, List.map_cons,
          List.intercalate_cons_cons, List.append_assoc, List.append_assoc]
        rfl
  rw [argumentsText, String.toList_append]
  · exact congrArg ('(' :: ·) hlist
  · exact List.cons_ne_nil _ _

theorem furtherText_append_cancel (ha : ∀ a ∈ as, NamedArgument a) (hb : ∀ b ∈ bs, NamedArgument b)
    (he : furtherText as ++ rest = furtherText bs ++ rest') : as = bs ∧ rest = rest' := by
  induction as generalizing bs with
  | nil =>
      cases bs with
      | nil => exact ⟨rfl, (List.cons.inj he).2⟩
      | cons b bs => exact absurd (List.cons.inj he).1 (by decide)
  | cons a as ih =>
      cases bs with
      | nil => exact absurd (List.cons.inj he).1 (by decide)
      | cons b bs =>
          obtain ⟨hfirst, has⟩ := List.forall_mem_cons.mp ha
          obtain ⟨hfirst', hbs⟩ := List.forall_mem_cons.mp hb
          simp only [furtherText, List.cons_append, List.append_assoc, List.cons.injEq,
            true_and] at he
          obtain ⟨rfl, hfurther⟩ := argumentText_append_cancel hfirst hfirst'
            (follows_furtherText as _) (follows_furtherText bs _) he
          obtain ⟨rfl, hrest⟩ := ih has hbs hfurther
          exact ⟨rfl, hrest⟩

theorem argumentsText_append_cancel (ha : ∀ a ∈ as, NamedArgument a)
    (hb : ∀ b ∈ bs, NamedArgument b) (hrest : Follows marks rest) (hrest' : Follows marks rest')
    (he : argumentsText as ++ rest = argumentsText bs ++ rest') : as = bs ∧ rest = rest' := by
  have hopen : '(' ∉ marks := by decide
  cases as with
  | nil =>
      cases bs with
      | nil => exact ⟨rfl, he⟩
      | cons b bs =>
          obtain rfl : rest = _ := he
          rw [argumentsText_cons] at hrest
          exact absurd (follows_cons.mp hrest) hopen
  | cons a as =>
      cases bs with
      | nil =>
          obtain rfl : _ = rest' := he
          rw [argumentsText_cons] at hrest'
          exact absurd (follows_cons.mp hrest') hopen
      | cons b bs =>
          rw [argumentsText_cons, argumentsText_cons] at he
          exact furtherText_append_cancel ha hb (congrArg (',' :: ·) (List.cons.inj he).2)

theorem follows_argumentsText (as : List (String × String)) (hrest : Follows marks rest) :
    Follows ('(' :: marks) (argumentsText as ++ rest) := by
  cases as with
  | nil => exact hrest.mono (List.subset_cons_self _ _)
  | cons a as =>
      rw [argumentsText_cons]
      exact follows_cons.mpr List.mem_cons_self

theorem called_append_cancel {name name' : String} (hname : isGraphName name = true)
    (hname' : isGraphName name' = true) (ha : ∀ a ∈ as, NamedArgument a)
    (hb : ∀ b ∈ bs, NamedArgument b) (hrest : Follows marks rest) (hrest' : Follows marks rest')
    (he : name.toList ++ (argumentsText as ++ rest) = name'.toList ++ (argumentsText bs ++ rest')) :
    name = name' ∧ as = bs ∧ rest = rest' := by
  obtain ⟨rfl, hcall⟩ := name_append_cancel hname hname' (by decide)
    (follows_argumentsText as hrest) (follows_argumentsText bs hrest') he
  exact ⟨rfl, argumentsText_append_cancel ha hb hrest hrest' hcall⟩

/-- A name that no colon follows is no alias. -/
theorem called_ne_renamed {name a : String} {cs : List Char} (hname : isGraphName name = true)
    (ha : isGraphName a = true) (hrest : Follows marks rest) :
    name.toList ++ (argumentsText as ++ rest) ≠ a.toList ++ ':' :: cs := by
  intro he
  have hcall := follows_argumentsText as hrest
  have hboth := hcall.mono (List.subset_cons_self ':' _)
  obtain ⟨_, hcolon⟩ := name_append_cancel hname ha (by decide) hboth (by simp) he
  rw [hcolon, follows_cons] at hcall
  exact absurd hcall (by decide)

/-- The first character of a head tells a field from a branch, and may not follow a head. -/
theorem Named.exists_cons (named : h.Named) :
    ∃ c cs, h.text.toList = c :: cs ∧ isNameChar c = h.isField ∧ c ∉ marks := by
  have hmarks : ∀ c, isNameChar c = true → c ∉ marks := by
    intro c hc hmem
    have hnone : marks.any isNameChar = false := by decide
    exact List.any_eq_false.mp hnone c hmem hc
  cases h with
  | branch type =>
      refine ⟨'.', "..on ".toList ++ type.toList, ?_, rfl, by decide⟩
      rw [text, String.toList_append]
      rfl
  | field aliasName name arguments =>
      obtain ⟨halias, hname, _⟩ := named
      cases aliasName with
      | none =>
          obtain ⟨c, cs, hlist, hc⟩ := Selection.exists_cons_of_isGraphName hname
          refine ⟨c, cs ++ argumentsText arguments, ?_, hc, hmarks c hc⟩
          simp only [toList_text, hlist, List.cons_append]
      | some a =>
          obtain ⟨c, cs, hlist, hc⟩ := Selection.exists_cons_of_isGraphName halias
          refine ⟨c, cs ++ ':' :: (name.toList ++ argumentsText arguments), ?_, hc, hmarks c hc⟩
          simp only [toList_text, hlist, List.cons_append]

theorem Named.not_follows (named : h.Named) (rest : List Char) :
    ¬ Follows marks (h.text.toList ++ rest) := by
  obtain ⟨c, cs, hlist, _, hc⟩ := named.exists_cons
  rw [hlist]
  exact fun hfollows => hc (follows_cons.mp hfollows)

theorem Named.isField_eq (named : h.Named) (named' : h'.Named)
    (he : h.text.toList ++ rest = h'.text.toList ++ rest') : h.isField = h'.isField := by
  obtain ⟨c, cs, hlist, hc, _⟩ := named.exists_cons
  obtain ⟨c', cs', hlist', hc', _⟩ := named'.exists_cons
  rw [hlist, hlist'] at he
  rw [← hc, ← hc', (List.cons.inj he).1]

theorem field_append_cancel {aliasName aliasName' : Option String} {name name' : String}
    (named : (field aliasName name as).Named) (named' : (field aliasName' name' bs).Named)
    (hrest : Follows marks rest) (hrest' : Follows marks rest')
    (he : (field aliasName name as).text.toList ++ rest =
      (field aliasName' name' bs).text.toList ++ rest') :
    field aliasName name as = field aliasName' name' bs ∧ rest = rest' := by
  obtain ⟨halias, hname, harguments⟩ := named
  obtain ⟨halias', hname', harguments'⟩ := named'
  rw [toList_text, toList_text] at he
  cases aliasName with
  | none =>
      cases aliasName' with
      | none =>
          rw [List.append_assoc, List.append_assoc] at he
          obtain ⟨rfl, rfl, htail⟩ :=
            called_append_cancel hname hname' harguments harguments' hrest hrest' he
          exact ⟨rfl, htail⟩
      | some b =>
          rw [List.append_assoc, List.append_assoc] at he
          exact absurd he (called_ne_renamed hname halias' hrest)
  | some a =>
      cases aliasName' with
      | none =>
          rw [List.append_assoc, List.append_assoc] at he
          exact absurd he.symm (called_ne_renamed hname' halias hrest')
      | some b =>
          simp only [List.append_assoc, List.cons_append] at he
          obtain ⟨rfl, hcall⟩ := name_append_cancel halias halias' (by decide)
            (follows_self ':' _) (follows_self ':' _) he
          obtain ⟨rfl, rfl, htail⟩ := called_append_cancel hname hname' harguments harguments'
            hrest hrest' (List.cons.inj hcall).2
          exact ⟨rfl, htail⟩

/-- Where one head ends, so does the other, and they are one. -/
theorem Named.append_cancel (named : h.Named) (named' : h'.Named) (hrest : Follows marks rest)
    (hrest' : Follows marks rest') (he : h.text.toList ++ rest = h'.text.toList ++ rest') :
    h = h' ∧ rest = rest' := by
  have hkind := named.isField_eq named' he
  cases h with
  | branch type =>
      cases h' with
      | field => cases hkind
      | branch type' =>
          rw [text, text, String.toList_append, String.toList_append, List.append_assoc,
            List.append_assoc] at he
          obtain ⟨rfl, htail⟩ := name_append_cancel named named' (by decide) hrest hrest'
            (List.append_cancel_left he)
          exact ⟨rfl, htail⟩
  | field aliasName name arguments =>
      cases h' with
      | branch => cases hkind
      | field => exact field_append_cancel named named' hrest hrest' he

end Head

/-! ### Blocks -/

/-- The number of blocks that are open behind a character, unless it closes one that is not open. -/
def blocksAfter (depth : Nat) (c : Char) : Option Nat :=
  if c = '\x7b' then some (depth + 1)
  else if c = '\x7d' then if depth = 0 then none else some (depth - 1)
  else some depth

/-- The number of blocks that are open behind a text. -/
def openBlocks (depth : Nat) (cs : List Char) : Option Nat := cs.foldlM blocksAfter depth

/-- Every block that is closed was opened before, and in the end none is open. -/
def Balanced (text : String) : Prop := openBlocks 0 text.toList = some 0

def Braceless (cs : List Char) : Prop := ∀ c ∈ cs, c ≠ '\x7b' ∧ c ≠ '\x7d'

section Blocks

variable {depth : Nat} {cs ds : List Char} {c : Char}

theorem openBlocks_append (depth : Nat) (cs ds : List Char) :
    openBlocks depth (cs ++ ds) = (openBlocks depth cs).bind (openBlocks · ds) :=
  List.foldlM_append

theorem openBlocks_cons (depth : Nat) (c : Char) (cs : List Char) :
    openBlocks depth (c :: cs) = (blocksAfter depth c).bind (openBlocks · cs) :=
  List.foldlM_cons

theorem Braceless.openBlocks (h : Braceless cs) (depth : Nat) :
    openBlocks depth cs = some depth := by
  induction cs with
  | nil => rfl
  | cons c cs ih =>
      obtain ⟨⟨hopen, hclose⟩, hcs⟩ := List.forall_mem_cons.mp h
      rw [openBlocks_cons, blocksAfter, if_neg hopen, if_neg hclose, Option.bind_some, ih hcs]

theorem openBlocks_block (h : openBlocks (depth + 1) cs = some (depth + 1)) :
    openBlocks depth ('\x7b' :: (cs ++ ['\x7d'])) = some depth := by
  have hopen : blocksAfter depth '\x7b' = some (depth + 1) := rfl
  rw [openBlocks_cons, hopen, Option.bind_some, openBlocks_append, h]
  rfl

theorem braceless_append : Braceless (cs ++ ds) ↔ Braceless cs ∧ Braceless ds :=
  List.forall_mem_append

theorem braceless_cons : Braceless (c :: cs) ↔ (c ≠ '\x7b' ∧ c ≠ '\x7d') ∧ Braceless cs :=
  List.forall_mem_cons

theorem braceless_of_isGraphName {s : String} (hs : isGraphName s = true) :
    Braceless s.toList := by
  intro c hc
  constructor
  · rintro rfl
    exact Selection.not_mem_of_isGraphName hs (by decide) hc
  · rintro rfl
    exact Selection.not_mem_of_isGraphName hs (by decide) hc

end Blocks

namespace Head

theorem NamedArgument.braceless {a : String × String} (ha : NamedArgument a) :
    Braceless (argumentText a).toList := by
  rw [toList_argumentText, braceless_append, braceless_cons, braceless_cons]
  exact ⟨braceless_of_isGraphName ha.1, by decide, by decide, braceless_of_isGraphName ha.2⟩

theorem braceless_furtherText {as : List (String × String)} (ha : ∀ a ∈ as, NamedArgument a) :
    Braceless (furtherText as) := by
  induction as with
  | nil => simp [Braceless, furtherText]
  | cons a as ih =>
      obtain ⟨hfirst, has⟩ := List.forall_mem_cons.mp ha
      rw [furtherText, braceless_cons, braceless_append]
      exact ⟨by decide, hfirst.braceless, ih has⟩

theorem braceless_argumentsText {as : List (String × String)} (ha : ∀ a ∈ as, NamedArgument a) :
    Braceless (argumentsText as) := by
  cases as with
  | nil => exact fun c hc => absurd hc List.not_mem_nil
  | cons a as =>
      obtain ⟨hfirst, has⟩ := List.forall_mem_cons.mp ha
      rw [argumentsText_cons, braceless_cons, braceless_append]
      exact ⟨by decide, hfirst.braceless, braceless_furtherText has⟩

theorem Named.braceless {h : Head} (named : h.Named) : Braceless h.text.toList := by
  cases h with
  | branch type =>
      have hdots : Braceless "...on ".toList := by simp [Braceless]
      rw [text, String.toList_append, braceless_append]
      exact ⟨hdots, braceless_of_isGraphName named⟩
  | field aliasName name arguments =>
      obtain ⟨halias, hname, harguments⟩ := named
      have hcall : Braceless (name.toList ++ argumentsText arguments) :=
        braceless_append.mpr ⟨braceless_of_isGraphName hname, braceless_argumentsText harguments⟩
      rw [toList_text]
      cases aliasName with
      | none => exact hcall
      | some a =>
          rw [braceless_append, braceless_cons]
          exact ⟨braceless_of_isGraphName halias, by decide, hcall⟩

end Head

/-! ### Trees -/

namespace FieldTree

variable {t u v : FieldTree} {head : Head} {way : List Head} {children : List (Head × FieldTree)}
  {rest rest' : List Char}

/-- The siblings behind a tree, a blank in front of them. -/
def siblingsText : List (Head × FieldTree) → List Char
  | [] => []
  | children => ' ' :: (childrenText children).toList

theorem toList_childrenText_cons (q : Head × FieldTree) (children : List (Head × FieldTree)) :
    (childrenText (q :: children)).toList =
      q.1.text.toList ++ (q.2.text.toList ++ siblingsText children) := by
  obtain ⟨head, t⟩ := q
  cases children with
  | nil => simp [childrenText, siblingsText, String.toList_append]
  | cons next children => simp [childrenText, siblingsText, String.toList_append]

/-- What follows a tree: a sibling or the end of the block. -/
theorem follows_siblingsText (children : List (Head × FieldTree)) (hrest : Follows ['\x7d'] rest) :
    Follows [' ', '\x7d'] (siblingsText children ++ rest) := by
  cases children with
  | nil => exact hrest.mono (by decide)
  | cons q children => exact follows_cons.mpr List.mem_cons_self

theorem follows_text (t : FieldTree) (hrest : Follows [' ', '\x7d'] rest) :
    Follows Head.marks (t.text.toList ++ rest) := by
  rcases t.toList_text_cases with hlist | ⟨cs, hlist⟩
  · rw [hlist]
    exact hrest.mono (by decide)
  · rw [hlist]
    exact follows_cons.mpr (by decide)

theorem siblingsText_append_cancel {others : List (Head × FieldTree)}
    (hrest : Follows ['\x7d'] rest) (hrest' : Follows ['\x7d'] rest')
    (he : siblingsText children ++ rest = siblingsText others ++ rest') :
    (childrenText children).toList ++ rest = (childrenText others).toList ++ rest' := by
  have hblank : ' ' ∉ ['\x7d'] := by decide
  cases children with
  | nil =>
      cases others with
      | nil => exact he
      | cons q others =>
          obtain rfl : rest = _ := he
          exact absurd (follows_cons.mp hrest) hblank
  | cons q children =>
      cases others with
      | nil =>
          obtain rfl : _ = rest' := he
          exact absurd (follows_cons.mp hrest') hblank
      | cons r others => exact (List.cons.inj he).2

/-- No other tree is written like this one, whatever follows the two. -/
def Told (t : FieldTree) : Prop :=
  ∀ ⦃u : FieldTree⦄ ⦃rest rest' : List Char⦄, u.Throughout Head.Named →
    Follows [' ', '\x7d'] rest → Follows [' ', '\x7d'] rest' →
    t.text.toList ++ rest = u.text.toList ++ rest' → t = u ∧ rest = rest'

/-- The two lists are read side by side: a head, the tree below it, and then the siblings. -/
theorem childrenText_append_cancel {others : List (Head × FieldTree)}
    (heads : ∀ q ∈ children, q.1.Named) (told : ∀ q ∈ children, q.2.Told)
    (heads' : ∀ q ∈ others, q.1.Named) (parts' : ∀ q ∈ others, q.2.Throughout Head.Named)
    (hrest : Follows ['\x7d'] rest) (hrest' : Follows ['\x7d'] rest')
    (he : (childrenText children).toList ++ rest = (childrenText others).toList ++ rest') :
    children = others ∧ rest = rest' := by
  have hclose : ['\x7d'] ⊆ Head.marks := by decide
  induction children generalizing others with
  | nil =>
      cases others with
      | nil => exact ⟨rfl, he⟩
      | cons r others =>
          have hhead := (List.forall_mem_cons.mp heads').1
          rw [toList_childrenText_cons, List.append_assoc] at he
          obtain rfl : rest = _ := he
          exact absurd (hrest.mono hclose) (hhead.not_follows _)
  | cons q children ih =>
      obtain ⟨hhead, hheads⟩ := List.forall_mem_cons.mp heads
      obtain ⟨htold, htolds⟩ := List.forall_mem_cons.mp told
      cases others with
      | nil =>
          rw [toList_childrenText_cons, List.append_assoc] at he
          obtain rfl : _ = rest' := he
          exact absurd (hrest'.mono hclose) (hhead.not_follows _)
      | cons r others =>
          obtain ⟨hhead', hheads'⟩ := List.forall_mem_cons.mp heads'
          obtain ⟨hpart', hparts'⟩ := List.forall_mem_cons.mp parts'
          have hbehind := follows_siblingsText children hrest
          have hbehind' := follows_siblingsText others hrest'
          simp only [toList_childrenText_cons, List.append_assoc] at he
          obtain ⟨hhead, htext⟩ := hhead.append_cancel hhead' (follows_text q.2 hbehind)
            (follows_text r.2 hbehind') he
          obtain ⟨htree, hsiblings⟩ := htold hpart' hbehind hbehind' htext
          obtain ⟨rfl, hend⟩ := ih hheads htolds hheads' hparts'
            (siblingsText_append_cancel hrest hrest' hsiblings)
          obtain rfl : q = r := Prod.ext hhead htree
          exact ⟨rfl, hend⟩

/-- By induction on one tree, along the other: a block is opened in both or in none. -/
theorem Throughout.told (h : t.Throughout Head.Named) : t.Told := by
  have hopen : '\x7b' ∉ [' ', '\x7d'] := by decide
  induction h with
  | @node children heads parts ih =>
      intro u rest rest' hu hrest hrest' he
      cases hu with
      | @node others heads' parts' =>
          cases children with
          | nil =>
              cases others with
              | nil => exact ⟨rfl, he⟩
              | cons r others =>
                  obtain rfl : rest = _ := he
                  rw [toList_text_node] at hrest
                  exact absurd (follows_cons.mp hrest) hopen
          | cons q children =>
              cases others with
              | nil =>
                  obtain rfl : _ = rest' := he
                  rw [toList_text_node] at hrest'
                  exact absurd (follows_cons.mp hrest') hopen
              | cons r others =>
                  simp only [toList_text_node, List.cons_append, List.append_assoc,
                    List.cons.injEq, true_and, List.nil_append] at he
                  obtain ⟨hchildren, hend⟩ := childrenText_append_cancel heads ih heads' parts'
                    (follows_self _ _) (follows_self _ _) he
                  exact ⟨congrArg FieldTree.node hchildren, (List.cons.inj hend).2⟩

theorem Throughout.eq_of_text (ht : t.Throughout Head.Named) (hu : u.Throughout Head.Named)
    (he : t.text = u.text) : t = u := by
  have hlist : t.text.toList ++ [] = u.text.toList ++ [] := by rw [he]
  exact (ht.told hu (.nil _) (.nil _) hlist).1

/-! ### Blocks of a tree -/

theorem openBlocks_siblingsText (depth : Nat) (children : List (Head × FieldTree)) :
    openBlocks depth (siblingsText children) = openBlocks depth (childrenText children).toList := by
  cases children with
  | nil => rfl
  | cons q children => rfl

theorem openBlocks_childrenText (heads : ∀ q ∈ children, q.1.Named)
    (parts : ∀ q ∈ children, ∀ depth, openBlocks depth q.2.text.toList = some depth) (depth : Nat) :
    openBlocks depth (childrenText children).toList = some depth := by
  induction children with
  | nil => rfl
  | cons q children ih =>
      obtain ⟨hhead, hheads⟩ := List.forall_mem_cons.mp heads
      obtain ⟨hpart, hparts⟩ := List.forall_mem_cons.mp parts
      rw [toList_childrenText_cons, openBlocks_append, hhead.braceless.openBlocks, Option.bind_some,
        openBlocks_append, hpart, Option.bind_some, openBlocks_siblingsText, ih hheads hparts]

theorem Throughout.openBlocks_text (h : t.Throughout Head.Named) :
    ∀ depth, openBlocks depth t.text.toList = some depth := by
  induction h with
  | @node children heads parts ih =>
      intro depth
      cases children with
      | nil => rfl
      | cons q children =>
          rw [toList_text_node]
          exact openBlocks_block (openBlocks_childrenText heads ih _)

/-- In front of a head, as many blocks are open as in front of its siblings. -/
theorem exists_split_childrenText (heads : ∀ q ∈ children, q.1.Named)
    (parts : ∀ q ∈ children, q.2.Throughout Head.Named) {q : Head × FieldTree} (hq : q ∈ children)
    (depth : Nat) : ∃ before after, (childrenText children).toList =
      before ++ (q.1.text.toList ++ (q.2.text.toList ++ after)) ∧
      openBlocks depth before = some depth := by
  induction children with
  | nil => exact absurd hq List.not_mem_nil
  | cons r children ih =>
      obtain ⟨hhead, hheads⟩ := List.forall_mem_cons.mp heads
      obtain ⟨hpart, hparts⟩ := List.forall_mem_cons.mp parts
      rcases List.mem_cons.mp hq with rfl | hq
      · exact ⟨[], siblingsText children, toList_childrenText_cons _ _, rfl⟩
      · obtain ⟨before, after, hlist, hopen⟩ := ih hheads hparts hq
        refine ⟨r.1.text.toList ++ (r.2.text.toList ++ ' ' :: before), after, ?_, ?_⟩
        · have hsiblings : siblingsText children = ' ' :: (childrenText children).toList := by
            cases children with
            | nil => exact absurd hq List.not_mem_nil
            | cons => rfl
          rw [toList_childrenText_cons, hsiblings, hlist]
          simp only [List.append_assoc, List.cons_append]
        · rw [openBlocks_append, hhead.braceless.openBlocks, Option.bind_some, openBlocks_append,
            hpart.openBlocks_text, Option.bind_some]
          exact hopen

theorem Throughout.exists_split_child (h : t.Throughout Head.Named) {q : Head × FieldTree}
    (hq : q ∈ t.children) (depth : Nat) : ∃ before after, t.text.toList =
      before ++ (q.1.text.toList ++ (q.2.text.toList ++ after)) ∧
      openBlocks depth before = some (depth + 1) := by
  cases h with
  | @node children heads parts =>
      obtain ⟨before, after, hlist, hopen⟩ := exists_split_childrenText heads parts hq (depth + 1)
      cases children with
      | nil => exact absurd hq List.not_mem_nil
      | cons r children =>
          refine ⟨'\x7b' :: before, after ++ ['\x7d'], ?_, hopen⟩
          rw [toList_text_node, hlist]
          simp only [List.append_assoc, List.cons_append]

/-- The head at the end of a way stands in one block for each head of the way. -/
theorem Throughout.exists_split (h : t.Throughout Head.Named) (hway : t.Holds (way ++ [head]) u)
    (depth : Nat) : ∃ before after, t.text.toList =
      before ++ (head.text.toList ++ (u.text.toList ++ after)) ∧
      openBlocks depth before = some (depth + (way ++ [head]).length) := by
  induction way generalizing t depth with
  | nil =>
      cases hway with
      | child first rest =>
          cases rest with
          | here => exact h.exists_split_child first depth
  | cons top way ih =>
      cases hway with
      | child first rest =>
          obtain ⟨before, after, hlist, hopen⟩ := h.exists_split_child first depth
          obtain ⟨hhead, hpart⟩ := h.child first
          obtain ⟨within, behind, hwithin, hdeep⟩ := ih hpart rest (depth + 1)
          refine ⟨before ++ (top.text.toList ++ within), behind ++ after, ?_, ?_⟩
          · rw [hlist, hwithin]
            simp only [List.append_assoc]
          · rw [openBlocks_append, hopen, Option.bind_some, openBlocks_append,
              hhead.braceless.openBlocks, Option.bind_some, hdeep]
            simp only [List.cons_append, List.length_cons, Option.some.injEq]
            omega

/-- The text of a tree tells the tree, as a block or as what stands in one. Its braces are balanced,
and the head at the end of a way stands in one block for each head of the way. -/
theorem text_determines (ht : t.Throughout Head.Named) (hu : u.Throughout Head.Named) :
    (t.text = u.text → t = u) ∧ (childrenText t.children = childrenText u.children → t = u) ∧
    Balanced t.text ∧ Balanced (childrenText t.children) ∧
    ∀ way head v, t.Holds (way ++ [head]) v → Balanced v.text ∧
      ∃ before after, t.text.toList =
        before ++ (head.text.toList ++ (v.text.toList ++ after)) ∧
        openBlocks 0 before = some (way.length + 1) := by
  refine ⟨ht.eq_of_text hu, ?_, ht.openBlocks_text 0, ?_, ?_⟩
  · intro he
    cases ht with
    | node heads parts =>
        cases hu with
        | @node others heads' parts' =>
            have hlist : (childrenText _).toList ++ [] = (childrenText others).toList ++ [] :=
              congrArg (·.toList ++ []) he
            obtain ⟨hchildren, _⟩ := childrenText_append_cancel heads (fun q hq => (parts q hq).told)
              heads' parts' (.nil _) (.nil _) hlist
            exact congrArg FieldTree.node hchildren
  · cases ht with
    | node heads parts =>
        exact openBlocks_childrenText heads (fun q hq => (parts q hq).openBlocks_text) 0
  · intro way head v hway
    obtain ⟨before, after, hlist, hopen⟩ := ht.exists_split hway 0
    rw [List.length_append, List.length_singleton, Nat.zero_add] at hopen
    exact ⟨(ht.of_holds hway).2.openBlocks_text 0, before, after, hlist, hopen⟩

namespace Offer

def price : Head := .field (some "euro") "price" [("currency", "currency_1"), ("at", "at_1")]

/-- A branch without anything below it, and a price beside it. -/
def beside : FieldTree := (empty.insert [.branch "Book"]).insert [price, plain "amount"]

def within : FieldTree := empty.insert [.branch "Book", price, plain "amount"]

/-- A price that stands beside a branch is not taken for one that stands in it. -/
theorem text_determines_price :
    (beside.Throughout Head.Named ∧ within.Throughout Head.Named ∧ beside ≠ within) ∧
    beside.text ≠ within.text ∧ Balanced beside.text ∧
    ∃ before after, beside.text.toList =
      before ++ (price.text.toList ++ ((empty.insert [plain "amount"]).text.toList ++ after)) ∧
      openBlocks 0 before = some 1 := by
  have hbeside : beside.Throughout Head.Named :=
    (Throughout.empty.insert (by decide)).insert (by decide)
  have hwithin : within.Throughout Head.Named := Throughout.empty.insert (by decide)
  have hne : beside ≠ within := by
    intro he
    have hlength := congrArg (·.children.length) he
    revert hlength
    decide
  have hway : beside.Holds [price] (empty.insert [plain "amount"]) :=
    .child (List.mem_cons_of_mem _ List.mem_cons_self) (.here _)
  obtain ⟨htext, _, hbalanced, _, hplace⟩ := text_determines hbeside hwithin
  exact ⟨⟨hbeside, hwithin, hne⟩, fun he => hne (htext he), hbalanced, (hplace [] _ _ hway).2⟩

end Offer

end FieldTree

/-- Documents that ask for ways of names in the same text ask for the same tree. -/
theorem grow_eq_of_text {ways others : List (List Node)} (h : ∀ way ∈ ways, NamedWay way)
    (h' : ∀ way ∈ others, NamedWay way) (he : (grow ways).1.text = (grow others).1.text) :
    (grow ways).1 = (grow others).1 :=
  (named_grow h).eq_of_text (named_grow h') he

end LazyGraph.Document
