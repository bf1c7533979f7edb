import Mathlib.Tactic.FinCases
import LazyGraph.SelectionPath
import LazyGraph.Proofs.Json.References
import LazyGraph.Proofs.Json.Text

/-!
Splitting at separators. A scan that enters a bracket or a string leaves it again at its end, so
that the canonical text of a value is never cut, whatever its strings hold.
-/
namespace LazyGraph.SelectionPath

open Json (chars itemChars fieldChars quoted escapeChar)

/-- The characters that open and close brackets and strings. -/
def delimiters : List Char := ['"', '(', '[', '\x7b', ')', ']', '\x7d']

/-- A scan of the text goes from one mode to another, and cuts nowhere. -/
def Carries (sep : Char) (m : Mode) (text : List Char) (m' : Mode) : Prop :=
  ∀ piece rest, splitFrom? sep m piece (text ++ rest) =
    splitFrom? sep m' (text.reverse ++ piece) rest

variable {sep : Char} {m m' m'' : Mode} {text text' : List Char} {depth : Nat}

namespace Carries

theorem nil (sep : Char) (m : Mode) : Carries sep m [] m := fun _ _ => rfl

theorem append (h : Carries sep m text m') (h' : Carries sep m' text' m'') :
    Carries sep m (text ++ text') m'' := by
  intro piece rest
  rw [List.append_assoc, h, h', List.reverse_append, List.append_assoc]

theorem single {c : Char} (uncut : ¬ (c = sep ∧ m = .outside 0)) (next : m.next? c = some m') :
    Carries sep m [c] m' := by
  intro piece rest
  rw [List.singleton_append, splitFrom?, if_neg uncut, next]
  rfl

theorem cons {c : Char} (uncut : ¬ (c = sep ∧ m = .outside 0)) (next : m.next? c = some m')
    (h : Carries sep m' text m'') : Carries sep m (c :: text) m'' :=
  (single uncut next).append h

theorem flatMap {α : Type} {f : α → List Char} {xs : List α}
    (h : ∀ x ∈ xs, Carries sep m (f x) m) : Carries sep m (xs.flatMap f) m := by
  induction xs with
  | nil => exact nil sep m
  | cons x xs ih =>
      obtain ⟨hx, hrest⟩ := List.forall_mem_cons.mp h
      exact hx.append (ih hrest)

/-- Characters that are neither delimiters nor separators are passed over. -/
theorem plain (h : ∀ c ∈ text, c ∉ delimiters ∧ (c = sep → depth ≠ 0)) :
    Carries sep (.outside depth) text (.outside depth) := by
  induction text with
  | nil => exact nil sep _
  | cons c text ih =>
      obtain ⟨⟨hc, hsep⟩, hrest⟩ := List.forall_mem_cons.mp h
      simp only [delimiters, List.mem_cons, List.not_mem_nil, or_false, not_or] at hc
      obtain ⟨hquote, h1, h2, h3, h4, h5, h6⟩ := hc
      refine cons (fun he => hsep he.1 (Mode.outside.inj he.2)) ?_ (ih hrest)
      simp only [Mode.next?, if_neg hquote, h1, h2, h3, h4, h5, h6, or_self, if_false]

/-- Nothing is cut in brackets, if nothing is at the bracket that opens them. -/
theorem enclosed {first last : Char} (opens : first ∈ ['(', '[', '\x7b'])
    (closes : last ∈ [')', ']', '\x7d']) (uncut : first = sep → depth ≠ 0)
    (h : Carries sep (.outside (depth + 1)) text (.outside (depth + 1))) :
    Carries sep (.outside depth) (first :: (text ++ [last])) (.outside depth) := by
  have hopens : (Mode.outside depth).next? first = some (.outside (depth + 1)) := by
    fin_cases opens <;> rfl
  have hcloses : (Mode.outside (depth + 1)).next? last = some (.outside depth) := by
    fin_cases closes <;> rfl
  refine cons (fun he => uncut he.1 (Mode.outside.inj he.2)) hopens (h.append ?_)
  exact single (fun he => nomatch he.2) hcloses

/-- Inside a string nothing is cut. -/
theorem inString {c : Char} (hquote : c ≠ '"') (hescape : c ≠ '\\') :
    Carries sep (.string depth) [c] (.string depth) := by
  refine single (fun he => nomatch he.2) ?_
  simp only [Mode.next?, if_neg hescape, if_neg hquote]

/-- After a backslash any character is passed over. -/
theorem escaped (sep c : Char) (depth : Nat) :
    Carries sep (.string depth) ['\\', c] (.string depth) :=
  cons (fun he => nomatch he.2) rfl (single (fun he => nomatch he.2) rfl)

end Carries

/-! ### Canonical texts -/

theorem hexDigit_plain {n : Nat} (h : n < 16) : Json.hexDigit n ≠ '"' ∧ Json.hexDigit n ≠ '\\' := by
  have hall : ∀ n < 16, Json.hexDigit n ≠ '"' ∧ Json.hexDigit n ≠ '\\' := by decide
  exact hall n h

theorem carries_escapeChar (sep c : Char) (depth : Nat) :
    Carries sep (.string depth) (escapeChar c) (.string depth) := by
  rw [escapeChar]
  repeat' split
  · exact .escaped sep _ depth
  · exact .escaped sep _ depth
  · exact .escaped sep _ depth
  · exact .escaped sep _ depth
  · exact .escaped sep _ depth
  · exact .escaped sep _ depth
  · exact .escaped sep _ depth
  · rename_i hcontrol
    obtain ⟨hq, he⟩ := hexDigit_plain (n := c.toNat / 16) (by omega)
    obtain ⟨hq', he'⟩ := hexDigit_plain (n := c.toNat % 16) (by omega)
    have hzero : Carries sep (.string depth) ['0'] (.string depth) :=
      .inString (by decide) (by decide)
    exact (Carries.escaped sep 'u' depth).append
      (hzero.append (hzero.append ((Carries.inString hq he).append (.inString hq' he'))))
  · rename_i hquote hescape _ _ _ _ _ _
    exact .inString hquote hescape

theorem carries_quoted (s : String) (uncut : ¬ ('"' = sep ∧ depth = 0)) :
    Carries sep (.outside depth) (quoted s) (.outside depth) := by
  have hopens : (Mode.outside depth).next? '"' = some (.string depth) := rfl
  rw [quoted]
  refine .cons (fun he => uncut ⟨he.1, Mode.outside.inj he.2⟩) hopens ?_
  refine (Carries.flatMap fun c _ => carries_escapeChar sep c depth).append ?_
  exact .single (fun he => Mode.noConfusion he.2) rfl

theorem not_mem_delimiters {c : Char} (h : Json.isNumeralChar c = true) : c ∉ delimiters := by
  intro hc
  have hall : delimiters.any Json.isNumeralChar = false := by decide
  exact List.any_eq_false.mp hall c hc h

theorem carries_comma (sep : Char) (depth : Nat) :
    Carries sep (.outside (depth + 1)) [','] (.outside (depth + 1)) :=
  .plain (List.forall_mem_singleton.mpr ⟨by decide, fun _ => Nat.succ_ne_zero depth⟩)

theorem carries_itemChars {items : List Json}
    (h : ∀ v ∈ items, Carries sep (.outside (depth + 1)) (chars v) (.outside (depth + 1))) :
    Carries sep (.outside (depth + 1)) (itemChars items) (.outside (depth + 1)) := by
  induction items with
  | nil => exact .nil sep _
  | cons v items ih =>
      obtain ⟨hv, hrest⟩ := List.forall_mem_cons.mp h
      cases items with
      | nil => exact hv
      | cons u items => exact hv.append ((carries_comma sep depth).append (ih hrest))

theorem carries_fieldChars {fs : List (String × Json)}
    (h : ∀ p ∈ fs, Carries sep (.outside (depth + 1)) (chars p.2) (.outside (depth + 1))) :
    Carries sep (.outside (depth + 1)) (fieldChars fs) (.outside (depth + 1)) := by
  have hcolon : Carries sep (.outside (depth + 1)) [':'] (.outside (depth + 1)) :=
    .plain (List.forall_mem_singleton.mpr ⟨by decide, fun _ => Nat.succ_ne_zero depth⟩)
  induction fs with
  | nil => exact .nil sep _
  | cons p fs ih =>
      obtain ⟨key, v⟩ := p
      obtain ⟨hv, hrest⟩ := List.forall_mem_cons.mp h
      have hkey : Carries sep (.outside (depth + 1)) (quoted key) (.outside (depth + 1)) :=
        carries_quoted key fun he => Nat.succ_ne_zero depth he.2
      cases fs with
      | nil => exact hkey.append (hcolon.append hv)
      | cons q fs =>
          refine hkey.append (hcolon.append (hv.append ?_))
          exact (carries_comma sep depth).append (ih hrest)

theorem depth_ne_zero (h : sep = ',' ∨ depth ≠ 0) {c : Char} (hne : c ≠ ',') (he : c = sep) :
    depth ≠ 0 :=
  h.resolve_left fun hs => hne (he.trans hs)

theorem carries_word (h : sep = ',' ∨ depth ≠ 0) (plain : ∀ c ∈ text, c ∉ delimiters ∧ c ≠ ',') :
    Carries sep (.outside depth) text (.outside depth) :=
  .plain fun c hc => ⟨(plain c hc).1, depth_ne_zero h (plain c hc).2⟩

theorem carries_literal (h : sep = ',' ∨ depth ≠ 0)
    (plain : text.all (fun c => decide (c ∉ delimiters ∧ c ≠ ',')) = true) :
    Carries sep (.outside depth) text (.outside depth) :=
  carries_word h fun c hc => of_decide_eq_true (List.all_eq_true.mp plain c hc)

/-- The canonical text of a value is not cut at commas, and in brackets it is cut nowhere. -/
theorem carries_chars (v : Json) (h : sep = ',' ∨ depth ≠ 0) :
    Carries sep (.outside depth) (chars v) (.outside depth) := by
  induction v using Json.induction generalizing depth with
  | null => exact carries_literal h (by decide)
  | bool b => cases b <;> exact carries_literal h (by decide)
  | number n =>
      refine carries_word h fun c hc => ?_
      have hnumeral := Json.isNumeralChar_of_mem_numberText n c hc
      refine ⟨not_mem_delimiters hnumeral, ?_⟩
      rintro rfl
      exact absurd hnumeral (by decide)
  | string s => exact carries_quoted s fun he => depth_ne_zero h (by decide) he.1 he.2
  | array items ih =>
      refine .enclosed (by decide) (by decide) (depth_ne_zero h (by decide)) ?_
      exact carries_itemChars fun v hv => ih v hv (.inr (Nat.succ_ne_zero depth))
  | object fs ih =>
      refine .enclosed (by decide) (by decide) (depth_ne_zero h (by decide)) ?_
      exact carries_fieldChars fun p hp => ih p hp (.inr (Nat.succ_ne_zero depth))

/-! ### Splitting a joined text -/

/-- Pieces with separators between them are the pieces that a split gives. -/
theorem split_intercalate {pieces : List (List Char)} (hne : pieces ≠ [])
    (h : ∀ text ∈ pieces, Carries sep (.outside 0) text (.outside 0)) :
    split sep ([sep].intercalate pieces) = .ok pieces := by
  have hsplit : splitFrom? sep (.outside 0) [] ([sep].intercalate pieces) = some pieces := by
    induction pieces with
    | nil => exact absurd rfl hne
    | cons text pieces ih =>
        obtain ⟨htext, hrest⟩ := List.forall_mem_cons.mp h
        cases pieces with
        | nil =>
            rw [List.intercalate_singleton, ← List.append_nil text, htext, splitFrom?, if_pos rfl,
              List.append_nil, List.reverse_reverse, List.append_nil]
        | cons next pieces =>
            rw [List.intercalate_cons_cons, List.append_assoc, htext, List.singleton_append,
              splitFrom?, if_pos ⟨rfl, rfl⟩, ih (List.cons_ne_nil next pieces) hrest,
              List.append_nil, List.reverse_reverse]
            rfl
  rw [split, hsplit]

end LazyGraph.SelectionPath
