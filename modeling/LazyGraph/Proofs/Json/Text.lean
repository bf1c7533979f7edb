import LazyGraph.Json.Printer
import LazyGraph.Proofs.Text.Blank

/-!
The characters of the canonical text of a value: which ones a numeral holds, and that no blank
stands at the ends.
-/
namespace LazyGraph.Json

open Text (Trimmed isBlank isDigit)

/-- The characters of numerals. -/
def numeralMarks : List Char := ['-', '+', '.', 'e']

def isNumeralChar (c : Char) : Bool := isDigit c || numeralMarks.contains c

theorem isDigit_of_mem_toDigits {n : Nat} {c : Char} (h : c ∈ Nat.toDigits 10 n) :
    isDigit c = true := by
  have hdigit := Nat.isDigit_of_mem_toDigits (by decide) (by decide) h
  simp only [Char.isDigit, ge_iff_le, Bool.and_eq_true, decide_eq_true_eq] at hdigit
  simp only [isDigit, Bool.and_eq_true, decide_eq_true_eq, Char.le_def]
  exact hdigit

theorem isNumeralChar_of_isDigit {c : Char} (h : isDigit c = true) : isNumeralChar c = true := by
  rw [isNumeralChar, h, Bool.true_or]

theorem isNumeralChar_of_mem_toDigits {n : Nat} :
    ∀ c ∈ Nat.toDigits 10 n, isNumeralChar c = true :=
  fun _ hc => isNumeralChar_of_isDigit (isDigit_of_mem_toDigits hc)

/-- The numeral of an integer: its digits, after a minus sign if it is negative. -/
theorem isNumeralChar_of_mem_intText (n : Int) :
    ∀ c ∈ (toString n).toList, isNumeralChar c = true := by
  cases n with
  | ofNat n =>
      have htext : (toString (Int.ofNat n)).toList = Nat.toDigits 10 n := Nat.toList_repr
      rw [htext]
      exact isNumeralChar_of_mem_toDigits
  | negSucc n =>
      have htext : (toString (Int.negSucc n)).toList = '-' :: Nat.toDigits 10 (n + 1) := by
        have happend : toString (Int.negSucc n) = "-" ++ (n + 1).repr := rfl
        rw [happend, String.toList_append, Nat.toList_repr]
        rfl
      rw [htext]
      exact List.forall_mem_cons.mpr ⟨by decide, isNumeralChar_of_mem_toDigits⟩

theorem isNumeralChar_of_mem_doubleText (x : Double) :
    ∀ c ∈ x.text.toList, isNumeralChar c = true := by
  have hsign : ∀ c ∈ (if x.negative then "-" else "").toList, isNumeralChar c = true :=
    List.all_eq_true.mp (by cases x.negative <;> decide)
  have hzeros : ∀ n, ∀ c ∈ List.replicate n '0', isNumeralChar c = true := by
    intro n c hc
    rw [List.eq_of_mem_replicate hc]
    decide
  have hdigits : ∀ c ∈ Nat.toDigits 10 x.shortest.digits, isNumeralChar c = true :=
    isNumeralChar_of_mem_toDigits
  simp only [Double.text]
  split
  · rw [String.toList_append]
    exact List.forall_mem_append.mpr ⟨hsign, List.all_eq_true.mp (by decide)⟩
  · rw [String.toList_append, String.toList_ofList]
    refine List.forall_mem_append.mpr ⟨hsign, ?_⟩
    generalize Nat.toDigits 10 x.shortest.digits = digits at hdigits ⊢
    split
    · refine List.forall_mem_cons.mpr ⟨by decide, List.forall_mem_cons.mpr ⟨by decide, ?_⟩⟩
      exact List.forall_mem_append.mpr ⟨hzeros _, hdigits⟩
    · split
      · split
        · refine List.forall_mem_append.mpr ⟨?_, List.all_eq_true.mp (by decide)⟩
          exact List.forall_mem_append.mpr ⟨hdigits, hzeros _⟩
        · refine List.forall_mem_append.mpr ⟨fun c hc => hdigits c (List.mem_of_mem_take hc), ?_⟩
          refine List.forall_mem_cons.mpr ⟨by decide, fun c hc => ?_⟩
          exact hdigits c (List.mem_of_mem_drop hc)
      · refine List.forall_mem_append.mpr ⟨?_, List.forall_mem_cons.mpr ⟨by decide, ?_⟩⟩
        · split
          · exact fun c hc => absurd hc List.not_mem_nil
          · exact hdigits
          · obtain ⟨hfirst, hrest⟩ := List.forall_mem_cons.mp hdigits
            exact List.forall_mem_cons.mpr ⟨hfirst, List.forall_mem_cons.mpr ⟨by decide, hrest⟩⟩
        · refine List.forall_mem_cons.mpr ⟨?_, isNumeralChar_of_mem_toDigits⟩
          split <;> decide

theorem isNumeralChar_of_mem_numberText (n : Number) :
    ∀ c ∈ (numberText n).toList, isNumeralChar c = true := by
  cases n with
  | int n => exact isNumeralChar_of_mem_intText n
  | double x => exact isNumeralChar_of_mem_doubleText x

theorem isBlank_of_isNumeralChar {c : Char} (h : isNumeralChar c = true) : isBlank c = false := by
  rcases Bool.or_eq_true_iff.mp h with hdigit | hmark
  · exact Text.isBlank_of_isDigit hdigit
  · have hmarks : numeralMarks.any isBlank = false := by decide
    exact Bool.eq_false_iff.mpr (List.any_eq_false.mp hmarks c (List.contains_iff_mem.mp hmark))

/-- A text in brackets has no blanks at its ends. -/
theorem trimmed_enclosed {first last : Char} (hfirst : isBlank first = false)
    (hlast : isBlank last = false) (cs : List Char) : Trimmed (first :: (cs ++ [last])) where
  first c hc := by
    obtain rfl := Option.some.inj hc
    exact hfirst
  last c hc := by
    rw [← List.cons_append, List.getLast?_concat] at hc
    obtain rfl := Option.some.inj hc
    exact hlast

/-- No blank stands at the ends of the text of a value. -/
theorem trimmed_chars (v : Json) : Trimmed v.chars := by
  cases v with
  | null => exact .of_any (by decide)
  | bool b => cases b <;> exact .of_any (by decide)
  | number n =>
      rw [chars]
      exact .of_forall fun c hc => isBlank_of_isNumeralChar (isNumeralChar_of_mem_numberText n c hc)
  | string s =>
      rw [chars, quoted]
      exact trimmed_enclosed (by decide) (by decide) _
  | array items =>
      rw [chars]
      exact trimmed_enclosed (by decide) (by decide) _
  | object fs =>
      rw [chars]
      exact trimmed_enclosed (by decide) (by decide) _

end LazyGraph.Json
