import Mathlib.Data.List.DropRight
import LazyGraph.Text

/-!
Texts without blanks at their ends: stripping gives one, and leaves one as it is. What stands
between characters of a kind is what is left when these are taken away.
-/
namespace LazyGraph.Text

/-- Neither the first character nor the last one is a blank. -/
structure Trimmed (cs : List Char) : Prop where
  first : ∀ c ∈ cs.head?, isBlank c = false
  last : ∀ c ∈ cs.getLast?, isBlank c = false

variable {cs : List Char}

theorem Trimmed.of_forall (h : ∀ c ∈ cs, isBlank c = false) : Trimmed cs where
  first c hc := h c (List.mem_of_mem_head? hc)
  last c hc := h c (List.mem_of_mem_getLast? hc)

theorem Trimmed.of_any (h : cs.any isBlank = false) : Trimmed cs :=
  .of_forall fun c hc => Bool.eq_false_iff.mpr (List.any_eq_false.mp h c hc)

theorem stripBoth_eq (p : Char → Bool) (cs : List Char) :
    stripBoth p cs = (cs.dropWhile p).rdropWhile p := rfl

/-- What is free of a kind of characters is what stripping leaves between such characters. -/
theorem stripBoth_append {p : Char → Bool} {front back : List Char}
    (hfront : ∀ c ∈ front, p c = true) (hcs : ∀ c ∈ cs, ¬ p c = true)
    (hback : ∀ c ∈ back, p c = true) : stripBoth p (front ++ (cs ++ back)) = cs := by
  rw [stripBoth_eq, List.dropWhile_append_of_pos hfront]
  cases cs with
  | nil => rw [List.nil_append, List.dropWhile_eq_nil_iff.mpr hback, List.rdropWhile_nil]
  | cons c cs =>
      have hback' : ∀ d ∈ back.reverse, p d = true := fun d hd => hback d (List.mem_reverse.mp hd)
      have hfree : (c :: cs).rdropWhile p = c :: cs :=
        List.rdropWhile_eq_self_iff.mpr fun hne => hcs _ (List.getLast_mem hne)
      rw [List.cons_append, List.dropWhile_cons_of_neg (hcs c List.mem_cons_self),
        ← List.cons_append, List.rdropWhile, List.reverse_append,
        List.dropWhile_append_of_pos hback']
      exact hfree

theorem Trimmed.stripBoth (h : Trimmed cs) : stripBoth isBlank cs = cs := by
  cases cs with
  | nil => rfl
  | cons c cs =>
      have hfirst : ¬ isBlank c = true := Bool.eq_false_iff.mp (h.first c rfl)
      rw [stripBoth_eq, List.dropWhile_cons_of_neg hfirst, List.rdropWhile_eq_self_iff]
      intro hne
      exact Bool.eq_false_iff.mp (h.last _ (List.getLast?_eq_some_getLast hne))

theorem trimmed_stripBoth (cs : List Char) : Trimmed (stripBoth isBlank cs) where
  first c hc := by
    obtain ⟨rest, hrest⟩ := List.rdropWhile_prefix isBlank (cs.dropWhile isBlank)
    rw [← stripBoth_eq] at hrest
    have hhead : (cs.dropWhile isBlank).head? = some c := by
      rw [← hrest, List.head?_append, hc]
      rfl
    have hnot := List.head?_dropWhile_not isBlank cs
    rw [hhead] at hnot
    exact hnot
  last c hc := by
    rw [stripBoth_eq] at hc
    have hne : (cs.dropWhile isBlank).rdropWhile isBlank ≠ [] := by
      intro he
      rw [he] at hc
      cases hc
    rw [List.getLast?_eq_some_getLast hne] at hc
    obtain rfl := Option.some.inj hc
    exact Bool.eq_false_iff.mpr (List.rdropWhile_last_not _ _ hne)

/-- From the digits to the small letters no character is a blank. -/
theorem isBlank_of_between {c : Char} (first : '0' ≤ c) (last : c ≤ 'z') : isBlank c = false := by
  rw [Char.le_def, UInt32.le_iff_toNat_le] at first last
  have hfirst : '0'.val.toNat = 48 := rfl
  have hlast : 'z'.val.toNat = 122 := rfl
  have hval : c.toNat = c.val.toNat := rfl
  simp only [isBlank, hval, Bool.or_eq_false_iff, Bool.and_eq_false_iff, beq_eq_false_iff_ne,
    decide_eq_false_iff_not]
  omega

/-- A digit is no blank. -/
theorem isBlank_of_isDigit {c : Char} (h : isDigit c = true) : isBlank c = false := by
  rw [isDigit, Bool.and_eq_true, decide_eq_true_eq, decide_eq_true_eq] at h
  exact isBlank_of_between h.1 (Char.le_trans h.2 (by decide))

end LazyGraph.Text
