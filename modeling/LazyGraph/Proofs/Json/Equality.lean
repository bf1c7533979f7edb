import LazyGraph.Proofs.Json.References

/-!
Equality of values is equality of their forms, in which the two zeros are one number.
-/
namespace LazyGraph

/-- The number with the one zero for the other. -/
def Number.form : Number → Number
  | .double x => .double (if x.isZero then .zero false else x)
  | n => n

theorem Number.equal_iff_form (m n : Number) : m.equal n = true ↔ m.form = n.form := by
  cases m with
  | int a =>
      cases n with
      | int b => simp [equal, form]
      | double y => simp [equal, form]
  | double x =>
      cases n with
      | int b => simp [equal, form]
      | double y =>
          have hzero : (Double.zero false).isZero = true := rfl
          simp only [equal, form, Double.equal, Number.double.injEq, Bool.or_eq_true, beq_iff_eq,
            Bool.and_eq_true]
          constructor
          · rintro (rfl | ⟨hx, hy⟩)
            · rfl
            · rw [if_pos hx, if_pos hy]
          · intro h
            by_cases hx : x.isZero = true
            · rw [if_pos hx] at h
              split at h
              · exact .inr ⟨hx, ‹_›⟩
              · exact absurd (h ▸ hzero) ‹_›
            · rw [if_neg hx] at h
              split at h
              · exact absurd (h ▸ hzero) hx
              · exact .inl h

namespace Json

mutual
/-- The value with the one zero for the other in all its numbers. -/
def form : Json → Json
  | .number n => .number n.form
  | .array items => .array (formItems items)
  | .object fs => .object (formFields fs)
  | v => v

def formItems : List Json → List Json
  | [] => []
  | v :: items => form v :: formItems items

def formFields : List (String × Json) → List (String × Json)
  | [] => []
  | (key, v) :: fs => (key, form v) :: formFields fs
end

theorem equalItems_iff_form {items : List Json}
    (h : ∀ v ∈ items, ∀ w : Json, v.equal w = true ↔ v.form = w.form) (others : List Json) :
    equalItems items others = true ↔ formItems items = formItems others := by
  induction items generalizing others with
  | nil => cases others <;> simp [equalItems, formItems]
  | cons v items ih =>
      obtain ⟨hv, hrest⟩ := List.forall_mem_cons.mp h
      cases others with
      | nil => simp [equalItems, formItems]
      | cons w others => simp [equalItems, formItems, hv w, ih hrest others]

theorem equalFields_iff_form {fs : List (String × Json)}
    (h : ∀ p ∈ fs, ∀ w : Json, p.2.equal w = true ↔ p.2.form = w.form)
    (others : List (String × Json)) :
    equalFields fs others = true ↔ formFields fs = formFields others := by
  induction fs generalizing others with
  | nil => cases others <;> simp [equalFields, formFields]
  | cons p fs ih =>
      obtain ⟨hp, hrest⟩ := List.forall_mem_cons.mp h
      cases others with
      | nil => simp [equalFields, formFields]
      | cons q others => simp [equalFields, formFields, hp q.2, ih hrest others]

/-- Two values are equal when they have one form. -/
theorem equal_iff_form (v w : Json) : v.equal w = true ↔ v.form = w.form := by
  induction v using Json.induction generalizing w with
  | array items ih =>
      cases w with
      | array others => simp [equal, form, equalItems_iff_form ih others]
      | _ => simp [equal, form]
  | object fs ih =>
      cases w with
      | object others => simp [equal, form, equalFields_iff_form ih others]
      | _ => simp [equal, form]
  | number n =>
      cases w with
      | number m => simp [equal, form, Number.equal_iff_form]
      | _ => simp [equal, form]
  | _ => cases w <;> simp [equal, form]

end Json
end LazyGraph
