import LazyGraph.Document
import LazyGraph.Proofs.Fields
import LazyGraph.Proofs.Json.Equality
import Mathlib.Data.Finset.Card

/-!
The variables of a document. New ones get names of their own, and a value keeps the variable that
it got first, so that a way down is written with the same heads wherever it is taken again.
-/
namespace LazyGraph

namespace Fields

variable {α : Type} {fs : Fields α} {key : String} {value : α} {p : String × α → Bool}

theorem find?_insert_of_false (hfresh : key ∉ keys fs) (hp : p (key, value) = false) :
    (insert fs key value).find? p = fs.find? p := by
  induction fs with
  | nil => rw [insert, List.find?_cons, hp]
  | cons q fs ih =>
      obtain ⟨hq, hrest⟩ := not_or.mp (mt List.mem_cons.mpr hfresh)
      rw [insert_cons, if_neg hq]
      split
      · rw [List.find?_cons, hp]
      · rw [List.find?_cons, List.find?_cons, ih hrest]

theorem find?_insert_of_none (hfresh : key ∉ keys fs) (hnone : fs.find? p = none)
    (hp : p (key, value) = true) : (insert fs key value).find? p = some (key, value) := by
  induction fs with
  | nil => rw [insert, List.find?_cons, hp]
  | cons q fs ih =>
      obtain ⟨hq, hrest⟩ := not_or.mp (mt List.mem_cons.mpr hfresh)
      rw [List.find?_cons] at hnone
      rw [insert_cons, if_neg hq]
      split
      · rw [List.find?_cons, hp]
      · split at hnone
        · cases hnone
        · rename_i hfirst
          rw [List.find?_cons, hfirst]
          exact ih hrest hnone

end Fields

namespace Document

open Selection (Argument Node)

namespace Variables

variable {vs ws : Variables} {a : Argument}

/-! ### Names -/

theorem candidate_injective (base : String) : Function.Injective (candidate base) := by
  have hlength : ∀ n, (candidate base (n + 1)).toList =
      base.toList ++ '_' :: (n + 2).repr.toList := by
    intro n
    simp only [candidate, toString, String.toList_append, List.append_assoc]
    rfl
  have hlonger : ∀ n, candidate base 0 ≠ candidate base (n + 1) := by
    intro n h
    have hshort := congrArg List.length (congrArg String.toList h)
    rw [hlength, List.length_append, List.length_cons] at hshort
    simp only [candidate] at hshort
    omega
  intro m n h
  cases m with
  | zero =>
      cases n with
      | zero => rfl
      | succ n => exact absurd h (hlonger n)
  | succ m =>
      cases n with
      | zero => exact absurd h.symm (hlonger m)
      | succ n =>
          have hlist := congrArg String.toList h
          rw [hlength, hlength] at hlist
          have hdigits := (List.cons.inj (List.append_cancel_left hlist)).2
          rw [Nat.toList_repr, Nat.toList_repr] at hdigits
          have hnumber := congrArg (Nat.ofDigitChars 10 · 0) hdigits
          simp only [Nat.ofDigitChars_ten_toDigits] at hnumber
          omega

/-- A free name is free: there are more candidates than variables. -/
theorem freeName_not_mem (vs : Variables) (base : String) : vs.freeName base ∉ Fields.keys vs := by
  let candidates := (List.range (vs.length + 1)).map (candidate base)
  have hfound : (candidates.find? fun n => !Fields.contains vs n).isSome := by
    rw [List.find?_isSome]
    by_contra hnone
    have hall : candidates ⊆ Fields.keys vs := by
      intro n hn
      by_contra hfree
      refine hnone ⟨n, hn, ?_⟩
      rw [Bool.not_eq_true', ← Bool.not_eq_true, Fields.contains_iff]
      exact hfree
    have hdistinct : candidates.Nodup :=
      List.Nodup.map (candidate_injective base) List.nodup_range
    have hlength := (hdistinct.subperm hall).length_le
    rw [List.length_map, List.length_range, Fields.keys, List.length_map] at hlength
    omega
  obtain ⟨name, hname⟩ := Option.isSome_iff_exists.mp hfound
  have hfree := List.find?_some hname
  rw [Bool.not_eq_true', ← Bool.not_eq_true, Fields.contains_iff] at hfree
  rw [freeName, hname]
  exact hfree

/-! ### Values keep their variables -/

/-- The later variables hold every value under the same name. -/
def Kept (vs ws : Variables) : Prop := ∀ a name, vs.holding? a = some name → ws.holding? a = some name

theorem Kept.refl (vs : Variables) : Kept vs vs := fun _ _ h => h

theorem Kept.trans {us : Variables} (h : Kept us vs) (h' : Kept vs ws) : Kept us ws :=
  fun a name ha => h' a name (h a name ha)

/-- Two arguments that a third one equals share their variable. -/
theorem holds_of_equal {b c : Argument}
    (hb : (b.type == a.type && b.value.equal a.value) = true)
    (hc : (c.type == a.type && c.value.equal a.value) = true) :
    (b.type == c.type && b.value.equal c.value) = true := by
  rw [Bool.and_eq_true, beq_iff_eq, Json.equal_iff_form] at hb hc ⊢
  exact ⟨hb.1.trans hc.1.symm, hb.2.trans hc.2.symm⟩

theorem declare_of_holding {name : String} (h : vs.holding? a = some name) (label argument : String) :
    vs.declare label argument a = (name, vs) := by
  rw [declare, h]

theorem kept_declare (vs : Variables) (label argument : String) (a : Argument) :
    Kept vs (vs.declare label argument a).2 := by
  rw [declare]
  split
  · exact .refl vs
  · rename_i hnone
    intro b name hb
    have hfresh := freeName_not_mem vs s!"{argument}_{Digest.short [label, argument] digestLength}"
    obtain ⟨p, hp, rfl⟩ := Option.map_eq_some_iff.mp hb
    have hother : (a.type == b.type && a.value.equal b.value) = false := by
      rw [← Bool.not_eq_true]
      intro ha
      have hnot := List.find?_eq_none.mp (Option.map_eq_none_iff.mp hnone) p
        (List.mem_of_find?_eq_some hp)
      have hheld := List.find?_some hp
      exact hnot (holds_of_equal hheld ha)
    rw [holding?, Fields.find?_insert_of_false hfresh hother, hp]
    rfl

theorem holding?_declare (vs : Variables) (label argument : String) (a : Argument) :
    (vs.declare label argument a).2.holding? a = some (vs.declare label argument a).1 := by
  rw [declare]
  split
  · assumption
  · rename_i hnone
    have hfresh := freeName_not_mem vs s!"{argument}_{Digest.short [label, argument] digestLength}"
    have hself : (a.type == a.type && a.value.equal a.value) = true := by
      rw [Bool.and_eq_true, beq_iff_eq, Json.equal_iff_form]
      exact ⟨rfl, rfl⟩
    rw [holding?, Fields.find?_insert_of_none hfresh (Option.map_eq_none_iff.mp hnone) hself]
    rfl

theorem kept_declareAll (vs : Variables) (label : String) (arguments : List (String × Argument)) :
    Kept vs (vs.declareAll label arguments).2 := by
  induction arguments generalizing vs with
  | nil => exact .refl vs
  | cons p arguments ih => exact (kept_declare vs label p.1 p.2).trans (ih _)

/-- Where all values of arguments have variables, they are used again. -/
theorem declareAll_again {label : String} {arguments : List (String × Argument)}
    (h : Kept (vs.declareAll label arguments).2 ws) :
    ws.declareAll label arguments = ((vs.declareAll label arguments).1, ws) := by
  induction arguments generalizing vs with
  | nil => rfl
  | cons p arguments ih =>
      have hfirst := h _ _ (kept_declareAll _ label arguments _ _
        (holding?_declare vs label p.1 p.2))
      have hrest := @ih (vs.declare label p.1 p.2).2 h
      rw [declareAll, declare_of_holding hfirst label p.1]
      simp only [hrest]
      rfl

end Variables

open Variables (Kept)

theorem kept_heads (vs : Variables) (way : List Node) : Kept vs (heads vs way).2 := by
  induction way generalizing vs with
  | nil => exact .refl vs
  | cons n rest ih =>
      rw [heads]
      split
      · exact ih vs
      · split
        · exact ih vs
        · split
          · exact ih vs
          · exact (Variables.kept_declareAll vs n.label n.arguments).trans (ih _)

/-- A way that was taken before is written with the same heads again. -/
theorem heads_again {vs ws : Variables} {way : List Node} (h : Kept (heads vs way).2 ws) :
    heads ws way = ((heads vs way).1, ws) := by
  induction way generalizing vs with
  | nil => rfl
  | cons n rest ih =>
      cases hkey : n.key with
      | index position =>
          simp only [heads, hkey] at h ⊢
          exact ih h
      | field name =>
          simp only [heads, hkey] at h ⊢
          cases hmarker : n.isMarker with
          | true =>
              simp only [hmarker, if_true] at h ⊢
              exact ih h
          | false =>
              cases hbranch : n.isBranch with
              | true =>
                  simp only [hmarker, hbranch, if_true, Bool.false_eq_true, if_false] at h ⊢
                  rw [ih h]
              | false =>
                  simp only [hmarker, hbranch, Bool.false_eq_true, if_false] at h ⊢
                  have harguments := Variables.declareAll_again ((kept_heads _ rest).trans h)
                  rw [harguments]
                  simp only [ih h]

end Document
end LazyGraph
