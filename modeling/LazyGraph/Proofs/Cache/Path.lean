import LazyGraph.Cache.Path
import LazyGraph.Proofs.Text.Segments

/-!
The grammar of cache paths: a text is read as a path exactly if it is the name of an operation
with segments behind it, each a dot and a text that is not empty and holds no dot. A path is read
from its own text, and from no other.
-/
namespace LazyGraph

theorem Operation.ofText?_eq_some_iff {s : String} {root : Operation} :
    ofText? s = some root ↔ s = root.text := by
  constructor
  · intro h
    rw [ofText?] at h
    split at h
    · obtain rfl := Option.some.inj h
      assumption
    · split at h
      · obtain rfl := Option.some.inj h
        assumption
      · split at h
        · obtain rfl := Option.some.inj h
          assumption
        · cases h
  · rintro rfl
    cases root <;> decide

namespace CachePath

/-- What can stand between the dots of a path. -/
structure IsSegment (s : String) : Prop where
  filled : s ≠ ""
  undotted : '.' ∉ s.toList

/-- The texts of paths. -/
def IsPathText (text : String) : Prop :=
  ∃ root ∈ ["query", "mutation", "subscription"], ∃ parts : List String, parts ≠ [] ∧
    (∀ s ∈ parts, IsSegment s) ∧ text.toList = root.toList ++ parts.flatMap ('.' :: ·.toList)

/-- A path is read from the text that it is written as, if no segment is empty or holds a dot. -/
theorem parse_eq_ok_iff {text : String} {p : CachePath} :
    parse text = .ok p ↔ p.text = text ∧ ∀ s ∈ p.segments, IsSegment s := by
  constructor
  · intro h
    obtain ⟨root, below, hsegments, htext, hundotted⟩ := Text.segments_eq_cons text
    rw [parse, hsegments] at h
    simp only at h
    split at h
    · cases h
    · split at h
      · cases h
      · rename_i operation hoperation
        obtain rfl := Operation.ofText?_eq_some_iff.mp hoperation
        split at h
        · cases h
        · rename_i field rest
          split at h
          · cases h
          · rename_i hfilled
            obtain rfl := Except.ok.inj h
            refine ⟨htext, fun s hs => ⟨?_, hundotted s (List.mem_cons_of_mem _ hs)⟩⟩
            intro hempty
            exact hfilled (List.any_eq_true.mpr ⟨s, hs, beq_iff_eq.mpr hempty⟩)
  · rintro ⟨rfl, hlegal⟩
    have hundotted : ∀ s ∈ p.root.text :: p.segments, '.' ∉ s.toList := by
      refine List.forall_mem_cons.mpr ⟨?_, fun s hs => (hlegal s hs).undotted⟩
      cases p.root <;> decide
    have hfilled : (p.field :: p.rest).any (· == "") = false :=
      List.any_eq_false.mpr fun s hs he => (hlegal s hs).filled (beq_iff_eq.mp he)
    have hroot : p.root.text ≠ "" := by cases p.root <;> decide
    have hoperation : Operation.ofText? p.root.text = some p.root :=
      Operation.ofText?_eq_some_iff.mpr rfl
    rw [parse, text, Text.segments_dotted (List.cons_ne_nil _ _) hundotted]
    simp only [if_neg hroot, hoperation, segments, hfilled, Bool.false_eq_true, if_false]

/-- The texts of paths whose segments are legal are those of the grammar. -/
theorem isPathText_iff {text : String} :
    IsPathText text ↔ ∃ p : CachePath, p.text = text ∧ ∀ s ∈ p.segments, IsSegment s := by
  constructor
  · rintro ⟨root, hroot, parts, hn, hlegal, htext⟩
    obtain ⟨operation, rfl⟩ : ∃ operation : Operation, root = operation.text := by
      simp only [List.mem_cons, List.not_mem_nil, or_false] at hroot
      obtain rfl | rfl | rfl := hroot
      · exact ⟨.query, rfl⟩
      · exact ⟨.mutation, rfl⟩
      · exact ⟨.subscription, rfl⟩
    obtain ⟨field, rest, rfl⟩ := List.exists_cons_of_ne_nil hn
    refine ⟨{ root := operation, field, rest }, String.toList_injective ?_, hlegal⟩
    rw [htext]
    exact Text.toList_dotted _ _
  · rintro ⟨p, rfl, hlegal⟩
    refine ⟨p.root.text, ?_, p.segments, List.cons_ne_nil _ _, hlegal, Text.toList_dotted _ _⟩
    cases p.root <;> decide

/-- Exactly the texts of the grammar are read; a text that is read is that of the path; and a path
with legal segments is read from its text. -/
theorem parse_grammar (text : String) :
    ((∃ p, parse text = .ok p) ↔ IsPathText text) ∧
      ∀ p, parse text = .ok p ↔ p.text = text ∧ ∀ s ∈ p.segments, IsSegment s := by
  refine ⟨?_, fun p => parse_eq_ok_iff⟩
  rw [isPathText_iff]
  exact exists_congr fun p => parse_eq_ok_iff

end CachePath
end LazyGraph
