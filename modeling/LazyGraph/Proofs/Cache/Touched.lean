import LazyGraph.Cache
import LazyGraph.Proofs.Cache.Dependence
import LazyGraph.Proofs.Cache.Normalization

/-!
What operations record of their writes: an identity that is not among those touched has the object
that it had. So the data at a path stays unless its container is replaced or something that it
depends on is touched.
-/
namespace LazyGraph

namespace Normalizer

/-! ### Normalization -/

/-- The second progress comes after the first, and has recorded what is different in its table. -/
structure Progress.Tells (p q : Progress) : Prop where
  recorded : p.touched.ids ⊆ q.touched.ids
  same : ∀ id, id ∉ q.touched.ids → Fields.get? q.table id = Fields.get? p.table id

namespace Progress.Tells

theorem refl (p : Progress) : Tells p p := ⟨List.Subset.refl _, fun _ _ => rfl⟩

theorem trans {p q r : Progress} (h : Tells p q) (h' : Tells q r) : Tells p r :=
  ⟨List.Subset.trans h.recorded h'.recorded,
    fun id hid => (h'.same id hid).trans (h.same id fun hq => hid (h'.recorded hq))⟩

end Progress.Tells

theorem mem_ids_add {t : Touched} {id other : String} {keys : List String} :
    other ∈ (t.add id keys).ids ↔ other = id ∨ other ∈ t.ids := Fields.mem_keys_insert

theorem tells_store (n : Normalizer) (id : String) (object : Fields Json) (p : Progress) :
    p.Tells (n.store id object p) where
  recorded _ ho := mem_ids_add.mpr (.inr ho)
  same _ ho := Fields.get?_insert_of_ne _ fun e => ho (mem_ids_add.mpr (.inl e))

theorem tells_normalizeWithin (n : Normalizer) (levels : Nat) (p : Progress) (v : Json) :
    p.Tells (n.normalizeWithin levels p v).2 :=
  normalizeWithin_progress (fun id object _ hq => hq.trans (n.tells_store id object _)) levels v
    (.refl p)

end Normalizer

namespace Cache

open Normalizer (Progress)

theorem tells_normalized (options : Options) (objects : ObjectTable) (touched : Touched)
    (value : Json) :
    Progress.Tells { table := objects, touched } (normalized options objects touched value).2 := by
  rw [normalized]
  split
  · exact Normalizer.tells_normalizeWithin _ _ _ value
  · exact .refl _

/-! ### Root fields -/

/-- What storing root fields has come to, with what it recorded. -/
def progressOf (acc : Store × Touched) : Progress := { table := acc.1.objects, touched := acc.2 }

theorem tells_storeField (options : Options) (now : Nat) (root : Operation)
    (acc : Store × Touched) (p : String × Json) :
    (progressOf acc).Tells (progressOf (storeField options now root acc p)) :=
  tells_normalized options acc.1.objects acc.2 p.2

/-- The containers of other root fields stay, and so do the objects that are not touched. -/
theorem storeFields_keeps (options : Options) (now : Nat) (s : Store)
    (fields : List (Operation × String × Json)) :
    Progress.Tells { table := s.objects } (progressOf (storeFields options now s fields)) ∧
    ∀ key : ContainerKey, (∀ x ∈ fields, { root := x.1, field := x.2.1 } ≠ key) →
      (storeFields options now s fields).1.ownerValue? (.container key) =
        s.ownerValue? (.container key) := by
  rw [storeFields]
  refine List.foldlRecOn (motive := fun acc : Store × Touched =>
    Progress.Tells { table := s.objects } (progressOf acc) ∧
      ∀ key : ContainerKey, (∀ x ∈ fields, { root := x.1, field := x.2.1 } ≠ key) →
        acc.1.ownerValue? (.container key) = s.ownerValue? (.container key)) fields _
    ⟨.refl _, fun _ _ => rfl⟩ ?_
  rintro acc ⟨htells, hkeeps⟩ x hx
  refine ⟨htells.trans (tells_storeField options now x.1 acc x.2), fun key hkey => ?_⟩
  refine Eq.trans ?_ (hkeeps key hkey)
  refine (Store.ownerValue?_putContainer _ _ _ _).trans (if_neg fun e => ?_)
  exact hkey x hx (Owner.container.inj e).symm

end Cache
end LazyGraph
