import LazyGraph.Proofs.Cache.Store

/-!
Ways down on which references are followed: the value at the end of one, and the identities that
are crossed on it. What is stored at a path is what its way down ends on.
-/
namespace LazyGraph

namespace Json

/-- The value at the end of a way down. References on the way are followed, one at the end is
not. -/
def descend? (table : ObjectTable) : Json → List String → Option Json
  | v, [] => some v
  | v, segment :: rest =>
    ((v.resolve? table).bind (·.step? segment)).bind (descend? table · rest)

theorem descend?_concat (table : ObjectTable) (v : Json) (rest : List String) (segment : String) :
    descend? table v (rest ++ [segment]) =
      ((descend? table v rest).bind (·.resolve? table)).bind (·.step? segment) := by
  induction rest generalizing v with
  | nil => exact Option.bind_fun_some _
  | cons next rest ih =>
      rw [List.cons_append, descend?, descend?]
      cases (v.resolve? table).bind (·.step? next) with
      | none => rfl
      | some u => exact ih u

/-- A way down crosses an identity where it goes on from a reference, whether or not there is
anything further down. -/
inductive Crosses (table : ObjectTable) : Json → List String → String → Prop
  | here {v : Json} {segment : String} {rest : List String} {id : String}
    (h : v.referenceId? = some id) : Crosses table v (segment :: rest) id
  | further {v u : Json} {segment : String} {rest : List String} {id : String}
    (step : (v.resolve? table).bind (·.step? segment) = some u) (h : Crosses table u rest id) :
    Crosses table v (segment :: rest) id

end Json

namespace Cache.Store

/-! ### The value of a slot -/

/-- What is entered from a value is what the value resolves to, in its slot. -/
theorem enter?_value {s : Store} {v : Json} {slot : Slot} (hv : s.slotValue? slot = some v) :
    (enter? s.objects v slot = none ∧ v.resolve? s.objects = none) ∨
    ∃ u t, enter? s.objects v slot = some (u, t) ∧ v.resolve? s.objects = some u ∧
      s.slotValue? t = some u := by
  cases hr : v.referenceId? with
  | none =>
      refine .inr ⟨v, slot, ?_, ?_, hv⟩
      · rw [enter?, hr]
      · rw [Json.resolve?, hr]
  | some id =>
      simp only [enter?, Json.resolve?, hr]
      cases hu : Fields.get? s.objects id with
      | none => exact .inl ⟨rfl, rfl⟩
      | some u =>
          refine .inr ⟨u, _, rfl, rfl, ?_⟩
          rw [slotValue?, ownerValue?, hu]
          rfl

/-- The slot of a way down holds the value at its end. -/
theorem slotFrom?_bind_slotValue? {s : Store} {v : Json} {slot : Slot} {rest : List String}
    (hv : s.slotValue? slot = some v) :
    (slotFrom? s.objects v slot rest).bind s.slotValue? = Json.descend? s.objects v rest := by
  induction rest generalizing v slot with
  | nil => exact hv
  | cons segment rest ih =>
      cases rest with
      | nil =>
          rw [slotFrom?_singleton, Json.descend?]
          rcases enter?_value hv with ⟨he, hr⟩ | ⟨u, t, he, hr, ht⟩
          · rw [he, hr]
            rfl
          · rw [he, hr, Option.map_some, Option.bind_some, slotValue?_child, ht, Option.bind_some]
            exact (Option.bind_fun_some _).symm
      | cons next rest =>
          rw [slotFrom?_cons, Json.descend?]
          rcases enter?_value hv with ⟨he, hr⟩ | ⟨u, t, he, hr, ht⟩
          · rw [he, hr]
            rfl
          · rw [he, hr, Option.bind_some, Option.bind_some]
            cases hu : u.step? segment with
            | none => rfl
            | some w =>
                rw [Option.bind_some, Option.bind_some]
                refine ih ?_
                rw [slotValue?_child, ht]
                exact hu

theorem valueAt?_eq_descend? (s : Store) (path : CachePath) :
    s.valueAt? path = (Recency.peek? s.containers (keyOf path)).bind fun c =>
      Json.descend? s.objects c.data path.rest := by
  rw [valueAt?, slot?]
  cases hc : Recency.peek? s.containers (keyOf path) with
  | none => rfl
  | some c =>
      refine slotFrom?_bind_slotValue? ?_
      rw [slotValue?, ownerValue?, hc]
      rfl

theorem valueAt?_child (s : Store) (path : CachePath) (segment : String) :
    s.valueAt? (path.child segment) =
      ((s.valueAt? path).bind (·.resolve? s.objects)).bind (·.step? segment) := by
  rw [valueAt?_eq_descend?, valueAt?_eq_descend?]
  have hkey : keyOf (path.child segment) = keyOf path := rfl
  rw [hkey]
  cases Recency.peek? s.containers (keyOf path) with
  | none => rfl
  | some c => exact Json.descend?_concat s.objects c.data path.rest segment

/-! ### What a path depends on -/

/-- A reference to the identity is crossed on the way down a path. -/
def Crosses (s : Store) (path : CachePath) (id : String) : Prop :=
  ∃ c, Recency.peek? s.containers (keyOf path) = some c ∧
    Json.Crosses s.objects c.data path.rest id

/-- The stored value at a path leads to the identity, through objects of the table. -/
def LeadsTo (s : Store) (path : CachePath) (id : String) : Prop :=
  ∃ v, s.valueAt? path = some v ∧ Json.Leads s.objects v id

/-- A path depends on the identities that it crosses and on those that its value leads to. -/
def DependsOn (s : Store) (path : CachePath) (id : String) : Prop :=
  s.Crosses path id ∨ s.LeadsTo path id

end Cache.Store
end LazyGraph
