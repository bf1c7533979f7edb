import LazyGraph.Proofs.Cache.Dependence
import LazyGraph.Proofs.Cache.Event
import LazyGraph.Proofs.Json.Unfolding

/-!
Deep reads. A read below a root field follows references on its way and expands what it ends on; a
read of the root field expands all of it. Where all references lead to objects, and no object leads
back to itself, the second read has at every position what the first one gives.
-/
namespace LazyGraph

namespace Json

variable {table : ObjectTable} {v u : Json} {id : String}

/-- The parts of what is no reference are expanded one by one. -/
theorem step?_expand (plain : v.referenceId? = none) (segment : String) :
    (v.expand table).step? segment = (v.step? segment).map (expand table) := by
  have hplace : (v.expand table).place? segment = v.place? segment := by
    have solves := expands_expandBelow table
    rw [expand_eq_expandBelow]
    cases v with
    | object fs =>
        rw [solves.object [] fs plain]
        rfl
    | array items =>
        rw [solves.array]
        rfl
    | _ => rfl
  rw [step?_eq_child?, step?_eq_child?, hplace]
  cases v.place? segment with
  | none => rfl
  | some place => exact child?_expandBelow plain place

/-- A reference expands to what its object expands to. -/
theorem expand_reference (hu : Fields.get? table id = some u)
    (acyclic : Acyclic table (.reference id)) :
    (reference id).expand table = u.expand table := by
  obtain ⟨hacyclic, hapart⟩ := apart_entry acyclic (fun _ h => absurd h List.not_mem_nil) hu
  rw [expand_eq_expandBelow, (expands_expandBelow table).entry [] id u List.not_mem_nil hu]
  exact expandBelow_of_apart hacyclic hapart fun _ h => absurd h List.not_mem_nil

/-- All that a value leads to is there, is no reference, and does not lead back to itself. -/
structure Sincere (table : ObjectTable) (v : Json) : Prop where
  resolves : ∀ id, Leads table v id → Fields.contains table id = true
  direct : ∀ id u, Leads table v id → Fields.get? table id = some u → u.referenceId? = none
  acyclic : Acyclic table v

/-- What a value resolves to expands to the same, and is no reference. -/
theorem Sincere.resolve? (h : Sincere table v) :
    ∃ u, v.resolve? table = some u ∧ u.referenceId? = none ∧ v.expand table = u.expand table := by
  cases hr : v.referenceId? with
  | none =>
      refine ⟨v, ?_, hr, rfl⟩
      rw [Json.resolve?, hr]
  | some id =>
      rw [referenceId?_eq_some_iff] at hr
      subst hr
      have hl : Leads table (.reference id) id := .here (mem_references_reference id)
      obtain ⟨u, hu⟩ := Option.isSome_iff_exists.mp (h.resolves id hl)
      refine ⟨u, ?_, h.direct id u hl hu, expand_reference hu h.acyclic⟩
      rw [Json.resolve?, referenceId?_eq_some_iff.mpr rfl]
      exact hu

theorem Sincere.of_step {segment : String} (h : Sincere table v)
    (hs : (v.resolve? table).bind (·.step? segment) = some u) : Sincere table u where
  resolves id hl := h.resolves id (hl.of_step hs)
  direct id w hl hw := h.direct id w (hl.of_step hs) hw
  acyclic id w hl hw := h.acyclic id w (hl.of_step hs) hw

/-- Walking through the expanded value gives what the way down through the stored one ends on,
expanded. -/
theorem Sincere.walk?_expand (h : Sincere table v) (rest : List String) :
    (v.expand table).walk? rest = (descend? table v rest).map (expand table) := by
  induction rest generalizing v with
  | nil => rfl
  | cons segment rest ih =>
      obtain ⟨w, hw, plain, he⟩ := h.resolve?
      rw [walk?_cons, descend?, he, step?_expand plain]
      cases hu : w.step? segment with
      | none =>
          rw [hw, Option.bind_some, hu]
          rfl
      | some u =>
          have hs : (v.resolve? table).bind (·.step? segment) = some u := by
            rw [hw, Option.bind_some, hu]
          rw [hs, Option.map_some, Option.bind_some, Option.bind_some]
          exact ih (h.of_step hs)

end Json

namespace Cache

/-- A read with expired data gives at a deep path what stands there in the data of its root field,
if all references lead to objects that are no references themselves and lead to themselves in no
way. -/
theorem get_eq_walk? (c : Cache)
    (resolves : ∀ owner v, c.store.ownerValue? owner = some v →
      ∀ id ∈ v.references, Fields.contains c.store.objects id = true)
    (direct : ∀ id v, Fields.get? c.store.objects id = some v → v.referenceId? = none)
    (acyclic : ∀ id v, Fields.get? c.store.objects id = some v →
      ¬ Json.Leads c.store.objects v id)
    (now : Nat) (root : Operation) (field : String) (rest : List String) :
    (c.get now { root, field, rest } true).1.data =
      (c.get now { root, field } true).1.data.bind (·.walk? rest) := by
  rw [get_data_eq_data?, get_data_eq_data?, Store.data?, Store.data?,
    Store.valueAt?_eq_descend?, Store.valueAt?_eq_descend?]
  have hkey : keyOf { root, field, rest } = keyOf { root, field } := rfl
  rw [hkey]
  cases hc : Recency.peek? c.store.containers (keyOf { root, field }) with
  | none => rfl
  | some container =>
      have howner : c.store.ownerValue? (.container (keyOf { root, field })) =
          some container.data := by
        rw [Store.ownerValue?, hc]
        rfl
      have sincere : Json.Sincere c.store.objects container.data := by
        constructor
        case resolves =>
          intro id hl
          induction hl with
          | here hid => exact resolves _ _ howner _ hid
          | through _ found ho ih => exact resolves (.object _) _ found _ ho
        case direct => exact fun id u _ hu => direct id u hu
        case acyclic => exact fun id u _ hu => acyclic id u hu
      rw [Option.bind_some, Option.bind_some]
      exact (sincere.walk?_expand rest).symm

/-- A cache with a team, whose lead is a user who has a list of friends. -/
def acquainted : Cache :=
  ((new {}).act 0 (.set (.object [("query", .object [("team", .object [("lead",
    .object [("__typename", .string "U"),
      ("friends", .array [.object [("__typename", .string "F"), ("id", .int 2),
        ("name", .string "x")]]),
      ("id", .int 1)])])])]) false)).cache

/-- The way to the name of the friend crosses two references and a list. -/
theorem get_eq_walk?_acquainted :
    (acquainted.get 5 { root := .query, field := "team", rest := ["lead", "friends", "0", "name"] }
        true).1.data =
      (acquainted.get 5 { root := .query, field := "team" } true).1.data.bind
        (·.walk? ["lead", "friends", "0", "name"]) ∧
    (acquainted.get 5 { root := .query, field := "team", rest := ["lead", "friends", "0", "name"] }
        true).1.data = some (.string "x") := by
  have held : ∀ p ∈ acquainted.store.containers, ∀ id ∈ p.2.data.references,
      Fields.contains acquainted.store.objects id = true := by decide
  have named : ∀ p ∈ acquainted.store.objects, ∀ id ∈ p.2.references,
      Fields.contains acquainted.store.objects id = true := by decide
  have objects : ∀ p ∈ acquainted.store.objects, p.2.referenceId?.isNone := by decide
  have friendly : ∀ p ∈ acquainted.store.objects,
      p.2.references = [] ∨ p.1 ∉ ["F:2"] ∧ p.2.references ⊆ ["F:2"] := by decide
  have alone : ∀ p ∈ acquainted.store.objects, p.1 ∈ ["F:2"] → p.2.references ⊆ ["F:2"] := by
    decide
  refine ⟨get_eq_walk? acquainted ?resolves ?direct ?acyclic 5 .query "team" _, by rfl⟩
  case resolves =>
    intro owner v hv
    cases owner with
    | container key =>
        obtain ⟨c, hc, rfl⟩ := Option.map_eq_some_iff.mp hv
        exact held _ (Recency.mem_of_peek? hc)
    | object id => exact named _ (Fields.mem_of_get? hv)
  case direct => exact fun id v hv => Option.isNone_iff_eq_none.mp (objects _ (Fields.mem_of_get? hv))
  case acyclic =>
    intro id v hv hback
    rcases friendly _ (Fields.mem_of_get? hv) with none | ⟨other, some⟩
    · exact Json.not_leads_of_references none hback
    · exact other (hback.mem_of_closed some alone)

end Cache
end LazyGraph
