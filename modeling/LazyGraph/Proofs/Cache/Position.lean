import LazyGraph.Proofs.Cache.Descent
import LazyGraph.Proofs.Json.Place

/-!
Positions in the contents of a cache: a place in the value of an owner. Slots name positions, and
several paths may resolve to one.
-/
namespace LazyGraph.Cache

/-- A place in a container or in an identified object. -/
structure Position where
  owner : Owner
  places : List Json.Place
  deriving DecidableEq, Repr

namespace Position

/-- Whether the first position is the second one or encloses it. -/
def Encloses (p q : Position) : Prop := p.owner = q.owner ∧ p.places <+: q.places

def child (p : Position) (place : Json.Place) : Position := { p with places := p.places ++ [place] }

/-- The position that a position lies in. -/
def parent (p : Position) : Position := { p with places := p.places.dropLast }

/-- An identified object as a whole. -/
def IsObject (p : Position) : Prop := p.places = [] ∧ ∃ id, p.owner = .object id

theorem Encloses.refl (p : Position) : p.Encloses p := ⟨rfl, List.prefix_rfl⟩

theorem Encloses.trans {p q r : Position} (h : p.Encloses q) (h' : q.Encloses r) : p.Encloses r :=
  ⟨h.1.trans h'.1, h.2.trans h'.2⟩

theorem encloses_child (p : Position) (place : Json.Place) : p.Encloses (p.child place) :=
  ⟨rfl, List.prefix_append _ _⟩

theorem child_not_isObject (p : Position) (place : Json.Place) : ¬ (p.child place).IsObject :=
  fun h => List.append_ne_nil_of_right_ne_nil _ (List.cons_ne_nil _ _) h.1

end Position

namespace Store

def at? (s : Store) (p : Position) : Option Json := (s.ownerValue? p.owner).bind (·.at? p.places)

/-- The position that a slot names. -/
def positionOf? (s : Store) (slot : Slot) : Option Position :=
  (s.ownerValue? slot.owner).bind fun v =>
    (v.way? slot.path).map ({ owner := slot.owner, places := · })

/-- The position that a path resolves to; a reference at its end is not followed. -/
def position? (s : Store) (path : CachePath) : Option Position :=
  (s.slot? path).bind s.positionOf?

/-- What a position lies in is a reference. An object of the table is none as a whole: it is what
references are resolved to. -/
def InReference (s : Store) (p : Position) : Prop :=
  ¬ p.parent.IsObject ∧ ∃ v, s.at? p.parent = some v ∧ v.referenceId? ≠ none

variable {s t : Store}

/-! ### Slots and positions -/

theorem positionOf?_eq_some_iff {slot : Slot} {p : Position} :
    s.positionOf? slot = some p ↔ p.owner = slot.owner ∧
      ∃ v, s.ownerValue? slot.owner = some v ∧ v.way? slot.path = some p.places := by
  rw [positionOf?, Option.bind_eq_some_iff]
  constructor
  · rintro ⟨v, hv, h⟩
    obtain ⟨places, hp, rfl⟩ := Option.map_eq_some_iff.mp h
    exact ⟨rfl, v, hv, hp⟩
  · rintro ⟨ho, v, hv, hp⟩
    refine ⟨v, hv, ?_⟩
    rw [hp, Option.map_some, ← ho]

theorem at?_of_positionOf? {slot : Slot} {p : Position} (h : s.positionOf? slot = some p) :
    s.at? p = s.slotValue? slot := by
  obtain ⟨ho, v, hv, hp⟩ := positionOf?_eq_some_iff.mp h
  rw [at?, slotValue?, ho, hv, Option.bind_some, Option.bind_some, Json.at?_of_way? hp]

theorem positionOf?_root {owner : Owner} {v : Json} (h : s.ownerValue? owner = some v) :
    s.positionOf? { owner, path := [] } = some { owner, places := [] } :=
  positionOf?_eq_some_iff.mpr ⟨rfl, v, h, rfl⟩

theorem positionOf?_child {slot : Slot} {p : Position} {v : Json}
    (h : s.positionOf? slot = some p) (hv : s.slotValue? slot = some v) (segment : String) :
    s.positionOf? { slot with path := slot.path ++ [segment] } =
      (v.place? segment).map p.child := by
  obtain ⟨ho, u, hu, hp⟩ := positionOf?_eq_some_iff.mp h
  rw [slotValue?, hu, Option.bind_some] at hv
  rw [positionOf?, hu, Option.bind_some, Json.way?_append_singleton hp hv, Option.map_map, ← ho]
  rfl

theorem positionOf?_parent {slot : Slot} {p : Position} (h : s.positionOf? slot = some p) :
    s.positionOf? { slot with path := slot.path.dropLast } = some p.parent := by
  obtain ⟨ho, v, hv, hp⟩ := positionOf?_eq_some_iff.mp h
  exact positionOf?_eq_some_iff.mpr ⟨ho, v, hv, Json.way?_dropLast hp⟩

/-- A way down to a slot does not end in a reference that it could follow. -/
theorem slotFrom?_parent {v : Json} {slot end_ : Slot} {rest : List String} (hn : rest ≠ [])
    (hv : s.slotValue? slot = some v) (h : slotFrom? s.objects v slot rest = some end_) :
    ∃ u, s.parent? end_ = some u ∧ (u.referenceId? = none ∨
      (end_.path.dropLast = [] ∧ ∃ id, end_.owner = .object id)) := by
  induction rest generalizing v slot with
  | nil => exact absurd rfl hn
  | cons segment rest ih =>
      have henter : ∀ {u q}, enter? s.objects v slot = some (u, q) → s.slotValue? q = some u := by
        intro u q hq
        rcases enter?_value hv with ⟨he, _⟩ | ⟨u', q', he, _, hu⟩
        · rw [he] at hq
          cases hq
        · rw [he] at hq
          cases hq
          exact hu
      cases rest with
      | nil =>
          rw [slotFrom?_singleton] at h
          obtain ⟨⟨u, q⟩, hq, rfl⟩ := Option.map_eq_some_iff.mp h
          refine ⟨u, ?_, ?_⟩
          · rw [parent?, List.dropLast_concat]
            exact henter hq
          · rcases enter?_cases hq with ⟨hr, rfl, rfl⟩ | ⟨id, _, rfl⟩
            · exact .inl hr
            · exact .inr ⟨rfl, id, rfl⟩
      | cons next rest =>
          rw [slotFrom?_cons] at h
          obtain ⟨⟨u, q⟩, hq, h⟩ := Option.bind_eq_some_iff.mp h
          obtain ⟨w, hw, h⟩ := Option.bind_eq_some_iff.mp h
          refine ih (List.cons_ne_nil next rest) ?_ h
          rw [slotValue?_child, henter hq]
          exact hw

theorem not_inReference_of_slot? {path : CachePath} {slot : Slot} {p : Position}
    (hn : path.rest ≠ []) (hs : s.slot? path = some slot) (hp : s.positionOf? slot = some p) :
    ¬ s.InReference p := by
  obtain ⟨c, hc, h⟩ := Option.bind_eq_some_iff.mp hs
  have hv : s.slotValue? { owner := .container (keyOf path), path := [] } = some c.data := by
    rw [slotValue?, ownerValue?, hc]
    rfl
  obtain ⟨u, hu, hcases⟩ := slotFrom?_parent hn hv h
  have hparent := positionOf?_parent hp
  rintro ⟨hobject, v, hv, href⟩
  rw [at?_of_positionOf? hparent] at hv
  obtain rfl : u = v := Option.some.inj (hu.symm.trans hv)
  rcases hcases with hr | ⟨he, id, ho⟩
  · exact href hr
  · obtain ⟨howner, w, _, hway⟩ := positionOf?_eq_some_iff.mp hparent
    refine hobject ⟨?_, id, howner.trans ho⟩
    rw [he] at hway
    exact (Option.some.inj hway).symm

/-! ### A value put at a position -/

/-- The second contents are the first with a value put at a position. -/
structure Puts (s : Store) (p : Position) (value : Json) (t : Store) : Prop where
  put : ∃ u w, s.ownerValue? p.owner = some u ∧ t.ownerValue? p.owner = some w ∧
    Json.Put value p.places u w
  elsewhere : ∀ owner ≠ p.owner, t.ownerValue? owner = s.ownerValue? owner
  lifetimes : t.containers.map (fun q => (q.1, q.2.lifetime)) =
    s.containers.map fun q => (q.1, q.2.lifetime)

namespace Puts

variable {p : Position} {value : Json}

theorem at?_self (h : s.Puts p value t) : t.at? p = some value := by
  obtain ⟨u, w, _, hw, hput⟩ := h.put
  rw [at?, hw, Option.bind_some, hput.at?_self]

/-- What a position holds that is not the changed one, nor above it nor below it, stays. -/
theorem at?_apart (h : s.Puts p value t) {q : Position} (above : ¬ q.Encloses p)
    (below : ¬ p.Encloses q) : t.at? q = s.at? q := by
  rw [at?, at?]
  by_cases ho : q.owner = p.owner
  · obtain ⟨u, w, hu, hw, hput⟩ := h.put
    rw [ho, hu, hw, Option.bind_some, Option.bind_some]
    exact hput.at?_apart (fun hq => above ⟨ho, hq⟩) (fun hp => below ⟨ho.symm, hp⟩)
  · rw [h.elsewhere q.owner ho]

end Puts

theorem lifetimes_withOwnerValue (s : Store) (owner : Owner) (v : Json) :
    (s.withOwnerValue owner v).containers.map (fun q => (q.1, q.2.lifetime)) =
      s.containers.map fun q => (q.1, q.2.lifetime) := by
  cases owner with
  | object id => rfl
  | container key =>
      rw [withOwnerValue, Recency.update, List.map_map]
      refine List.map_congr_left fun q _ => ?_
      rw [Function.comp_apply]
      split <;> rfl

theorem puts_of_writeSlot? {slot : Slot} {value : Json} (hn : slot.path ≠ [])
    (h : s.writeSlot? slot value = some t) :
    ∃ p, s.positionOf? slot = some p ∧ s.Puts p value t := by
  obtain ⟨v, hv, h⟩ := Option.bind_eq_some_iff.mp h
  obtain ⟨w, hw, h⟩ := Option.bind_eq_some_iff.mp h
  cases h
  obtain ⟨places, hway, hput⟩ := Json.put_of_writeAt? hn hw
  refine ⟨{ owner := slot.owner, places }, positionOf?_eq_some_iff.mpr ⟨rfl, v, hv, hway⟩, ?_⟩
  have hvalue := ownerValue?_withOwnerValue hv w
  exact ⟨⟨v, w, hv, (hvalue slot.owner).trans (if_pos rfl), hput⟩,
    fun owner ho => (hvalue owner).trans (if_neg ho), s.lifetimes_withOwnerValue slot.owner w⟩

end Store
end LazyGraph.Cache
