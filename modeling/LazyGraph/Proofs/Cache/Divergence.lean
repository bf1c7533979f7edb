import LazyGraph.Proofs.Cache.Dependence
import LazyGraph.Proofs.Json.Place

/-!
Two ways down that part: a write at the end of the one leaves what the other ends on, where both
name positions of lists in the same way.
-/
namespace LazyGraph

namespace Json

/-- Every segment that applies to a list is written as the numeral of a position, if it is one at
all. References on the way are followed. -/
def Canonical (table : ObjectTable) : Json → List String → Prop
  | _, [] => True
  | v, segment :: rest =>
    (∀ items, v.resolve? table = some (.array items) →
      ∀ i, Text.index? segment = some i → segment = toString i) ∧
    ∀ u, (v.resolve? table).bind (·.step? segment) = some u → Canonical table u rest

/-- No value above the end of a way down is a reference. -/
def Unbroken (v : Json) (path : List String) : Prop :=
  ∀ above, above <+: path → above ≠ path → ∀ u, v.walk? above = some u → u.referenceId? = none

variable {table other : ObjectTable} {v w u value : Json} {path : List String}

theorem resolve?_of_none (h : v.referenceId? = none) : v.resolve? table = some v := by
  rw [resolve?, h]

theorem Unbroken.head {segment : String} {rest : List String} (h : Unbroken v (segment :: rest)) :
    v.referenceId? = none :=
  h [] List.nil_prefix (List.cons_ne_nil segment rest).symm v rfl

theorem Unbroken.tail {segment : String} {rest : List String} (h : Unbroken v (segment :: rest))
    (hs : v.step? segment = some u) : Unbroken u rest := by
  intro above ha hne w hw
  refine h (segment :: above) (List.cons_prefix_cons.mpr ⟨rfl, ha⟩)
    (fun e => hne (List.cons.inj e).2) w ?_
  rw [walk?_cons, hs]
  exact hw

/-- Segments that name one place of a value are equal where they are written as numerals. -/
theorem segment_eq_of_place? {a b : String} {place : Place} (ha : v.place? a = some place)
    (hb : v.place? b = some place)
    (numeral : ∀ items, v = .array items → ∀ segment ∈ [a, b], ∀ i,
      Text.index? segment = some i → segment = toString i) : a = b := by
  cases v with
  | object fs =>
      rw [place?] at ha hb
      exact Place.key.inj (Option.some.inj (ha.trans hb.symm))
  | array items =>
      obtain ⟨i, hi, rfl⟩ := Option.map_eq_some_iff.mp ha
      obtain ⟨j, hj, e⟩ := Option.map_eq_some_iff.mp hb
      cases e
      have hcanonical := numeral items rfl
      exact (hcanonical a List.mem_cons_self i hi).trans
        (hcanonical b (List.mem_cons_of_mem a List.mem_cons_self) i hj).symm
  | null => cases ha
  | bool b => cases ha
  | number n => cases ha
  | string s => cases ha

/-- What a value was put in is not a reference, unless the value is all that it holds, under the
key of references. -/
theorem referenceId?_of_writeAt? {segment : String} {rest : List String}
    (hw : v.writeAt? value (segment :: rest) = some w)
    (last : (segment :: rest).getLast? ≠ some referenceKey) : w.referenceId? = none := by
  cases rest with
  | nil =>
      cases v with
      | object fs =>
          cases hw
          refine Decidable.byContradiction fun hr => last ?_
          obtain ⟨id, hid⟩ := Option.ne_none_iff_exists'.mp hr
          have hfields := referenceIn?_eq_some_iff.mp hid
          have hmem := Fields.mem_insert_self fs segment value
          rw [hfields] at hmem
          exact congrArg (some ·.1) (List.mem_singleton.mp hmem)
      | array items =>
          obtain ⟨_, _, hput⟩ := put_of_writeAt? (List.cons_ne_nil segment []) hw
          cases hput <;> rfl
      | null => cases hw
      | bool b => cases hw
      | number n => cases hw
      | string s => cases hw
  | cons next rest =>
      obtain ⟨places, hway, hput⟩ := put_of_writeAt? (List.cons_ne_nil segment (next :: rest)) hw
      obtain ⟨first, places, rfl⟩ := List.exists_cons_of_ne_nil hput.ne_nil
      have hlength := length_of_way? hway
      obtain ⟨second, places, rfl⟩ : ∃ second more, places = second :: more :=
        List.exists_cons_of_length_pos (by simp at hlength; omega)
      exact hput.referenceId?_eq_none.2

/-- A write leaves the parts that other segments lead to. -/
theorem step?_of_writeAt? {a b : String} {rest : List String}
    (hw : v.writeAt? value (b :: rest) = some w) (hab : a ≠ b)
    (spelled : ∀ items, v = .array items → ∀ segment ∈ [a, b], ∀ i,
      Text.index? segment = some i → segment = toString i) : w.step? a = v.step? a := by
  obtain ⟨places, hway, hput⟩ := put_of_writeAt? (List.cons_ne_nil b rest) hw
  obtain ⟨first, below, hfirst, rfl, _⟩ := way?_cons_eq_some_iff.mp hway
  rw [step?_eq_child?, step?_eq_child?, hput.place?]
  cases hp : v.place? a with
  | none => rfl
  | some place =>
      refine hput.child?_of_ne fun e => hab ?_
      subst e
      exact segment_eq_of_place? hp hfirst spelled

/-- A write leaves what another way down ends on, if neither way is a part of the other one. -/
theorem descend?_writeAt? {path way : List String} (hw : v.writeAt? value path = some w)
    (unbroken : Unbroken v path) (last : path.getLast? ≠ some referenceKey)
    (written : Canonical table v path) (read : Canonical table v way) (below : ¬ path <+: way)
    (above : ¬ way <+: path) : descend? other w way = descend? other v way := by
  induction path generalizing v w way with
  | nil => exact absurd List.nil_prefix below
  | cons b rest ih =>
      cases way with
      | nil => exact absurd List.nil_prefix above
      | cons a way =>
          have hv := unbroken.head
          have hdirect := referenceId?_of_writeAt? hw last
          rw [descend?, descend?, resolve?_of_none hv, resolve?_of_none hdirect, Option.bind_some,
            Option.bind_some]
          rw [Canonical, resolve?_of_none hv, Option.bind_some] at written read
          by_cases hab : a = b
          · subst hab
            rw [List.cons_prefix_cons] at below above
            cases rest with
            | nil => exact absurd ⟨rfl, List.nil_prefix⟩ below
            | cons next rest =>
                rw [writeAt?_cons v value a (List.cons_ne_nil next rest)] at hw
                obtain ⟨u, u', hu, hu', _⟩ := alter?_cases hw
                obtain ⟨w', hw', hstep⟩ := alter?_of_step?
                  (f := fun u => u.writeAt? value (next :: rest)) hu hu'
                obtain rfl : w = w' := Option.some.inj (hw.symm.trans hw')
                rw [hstep, hu, Option.bind_some, Option.bind_some]
                rw [List.getLast?_cons_cons] at last
                exact ih hu' (unbroken.tail hu) last (written.2 u hu) (read.2 u hu)
                  (fun h => below ⟨rfl, h⟩) fun h => above ⟨rfl, h⟩
          · have hstep : w.step? a = v.step? a := by
              refine step?_of_writeAt? hw hab fun items hitems segment hs i hi => ?_
              have hsame := congrArg some hitems
              rcases List.mem_cons.mp hs with rfl | hs
              · exact read.1 items hsame i hi
              · obtain rfl := List.mem_singleton.mp hs
                exact written.1 items hsame i hi
            rw [hstep]

end Json

namespace Cache.Store

/-- The segments at places of lists in a path are written as numerals. -/
def Canonical (s : Store) (path : CachePath) : Prop :=
  ∀ v, s.ownerValue? (.container (keyOf path)) = some v → Json.Canonical s.objects v path.rest

variable {s t : Store}

theorem slotFrom?_object {v : Json} {slot last : Slot} {rest : List String} {id : String}
    (h : slotFrom? s.objects v slot rest = some last) (ho : slot.owner = .object id) :
    ∃ other, last.owner = .object other := by
  cases rest with
  | nil =>
      cases h
      exact ⟨id, ho⟩
  | cons segment rest =>
      obtain ⟨_, _, hlies⟩ := slotFrom?_path (List.cons_ne_nil segment rest) h
      exact hlies.elim (fun e => ⟨id, e.trans ho⟩) fun h => h

/-- A way down to a slot in a container follows no reference: past one it stays in the table of
objects. -/
theorem slotFrom?_container {v : Json} {slot last : Slot} {rest : List String}
    {key : ContainerKey} (ho : last.owner = .container key)
    (h : slotFrom? s.objects v slot rest = some last) :
    last = { slot with path := slot.path ++ rest } ∧ v.Unbroken rest := by
  induction rest generalizing v slot with
  | nil =>
      cases h
      refine ⟨by rw [List.append_nil], fun above ha hne => absurd (List.prefix_nil.mp ha) hne⟩
  | cons segment rest ih =>
      have henter : ∀ {u q}, enter? s.objects v slot = some (u, q) →
          (∀ id, q.owner ≠ .object id) → v.referenceId? = none ∧ u = v ∧ q = slot := by
        intro u q hq hobject
        rcases enter?_cases hq with hcases | ⟨id, _, rfl⟩
        · exact hcases
        · exact absurd rfl (hobject id)
      cases rest with
      | nil =>
          rw [slotFrom?_singleton] at h
          obtain ⟨⟨u, q⟩, hq, rfl⟩ := Option.map_eq_some_iff.mp h
          obtain ⟨hr, rfl, rfl⟩ := henter hq fun id e => nomatch e.symm.trans ho
          refine ⟨rfl, fun above ha hne w hw => ?_⟩
          rcases List.prefix_cons_iff.mp ha with rfl | ⟨tail, rfl, ht⟩
          · cases hw
            exact hr
          · exact absurd (congrArg _ (List.prefix_nil.mp ht)) hne
      | cons next rest =>
          rw [slotFrom?_cons] at h
          obtain ⟨⟨u, q⟩, hq, hfound⟩ := Option.bind_eq_some_iff.mp h
          obtain ⟨w, hw, hlast⟩ := Option.bind_eq_some_iff.mp hfound
          obtain ⟨hr, rfl, rfl⟩ := henter hq fun id e => by
            obtain ⟨other, hother⟩ := slotFrom?_object hlast e
            rw [ho] at hother
            cases hother
          obtain ⟨rfl, hbelow⟩ := ih hlast
          refine ⟨by rw [List.append_assoc]; rfl, fun above ha hne x hx => ?_⟩
          rcases List.prefix_cons_iff.mp ha with rfl | ⟨tail, rfl, ht⟩
          · cases hx
            exact hr
          · rw [Json.walk?_cons, hw] at hx
            exact hbelow tail ht (fun e => hne (congrArg _ e)) x hx

end Cache.Store
end LazyGraph
