import LazyGraph.Proofs.Json.Position

/-!
Places in a value: keys of objects and positions of arrays, whatever the segments that name them.
Two ways down end at one place where their segments read as the same keys and positions.
-/
namespace LazyGraph.Json

/-- Where a part stands in a value. -/
inductive Place
  | key (name : String)
  | item (index : Nat)
  deriving DecidableEq, Repr

/-- The place that a segment names in a value. -/
def place? (v : Json) (segment : String) : Option Place :=
  match v with
  | .object _ => some (.key segment)
  | .array _ => (Text.index? segment).map .item
  | _ => none

/-- The part of a value at a place. -/
def child? : Json → Place → Option Json
  | .object fs, .key name => Fields.get? fs name
  | .array items, .item i => items[i]?
  | _, _ => none

/-- The part of a value at the end of places. -/
def at? : Json → List Place → Option Json
  | v, [] => some v
  | v, place :: rest => (v.child? place).bind (at? · rest)

/-- The places on a way down. The last one need not be taken. -/
def way? : Json → List String → Option (List Place)
  | _, [] => some []
  | v, [last] => (v.place? last).map ([·])
  | v, segment :: rest =>
    (v.place? segment).bind fun place =>
      (v.child? place).bind fun u => (way? u rest).map (place :: ·)

/-! ### Segments and places -/

theorem step?_eq_child? (v : Json) (segment : String) :
    v.step? segment = (v.place? segment).bind v.child? := by
  cases v with
  | object fs => rfl
  | array items =>
      rw [step?, place?]
      cases Text.index? segment <;> rfl
  | null => rfl
  | bool b => rfl
  | number n => rfl
  | string s => rfl

theorem step?_of_place? {v : Json} {segment : String} {place : Place}
    (h : v.place? segment = some place) : v.step? segment = v.child? place := by
  rw [step?_eq_child?, h, Option.bind_some]

theorem at?_append (v : Json) (places rest : List Place) :
    v.at? (places ++ rest) = (v.at? places).bind (at? · rest) := by
  induction places generalizing v with
  | nil => rfl
  | cons place places ih =>
      rw [List.cons_append, at?, at?, Option.bind_assoc]
      exact congrArg _ (funext fun u => ih u)

theorem at?_singleton (v : Json) (place : Place) : v.at? [place] = v.child? place :=
  Option.bind_fun_some _

theorem way?_cons (v : Json) (segment next : String) (rest : List String) :
    v.way? (segment :: next :: rest) = (v.place? segment).bind fun place =>
      (v.child? place).bind fun u => (way? u (next :: rest)).map (place :: ·) := rfl

/-- The first place of a way down is that of its first segment, and those after it are the places of
the way from there. -/
theorem way?_cons_eq_some_iff {v : Json} {segment : String} {rest : List String}
    {places : List Place} : v.way? (segment :: rest) = some places ↔
      ∃ place below, v.place? segment = some place ∧ places = place :: below ∧
        ((rest = [] ∧ below = []) ∨
          (rest ≠ [] ∧ ∃ u, v.child? place = some u ∧ u.way? rest = some below)) := by
  cases rest with
  | nil =>
      constructor
      · intro h
        obtain ⟨place, hp, rfl⟩ := Option.map_eq_some_iff.mp h
        exact ⟨place, [], hp, rfl, .inl ⟨rfl, rfl⟩⟩
      · rintro ⟨place, below, hp, rfl, ⟨_, rfl⟩ | ⟨hn, _⟩⟩
        · exact Option.map_eq_some_iff.mpr ⟨place, hp, rfl⟩
        · exact absurd rfl hn
  | cons next rest =>
      rw [way?_cons]
      constructor
      · intro h
        obtain ⟨place, hp, h⟩ := Option.bind_eq_some_iff.mp h
        obtain ⟨u, hu, h⟩ := Option.bind_eq_some_iff.mp h
        obtain ⟨below, hb, rfl⟩ := Option.map_eq_some_iff.mp h
        exact ⟨place, below, hp, rfl, .inr ⟨List.cons_ne_nil next rest, u, hu, hb⟩⟩
      · rintro ⟨place, below, hp, rfl, ⟨he, _⟩ | ⟨_, u, hu, hb⟩⟩
        · exact absurd he (List.cons_ne_nil next rest)
        · rw [hp, Option.bind_some, hu, Option.bind_some, hb, Option.map_some]

/-- A way down ends where its places do. -/
theorem at?_of_way? {v : Json} {path : List String} {places : List Place}
    (h : v.way? path = some places) : v.at? places = v.walk? path := by
  induction path generalizing v places with
  | nil =>
      cases h
      rfl
  | cons segment rest ih =>
      obtain ⟨place, below, hp, rfl, ⟨rfl, rfl⟩ | ⟨_, u, hu, hb⟩⟩ := way?_cons_eq_some_iff.mp h
      · rw [at?_singleton, walk?_singleton, step?_of_place? hp]
      · rw [at?, walk?_cons, step?_of_place? hp, hu, Option.bind_some, Option.bind_some]
        exact ih hb

/-- A way down that is there goes on to the place that its next segment names. -/
theorem way?_append_singleton {v u : Json} {path : List String} {places : List Place}
    (h : v.way? path = some places) (hu : v.walk? path = some u) (segment : String) :
    v.way? (path ++ [segment]) = (u.place? segment).map fun place => places ++ [place] := by
  induction path generalizing v places with
  | nil =>
      cases h
      cases hu
      rfl
  | cons first rest ih =>
      rw [walk?_cons] at hu
      obtain ⟨w, hs, hu⟩ := Option.bind_eq_some_iff.mp hu
      obtain ⟨place, below, hp, rfl, hrest⟩ := way?_cons_eq_some_iff.mp h
      have hw : v.child? place = some w := (step?_of_place? hp).symm.trans hs
      have hbelow : w.way? rest = some below := by
        rcases hrest with ⟨rfl, rfl⟩ | ⟨_, w', hw', hb⟩
        · rfl
        · obtain rfl := Option.some.inj (hw.symm.trans hw')
          exact hb
      obtain ⟨next, tail, htail⟩ : ∃ next tail, rest ++ [segment] = next :: tail :=
        List.exists_cons_of_ne_nil (List.append_ne_nil_of_right_ne_nil _ (List.cons_ne_nil _ _))
      rw [List.cons_append, htail, way?_cons, ← htail, hp, Option.bind_some, hw, Option.bind_some,
        ih hbelow hu, Option.map_map]
      rfl

theorem length_of_way? {v : Json} {path : List String} {places : List Place}
    (h : v.way? path = some places) : places.length = path.length := by
  induction path generalizing v places with
  | nil =>
      cases h
      rfl
  | cons segment rest ih =>
      obtain ⟨_, _, _, rfl, ⟨rfl, rfl⟩ | ⟨_, u, _, hb⟩⟩ := way?_cons_eq_some_iff.mp h
      · rfl
      · rw [List.length_cons, List.length_cons, ih hb]

theorem way?_dropLast {v : Json} {path : List String} {places : List Place}
    (h : v.way? path = some places) : v.way? path.dropLast = some places.dropLast := by
  induction path generalizing v places with
  | nil =>
      cases h
      rfl
  | cons segment rest ih =>
      obtain ⟨place, below, hp, rfl, ⟨rfl, rfl⟩ | ⟨hn, u, hu, hb⟩⟩ := way?_cons_eq_some_iff.mp h
      · rfl
      · have hbelow : below ≠ [] := List.ne_nil_of_length_pos
          (length_of_way? hb ▸ List.length_pos_iff.mpr hn)
        rw [List.dropLast_cons_of_ne_nil hn, List.dropLast_cons_of_ne_nil hbelow]
        refine way?_cons_eq_some_iff.mpr ⟨place, below.dropLast, hp, rfl, ?_⟩
        have hshorter := ih hb
        by_cases hempty : rest.dropLast = []
        · rw [hempty] at hshorter
          exact .inl ⟨hempty, (Option.some.inj hshorter).symm⟩
        · exact .inr ⟨hempty, u, hu, hshorter⟩

/-! ### Changes of one part -/

theorem child?_insert_of_ne {fs : Fields Json} {name : String} {other : Place} (v : Json)
    (h : other ≠ .key name) :
    (Json.object (Fields.insert fs name v)).child? other = (Json.object fs).child? other := by
  cases other with
  | key k => exact Fields.get?_insert_of_ne v fun e => h (congrArg Place.key e)
  | item j => rfl

theorem child?_set_of_ne {items : List Json} {i : Nat} {other : Place} (v : Json)
    (h : other ≠ .item i) :
    (Json.array (items.set i v)).child? other = (Json.array items).child? other := by
  cases other with
  | key name => rfl
  | item j => exact List.getElem?_set_ne fun e => h (congrArg Place.item e.symm)

/-! ### A value put at a place -/

/-- The second value is the first with a value put at the end of places: under a key of an object,
in the place of an item of an array, or after its last one. -/
inductive Put (value : Json) : List Place → Json → Json → Prop
  | member (fs : Fields Json) (name : String) :
    Put value [.key name] (.object fs) (.object (Fields.insert fs name value))
  | element {items : List Json} {i : Nat} (h : i < items.length) :
    Put value [.item i] (.array items) (.array (items.set i value))
  | appended (items : List Json) :
    Put value [.item items.length] (.array items) (.array (items ++ [value]))
  | inMember {fs : Fields Json} {name : String} {u w : Json} {rest : List Place}
    (found : Fields.get? fs name = some u) (h : Put value rest u w) :
    Put value (.key name :: rest) (.object fs) (.object (Fields.insert fs name w))
  | inElement {items : List Json} {i : Nat} {u w : Json} {rest : List Place}
    (found : items[i]? = some u) (h : Put value rest u w) :
    Put value (.item i :: rest) (.array items) (.array (items.set i w))

namespace Put

variable {value u w : Json} {places rest : List Place}

theorem ne_nil (h : Put value places u w) : places ≠ [] := by
  cases h <;> exact List.cons_ne_nil _ _

/-- Segments name the same places as before. -/
theorem place? (h : Put value places u w) (segment : String) :
    w.place? segment = u.place? segment := by
  cases h <;> rfl

theorem child?_of_ne {place other : Place} (h : Put value (place :: rest) u w)
    (hne : other ≠ place) : w.child? other = u.child? other := by
  cases h with
  | member fs name => exact child?_insert_of_ne value hne
  | element h => exact child?_set_of_ne value hne
  | appended items =>
      cases other with
      | key name => rfl
      | item j =>
          have hj : j ≠ items.length := fun e => hne (congrArg Place.item e)
          rw [child?, child?, List.getElem?_append]
          split
          · rfl
          · rw [List.getElem?_eq_none (by simp only [List.length_singleton]; omega),
              List.getElem?_eq_none (by omega)]
  | inMember found h => exact child?_insert_of_ne _ hne
  | inElement found h => exact child?_set_of_ne _ hne

theorem child?_last {place : Place} (h : Put value [place] u w) : w.child? place = some value := by
  cases h with
  | member fs name => exact Fields.get?_insert_self fs name value
  | element h => exact List.getElem?_set_self h
  | appended items => exact List.getElem?_concat_length
  | inMember found h => exact absurd rfl h.ne_nil
  | inElement found h => exact absurd rfl h.ne_nil

theorem child?_above {place : Place} (h : Put value (place :: rest) u w) (hn : rest ≠ []) :
    ∃ x y, u.child? place = some x ∧ w.child? place = some y ∧ Put value rest x y := by
  cases h with
  | member fs name => exact absurd rfl hn
  | element h => exact absurd rfl hn
  | appended items => exact absurd rfl hn
  | inMember found h => exact ⟨_, _, found, Fields.get?_insert_self _ _ _, h⟩
  | inElement found h =>
      obtain ⟨hlt, _⟩ := List.getElem?_eq_some_iff.mp found
      exact ⟨_, _, found, List.getElem?_set_self hlt, h⟩

theorem at?_self (h : Put value places u w) : w.at? places = some value := by
  induction places generalizing u w with
  | nil => exact absurd rfl h.ne_nil
  | cons place places ih =>
      cases places with
      | nil => rw [at?_singleton, h.child?_last]
      | cons next places =>
          obtain ⟨x, y, _, hy, hp⟩ := h.child?_above (List.cons_ne_nil next places)
          rw [at?, hy, Option.bind_some]
          exact ih hp

/-- What stands neither above the place nor below it is as it was. -/
theorem at?_apart {other : List Place} (h : Put value places u w) (above : ¬ other <+: places)
    (below : ¬ places <+: other) : w.at? other = u.at? other := by
  induction places generalizing u w other with
  | nil => exact absurd (List.nil_prefix) below
  | cons place places ih =>
      cases other with
      | nil => exact absurd (List.nil_prefix) above
      | cons first other =>
          rw [at?, at?]
          by_cases hf : first = place
          · subst hf
            rw [List.cons_prefix_cons] at above below
            cases places with
            | nil => exact absurd ⟨rfl, List.nil_prefix⟩ below
            | cons next places =>
                obtain ⟨x, y, hx, hy, hp⟩ := h.child?_above (List.cons_ne_nil next places)
                rw [hx, hy, Option.bind_some, Option.bind_some]
                exact ih hp (fun hp => above ⟨rfl, hp⟩) (fun hp => below ⟨rfl, hp⟩)
          · rw [h.child?_of_ne hf]

/-- What holds an object or an array is not a reference. -/
theorem referenceId?_eq_none {place next : Place} (h : Put value (place :: next :: rest) u w) :
    u.referenceId? = none ∧ w.referenceId? = none := by
  obtain ⟨x, y, hx, hy, hp⟩ := h.child?_above (List.cons_ne_nil next rest)
  have hheld : ∀ {v z : Json}, v.child? place = some z → (∀ s, z ≠ .string s) →
      v.referenceId? = none := by
    intro v z hz hs
    cases hr : v.referenceId? with
    | none => rfl
    | some id =>
        rw [referenceId?_eq_some_iff] at hr
        subst hr
        cases place with
        | item i => cases hz
        | key name =>
            rw [reference, child?, Fields.get?_cons] at hz
            split at hz
            · cases hz
              exact absurd rfl (hs id)
            · cases hz
  refine ⟨hheld hx ?_, hheld hy ?_⟩
  · cases hp <;> intro s e <;> cases e
  · cases hp <;> intro s e <;> cases e

end Put

/-- A write puts its value at the places on its way down. -/
theorem put_of_writeAt? {v w value : Json} {path : List String} (hn : path ≠ [])
    (h : v.writeAt? value path = some w) :
    ∃ places, v.way? path = some places ∧ Put value places v w := by
  induction path generalizing v w with
  | nil => exact absurd rfl hn
  | cons segment rest ih =>
      cases rest with
      | nil =>
          cases v with
          | object fs =>
              cases h
              exact ⟨_, rfl, .member fs segment⟩
          | array items =>
              simp only [writeAt?, put?] at h
              split at h
              · rename_i i hi
                have hway : (Json.array items).way? [segment] = some [.item i] := by
                  rw [way?, Json.place?, hi]
                  rfl
                split at h
                · cases h
                  exact ⟨_, hway, .element ‹_›⟩
                · split at h
                  · rename_i he
                    cases h
                    subst he
                    exact ⟨_, hway, .appended items⟩
                  · cases h
              · cases h
          | null => cases h
          | bool b => cases h
          | number n => cases h
          | string s => cases h
      | cons next rest =>
          obtain ⟨u, u', hs, hu, hcases⟩ := alter?_cases h
          obtain ⟨below, hb, hput⟩ := ih (List.cons_ne_nil next rest) hu
          rcases hcases with ⟨fs, rfl, rfl⟩ | ⟨items, i, rfl, hi, _, rfl⟩
          · refine ⟨.key segment :: below, way?_cons_eq_some_iff.mpr ?_, .inMember hs hput⟩
            exact ⟨_, _, rfl, rfl, .inr ⟨List.cons_ne_nil next rest, u, hs, hb⟩⟩
          · rw [Json.step?, hi, Option.bind_some] at hs
            refine ⟨.item i :: below, way?_cons_eq_some_iff.mpr ?_, .inElement hs hput⟩
            refine ⟨.item i, _, ?_, rfl, .inr ⟨List.cons_ne_nil next rest, u, hs, hb⟩⟩
            rw [Json.place?, hi, Option.map_some]

end LazyGraph.Json
