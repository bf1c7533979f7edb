import LazyGraph.Proofs.Json.Place
import LazyGraph.Proofs.Json.Removal

/-!
What a removal does at places: one part is taken away, and all that stands neither above it nor
below it is as it was.
-/
namespace LazyGraph.Json

variable {v w u x : Json} {place : Place} {places : List Place}

/-- The second value is the first without the part at a place. A member is gone from its object,
and null stands in the place of an item, so that the other items keep theirs. -/
inductive Dropped : Place → Json → Json → Prop
  | member {fs : Fields Json} {name : String} (found : name ∈ Fields.keys fs) :
    Dropped (.key name) (.object fs) (.object (Fields.erase fs name))
  | element {items : List Json} {i : Nat} (found : i < items.length) :
    Dropped (.item i) (.array items) (.array (items.set i .null))

theorem Dropped.child?_of_ne (h : Dropped place v w) {other : Place} (hne : other ≠ place) :
    w.child? other = v.child? other := by
  cases h with
  | element found => exact child?_set_of_ne .null hne
  | @member fs name found =>
      cases other with
      | item i => rfl
      | key k =>
          have hfilter := Fields.get?_filter (· != name) fs k
          exact hfilter.trans (if_pos (bne_iff_ne.mpr fun e => hne (congrArg Place.key e)))

theorem dropped_of_drop? {segment : String} (h : v.drop? segment = some w) :
    ∃ place, v.place? segment = some place ∧ Dropped place v w := by
  cases v with
  | object fs =>
      rw [drop?] at h
      split at h
      · cases h
        exact ⟨_, rfl, .member (Fields.contains_iff.mp ‹_›)⟩
      · cases h
  | array items =>
      simp only [drop?] at h
      split at h
      · rename_i i hi
        split at h
        · cases h
          refine ⟨.item i, ?_, .element ‹_›⟩
          rw [place?, hi, Option.map_some]
        · cases h
      · cases h
  | null => cases h
  | bool b => cases h
  | number n => cases h
  | string s => cases h

/-- The part at the end of places is taken away, and nothing else changes. -/
structure Taken (places : List Place) (v w : Json) : Prop where
  last : ∃ above place u x, places = above ++ [place] ∧ v.at? above = some u ∧
    w.at? above = some x ∧ Dropped place u x
  apart : ∀ other, ¬ other <+: places → ¬ places <+: other → w.at? other = v.at? other

theorem Dropped.taken (h : Dropped place v w) : Taken [place] v w where
  last := ⟨[], place, v, w, rfl, rfl, rfl, h⟩
  apart other above below := by
    cases other with
    | nil => exact absurd List.nil_prefix above
    | cons first other =>
        have hne : first ≠ place := fun e =>
          below (List.cons_prefix_cons.mpr ⟨e.symm, List.nil_prefix⟩)
        rw [at?, at?, h.child?_of_ne hne]

/-- A part of a part is taken away, where the other parts stay. -/
theorem Taken.cons (h : Taken places u x) (before : v.child? place = some u)
    (after : w.child? place = some x)
    (others : ∀ other ≠ place, w.child? other = v.child? other) :
    Taken (place :: places) v w where
  last := by
    obtain ⟨above, final, t, y, hplaces, ht, hy, hdropped⟩ := h.last
    refine ⟨place :: above, final, t, y, congrArg (place :: ·) hplaces, ?_, ?_, hdropped⟩
    · rw [at?, before]
      exact ht
    · rw [at?, after]
      exact hy
  apart other above below := by
    cases other with
    | nil => exact absurd List.nil_prefix above
    | cons first other =>
        rw [at?, at?]
        by_cases hfirst : first = place
        · subst hfirst
          rw [before, after]
          exact h.apart other (fun hp => above (List.cons_prefix_cons.mpr ⟨rfl, hp⟩))
            fun hp => below (List.cons_prefix_cons.mpr ⟨rfl, hp⟩)
        · rw [others first hfirst]

/-- A removal takes away the part at the places on its way down. -/
theorem taken_of_removeAt? {path : List String} (h : v.removeAt? path = some w) :
    ∃ places, v.way? path = some places ∧ Taken places v w := by
  induction path generalizing v w with
  | nil => cases h
  | cons segment rest ih =>
      cases rest with
      | nil =>
          obtain ⟨place, hplace, hdropped⟩ := dropped_of_drop? h
          exact ⟨[place], way?_cons_eq_some_iff.mpr ⟨place, [], hplace, rfl, .inl ⟨rfl, rfl⟩⟩,
            hdropped.taken⟩
      | cons next rest =>
          obtain ⟨u, x, hs, hx, hcases⟩ := alter?_cases h
          obtain ⟨below, hway, htaken⟩ := ih hx
          have hne := List.cons_ne_nil next rest
          rcases hcases with ⟨fs, rfl, rfl⟩ | ⟨items, i, rfl, hi, hlt, rfl⟩
          · refine ⟨.key segment :: below, ?_, htaken.cons hs ?_ fun other ho => ?_⟩
            · exact way?_cons_eq_some_iff.mpr ⟨_, below, rfl, rfl, .inr ⟨hne, u, hs, hway⟩⟩
            · exact Fields.get?_insert_self fs segment x
            · exact child?_insert_of_ne x ho
          · rw [step?, hi, Option.bind_some] at hs
            have hplace : (Json.array items).place? segment = some (.item i) := by
              rw [place?, hi, Option.map_some]
            refine ⟨.item i :: below, ?_, htaken.cons hs ?_ fun other ho => ?_⟩
            · exact way?_cons_eq_some_iff.mpr ⟨_, below, hplace, rfl, .inr ⟨hne, u, hs, hway⟩⟩
            · exact List.getElem?_set_self hlt
            · exact child?_set_of_ne x ho

end LazyGraph.Json
