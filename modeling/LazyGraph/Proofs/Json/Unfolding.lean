import LazyGraph.Proofs.Json.Expansion
import LazyGraph.Proofs.Json.Place

/-!
Expansion as a recursion on values and on the identities that are opened around them. The recursion
ends on every table. What stands at a position of the result comes from the stored value that the
recursion meets there, so it is known where references stay, and which of them.
-/
namespace LazyGraph.Json

variable {table : ObjectTable} {opened around : List String} {v u w : Json} {id : String}
  {items : List Json} {fs : Fields Json}

/-! ### The recursion -/

/-- A reference stays as it is below the identities opened around it. -/
def Stays (table : ObjectTable) (opened : List String) (id : String) : Prop :=
  id ∈ opened ∨ Fields.get? table id = none

/-- What the expansion of a value asks for: the expansions of its parts or of its object. -/
inductive Calls (table : ObjectTable) : List String × Json → List String × Json → Prop
  | item {opened : List String} {items : List Json} {v : Json} (h : v ∈ items) :
    Calls table (opened, v) (opened, .array items)
  | member {opened : List String} {fs : Fields Json} {p : String × Json}
    (plain : referenceIn? fs = none) (h : p ∈ fs) : Calls table (opened, p.2) (opened, .object fs)
  | entry {opened : List String} {id : String} {u : Json} (fresh : id ∉ opened)
    (found : Fields.get? table id = some u) :
    Calls table (id :: opened, u) (opened, .reference id)

/-- The recursion that expands values below opened identities. -/
structure Expands (table : ObjectTable) (f : List String → Json → Json) : Prop where
  scalar : ∀ opened v, v.asObject? = none → v.asArray? = none → f opened v = v
  array : ∀ opened items, f opened (.array items) = .array (items.map (f opened))
  object : ∀ opened fs, referenceIn? fs = none →
    f opened (.object fs) = .object (fs.map fun p => (p.1, f opened p.2))
  stays : ∀ opened id, Stays table opened id → f opened (.reference id) = .reference id
  entry : ∀ opened id u, id ∉ opened → Fields.get? table id = some u →
    f opened (.reference id) = f (id :: opened) u

theorem accessible_of_parts (opened : List String)
    (entries : ∀ id u, id ∉ opened → Fields.get? table id = some u →
      Acc (Calls table) (id :: opened, u)) (v : Json) : Acc (Calls table) (opened, v) := by
  induction v using Json.induction with
  | array items ih =>
      constructor
      intro y hy
      cases hy with
      | item h => exact ih _ h
  | object fs ih =>
      constructor
      intro y hy
      generalize hv : Json.object fs = v at hy
      cases hy with
      | item h => cases hv
      | member plain h =>
          cases hv
          exact ih _ h
      | entry fresh found => exact entries _ _ fresh found
  | null => exact ⟨_, fun y hy => nomatch hy⟩
  | bool b => exact ⟨_, fun y hy => nomatch hy⟩
  | number n => exact ⟨_, fun y hy => nomatch hy⟩
  | string s => exact ⟨_, fun y hy => nomatch hy⟩

/-- The recursion ends: parts are smaller, and an object that is entered leaves fewer identities of
the table to open. -/
theorem calls_wellFounded (table : ObjectTable) : WellFounded (Calls table) := by
  have accessible : ∀ n opened, (unseen table opened).length < n →
      ∀ v, Acc (Calls table) (opened, v) := by
    intro n
    induction n with
    | zero => exact fun _ h => absurd h (Nat.not_lt_zero _)
    | succ n ih =>
        intro opened h
        apply accessible_of_parts
        intro id u fresh found
        have hless := unseen_cons_lt fresh (Fields.mem_keys_of_mem (Fields.mem_of_get? found))
        exact ih _ (by omega) u
  constructor
  intro ⟨opened, v⟩
  exact accessible _ opened (Nat.lt_succ_self _) v

/-- Induction along the recursion. -/
theorem calls_induction (table : ObjectTable) {motive : List String → Json → Prop}
    (scalar : ∀ opened v, v.asObject? = none → v.asArray? = none → motive opened v)
    (array : ∀ opened items, (∀ v ∈ items, motive opened v) → motive opened (.array items))
    (object : ∀ opened fs, referenceIn? fs = none → (∀ p ∈ fs, motive opened p.2) →
      motive opened (.object fs))
    (stays : ∀ opened id, Stays table opened id → motive opened (.reference id))
    (entry : ∀ opened id u, id ∉ opened → Fields.get? table id = some u →
      motive (id :: opened) u → motive opened (.reference id))
    (opened : List String) (v : Json) : motive opened v := by
  refine (calls_wellFounded table).induction (C := fun x => motive x.1 x.2) (opened, v) ?_
  rintro ⟨opened, v⟩ ih
  cases v with
  | array items => exact array opened items fun v hv => ih (opened, v) (.item hv)
  | object fs =>
      cases hr : referenceIn? fs with
      | none => exact object opened fs hr fun p hp => ih (opened, p.2) (.member hr hp)
      | some id =>
          rw [referenceIn?_eq_some_iff] at hr
          subst hr
          by_cases ho : id ∈ opened
          · exact stays opened id (.inl ho)
          · cases hu : Fields.get? table id with
            | none => exact stays opened id (.inr hu)
            | some u => exact entry opened id u ho hu (ih (id :: opened, u) (.entry ho hu))
  | _ => exact scalar opened _ rfl rfl

/-- The recursion has one solution. -/
theorem Expands.unique {f g : List String → Json → Json} (hf : Expands table f)
    (hg : Expands table g) : f = g := by
  funext opened v
  induction opened, v using calls_induction table with
  | scalar opened v ho ha => rw [hf.scalar opened v ho ha, hg.scalar opened v ho ha]
  | array opened items ih =>
      rw [hf.array, hg.array]
      exact congrArg Json.array (List.map_congr_left ih)
  | object opened fs hr ih =>
      rw [hf.object opened fs hr, hg.object opened fs hr]
      exact congrArg Json.object (List.map_congr_left fun p hp => congrArg (Prod.mk p.1) (ih p hp))
  | stays opened id h => rw [hf.stays opened id h, hg.stays opened id h]
  | entry opened id u ho hu ih => rw [hf.entry opened id u ho hu, hg.entry opened id u ho hu, ih]

/-! ### Expansion solves it -/

/-- The expansion of a value below opened identities. -/
def expandBelow (table : ObjectTable) (opened : List String) (v : Json) : Json :=
  expandWithin table (table.length + 1) opened v

theorem expand_eq_expandBelow (table : ObjectTable) (v : Json) :
    v.expand table = expandBelow table [] v := rfl

theorem expands_expandBelow (table : ObjectTable) : Expands table (expandBelow table) where
  scalar opened v ho ha := by
    cases v with
    | object fs => cases ho
    | array items => cases ha
    | _ => rfl
  array opened items := by
    rw [expandBelow, expandWithin, replaceReferences, replaceInItems_eq_map]
    rfl
  object opened fs hr := by
    rw [expandBelow, expandWithin, replaceReferences]
    simp only [hr, replaceInFields_eq_map]
    rfl
  stays opened id h := by
    rw [expandBelow, expandWithin, reference, replaceReferences]
    rcases h with ho | hn
    · simp [referenceIn?, ho]
    · simp [referenceIn?, hn]
  entry opened id u ho hu := by
    have hless := unseen_cons_lt ho (Fields.mem_keys_of_mem (Fields.mem_of_get? hu))
    have hall := unseen_length_lt table opened
    have hsame : expandWithin table table.length (id :: opened) u =
        expandWithin table (table.length + 1) (id :: opened) u :=
      expandWithin_congr (fun _ _ => rfl) (by omega) (by omega)
    rw [expandBelow, expandBelow, expandWithin, reference, replaceReferences]
    simp [referenceIn?, ho, hu, hsame]

theorem expand_of_expands {f : List String → Json → Json} (h : Expands table f) (v : Json) :
    f [] v = v.expand table := by
  rw [h.unique (expands_expandBelow table), expand_eq_expandBelow]

/-- The parts of what is no reference are expanded one by one. -/
theorem child?_expandBelow (plain : v.referenceId? = none) (place : Place) :
    (expandBelow table opened v).child? place = (v.child? place).map (expandBelow table opened) := by
  have solves := expands_expandBelow table
  cases v with
  | object fs =>
      rw [solves.object opened fs plain]
      cases place with
      | key name => exact Fields.get?_mapValues _ fs name
      | item i => rfl
  | array items =>
      rw [solves.array]
      cases place with
      | key name => rfl
      | item i => exact List.getElem?_map
  | _ => rfl

/-! ### Positions of an expansion -/

/-- At a position of the expansion of the first value, below opened identities, stands the expansion
of the second value, below the identities that are opened around it. -/
inductive Unfolds (table : ObjectTable) :
    List String → Json → List Place → List String → Json → Prop
  | here (opened : List String) (v : Json) : Unfolds table opened v [] opened v
  | entry {opened around : List String} {id : String} {u w : Json} {places : List Place}
    (fresh : id ∉ opened) (found : Fields.get? table id = some u)
    (h : Unfolds table (id :: opened) u places around w) :
    Unfolds table opened (.reference id) places around w
  | inside {opened around : List String} {v u w : Json} {place : Place} {places : List Place}
    (plain : v.referenceId? = none) (part : v.child? place = some u)
    (h : Unfolds table opened u places around w) :
    Unfolds table opened v (place :: places) around w

variable {places : List Place}

/-- The relation tells the truth about positions. -/
theorem Unfolds.at? (h : Unfolds table opened v places around w) :
    (expandBelow table opened v).at? places = some (expandBelow table around w) := by
  induction h with
  | here opened v => rfl
  | entry fresh found h ih => rwa [(expands_expandBelow table).entry _ _ _ fresh found]
  | inside plain part h ih =>
      rw [Json.at?, child?_expandBelow plain, part, Option.map_some, Option.bind_some]
      exact ih

/-- A way into a reference ends on its text. -/
theorem at?_reference (h : (Json.reference id).at? places = some w) :
    (places = [] ∧ w = .reference id) ∨ w = .string id := by
  cases places with
  | nil => exact .inl ⟨rfl, (Option.some.inj h).symm⟩
  | cons place places =>
      obtain ⟨u, hu, h⟩ := Option.bind_eq_some_iff.mp h
      obtain rfl : u = .string id := by
        cases place with
        | item i => cases hu
        | key name =>
            rw [reference, child?, Fields.get?_cons] at hu
            split at hu
            · exact (Option.some.inj hu).symm
            · cases hu
      cases places with
      | nil => exact .inr (Option.some.inj h).symm
      | cons next places => cases h

/-- A reference in an expansion stands where the recursion meets a reference that stays, or a value
that is no reference. -/
theorem exists_unfolds (h : (expandBelow table opened v).at? places = some (.reference id)) :
    (∃ around, Unfolds table opened v places around (.reference id) ∧ Stays table around id) ∨
    ∃ around u, Unfolds table opened v places around u ∧ u.referenceId? = none ∧
      expandBelow table around u = .reference id := by
  have solves := expands_expandBelow table
  have plain : ∀ {opened v places}, v.referenceId? = none →
      (∀ place u rest, places = place :: rest → v.child? place = some u →
        (expandBelow table opened u).at? rest = some (.reference id) →
        (∃ around, Unfolds table opened u rest around (.reference id) ∧ Stays table around id) ∨
        ∃ around w, Unfolds table opened u rest around w ∧ w.referenceId? = none ∧
          expandBelow table around w = .reference id) →
      (expandBelow table opened v).at? places = some (.reference id) →
      (∃ around, Unfolds table opened v places around (.reference id) ∧ Stays table around id) ∨
      ∃ around u, Unfolds table opened v places around u ∧ u.referenceId? = none ∧
        expandBelow table around u = .reference id := by
    intro opened v places hr ih h
    cases places with
    | nil => exact .inr ⟨opened, v, .here opened v, hr, Option.some.inj h⟩
    | cons place rest =>
        rw [Json.at?, child?_expandBelow hr] at h
        obtain ⟨x, hx, h⟩ := Option.bind_eq_some_iff.mp h
        obtain ⟨u, hu, rfl⟩ := Option.map_eq_some_iff.mp hx
        rcases ih place u rest rfl hu h with ⟨around, hw, hs⟩ | ⟨around, w, hw, hp, he⟩
        · exact .inl ⟨around, .inside hr hu hw, hs⟩
        · exact .inr ⟨around, w, .inside hr hu hw, hp, he⟩
  induction opened, v using calls_induction table generalizing places with
  | scalar opened v ho ha =>
      cases v with
      | object fs => cases ho
      | array items => cases ha
      | _ => exact plain rfl (fun place u rest _ hu => by cases place <;> cases hu) h
  | array opened items ih =>
      refine plain rfl (fun place u rest _ hu hrest => ?_) h
      cases place with
      | key name => cases hu
      | item i => exact ih u (List.mem_of_getElem? hu) hrest
  | object opened fs hr ih =>
      refine plain hr (fun place u rest _ hu hrest => ?_) h
      cases place with
      | item i => cases hu
      | key name => exact ih (name, u) (Fields.mem_of_get? hu) hrest
  | stays opened other hs =>
      rw [solves.stays opened other hs] at h
      rcases at?_reference h with ⟨rfl, he⟩ | he
      · obtain ⟨⟩ := he
        exact .inl ⟨opened, .here opened _, hs⟩
      · cases he
  | entry opened other u ho hu ih =>
      rw [solves.entry opened other u ho hu] at h
      rcases ih h with ⟨around, hw, hs⟩ | ⟨around, w, hw, hp, he⟩
      · exact .inl ⟨around, .entry ho hu hw, hs⟩
      · exact .inr ⟨around, w, .entry ho hu hw, hp, he⟩

/-- A text in the place of a reference is an object of the table. -/
theorem exists_text (h : expandBelow table opened v = .string id) :
    ∃ inner, Unfolds table opened v [] inner (.string id) := by
  have solves := expands_expandBelow table
  induction opened, v using calls_induction table with
  | scalar opened v ho ha =>
      rw [solves.scalar opened v ho ha] at h
      exact ⟨opened, h ▸ .here opened v⟩
  | array opened items ih =>
      rw [solves.array] at h
      cases h
  | object opened fs hr ih =>
      rw [solves.object opened fs hr] at h
      cases h
  | stays opened other hs =>
      rw [solves.stays opened other hs] at h
      cases h
  | entry opened other u ho hu ih =>
      rw [solves.entry opened other u ho hu] at h
      obtain ⟨inner, hu'⟩ := ih h
      exact ⟨inner, .entry ho hu hu'⟩

/-! ### References in an expansion -/

/-- At a position or above it a reference to the identity is opened. -/
def Encloses (table : ObjectTable) (v : Json) (id : String) (places : List Place) : Prop :=
  ∃ above opened, above <+: places ∧ Unfolds table [] v above opened (.reference id) ∧
    ¬ Stays table opened id

/-- At a position stands an object whose one member has the key of references and is a reference
that leads to a text of the table. -/
def Spells (table : ObjectTable) (v : Json) (id : String) (places : List Place) : Prop :=
  ∃ around w inner, Unfolds table [] v places around (.object [(referenceKey, w)]) ∧
    w.referenceId?.isSome ∧ Unfolds table around w [] inner (.string id)

/-- What is opened around a position encloses it. -/
theorem Unfolds.opened_above (h : Unfolds table opened v places around w) (hid : id ∈ around) :
    id ∈ opened ∨ ∃ above outer, above <+: places ∧
      Unfolds table opened v above outer (.reference id) ∧ ¬ Stays table outer id := by
  induction h with
  | here opened v => exact .inl hid
  | @entry opened around other u w places fresh found h ih =>
      rcases ih hid with ho | ⟨above, outer, habove, hu, hs⟩
      · rcases List.mem_cons.mp ho with rfl | ho
        · refine .inr ⟨[], opened, List.nil_prefix, .here opened _, ?_⟩
          rintro (hm | hn)
          · exact fresh hm
          · rw [found] at hn
            cases hn
        · exact .inl ho
      · exact .inr ⟨above, outer, habove, .entry fresh found hu, hs⟩
  | @inside opened around v u w place places plain part h ih =>
      refine (ih hid).imp_right ?_
      rintro ⟨above, outer, habove, hu, hs⟩
      exact ⟨place :: above, outer, List.cons_prefix_cons.mpr ⟨rfl, habove⟩,
        .inside plain part hu, hs⟩

/-- What is no reference and comes to look like one has a reference to a text for its one member. -/
theorem exists_member_of_expandBelow (plain : u.referenceId? = none)
    (h : expandBelow table around u = .reference id) :
    ∃ w, u = .object [(referenceKey, w)] ∧ w.referenceId?.isSome ∧
      expandBelow table around w = .string id := by
  have solves := expands_expandBelow table
  cases u with
  | object fs =>
      rw [solves.object around fs plain, reference, Json.object.injEq] at h
      obtain ⟨⟨key, w⟩, rest, rfl, hp, hrest⟩ := List.map_eq_cons_iff.mp h
      obtain rfl := List.map_eq_nil_iff.mp hrest
      obtain ⟨rfl, hw⟩ := Prod.mk.inj hp
      refine ⟨w, rfl, ?_, hw⟩
      cases hr : w.referenceId? with
      | some other => rfl
      | none =>
          cases w with
          | string s =>
              rw [referenceId?, referenceIn?_eq_some_iff.mpr rfl] at plain
              cases plain
          | object gs =>
              rw [solves.object around gs hr] at hw
              cases hw
          | array items =>
              rw [solves.array] at hw
              cases hw
          | _ => cases hw
  | array items =>
      rw [solves.array] at h
      cases h
  | _ => cases h

theorem spells_of_plain (h : Unfolds table [] v places around u) (plain : u.referenceId? = none)
    (he : expandBelow table around u = .reference id) : Spells table v id places := by
  obtain ⟨w, rfl, hw, htext⟩ := exists_member_of_expandBelow plain he
  obtain ⟨inner, hinner⟩ := exists_text htext
  exact ⟨around, w, inner, h, hw, hinner⟩

theorem reference_cases (h : (v.expand table).at? places = some (.reference id)) :
    Fields.get? table id = none ∨ Encloses table v id places ∨ Spells table v id places := by
  rcases exists_unfolds h with ⟨around, hu, hid | hn⟩ | ⟨around, u, hu, plain, he⟩
  · exact .inr (.inl ((hu.opened_above hid).resolve_left List.not_mem_nil))
  · exact .inl hn
  · exact .inr (.inr (spells_of_plain hu plain he))

/-! ### What positions lead to -/

theorem references_of_mem_items {items : List Json} (h : v ∈ items) :
    v.references ⊆ (Json.array items).references := by
  intro id hid
  rw [references_array, mem_referencesInItems]
  exact ⟨v, h, hid⟩

theorem references_of_mem_fields {p : String × Json} (plain : referenceIn? fs = none)
    (h : p ∈ fs) : p.2.references ⊆ (Json.object fs).references := by
  intro id hid
  rw [references_object plain, mem_referencesInFields]
  exact ⟨p, h, hid⟩

theorem references_of_child? {place : Place} (plain : v.referenceId? = none)
    (h : v.child? place = some u) : u.references ⊆ v.references := by
  cases v with
  | object fs =>
      cases place with
      | item i => cases h
      | key name => exact references_of_mem_fields plain (Fields.mem_of_get? h)
  | array items =>
      cases place with
      | key name => cases h
      | item i => exact references_of_mem_items (List.mem_of_getElem? h)
  | _ => cases h

theorem mem_references_reference (id : String) : id ∈ (reference id).references :=
  List.mem_singleton.mpr rfl

theorem Unfolds.leads (h : Unfolds table opened v places around w) (hl : Leads table w id) :
    Leads table v id := by
  induction h with
  | here opened v => exact hl
  | entry fresh found h ih => exact (ih hl).descend (mem_references_reference _) found
  | inside plain part h ih => exact (ih hl).of_references (references_of_child? plain part)

/-- What stands below an opened identity, the object of the identity leads to. -/
theorem Unfolds.leads_back (h : Unfolds table opened v places around w) (hid : id ∈ around) :
    id ∈ opened ∨ Leads table v id ∧
      ∃ u, Fields.get? table id = some u ∧ ∀ other, Leads table w other → Leads table u other := by
  induction h with
  | here opened v => exact .inl hid
  | @entry opened around first u w places fresh found h ih =>
      rcases ih hid with ho | ⟨hl, x, hx, hw⟩
      · rcases List.mem_cons.mp ho with rfl | ho
        · exact .inr ⟨.here (mem_references_reference id), u, found, fun other ho => h.leads ho⟩
        · exact .inl ho
      · exact .inr ⟨hl.descend (mem_references_reference first) found, x, hx, hw⟩
  | inside plain part h ih =>
      refine (ih hid).imp_right ?_
      rintro ⟨hl, hrest⟩
      exact ⟨hl.of_references (references_of_child? plain part), hrest⟩

/-- What comes in the place of a value is the value itself, or an object that the value leads to. -/
theorem Unfolds.self_or_entry (h : Unfolds table opened v [] around w) :
    v = w ∨ ∃ id, Leads table v id ∧ Fields.get? table id = some w := by
  generalize hp : ([] : List Place) = places at h
  induction h with
  | here opened v => exact .inl rfl
  | @entry opened around id u w places fresh found _ ih =>
      have hid := mem_references_reference id
      rcases ih hp with rfl | ⟨other, hl, hw⟩
      · exact .inr ⟨id, .here hid, found⟩
      · exact .inr ⟨other, hl.descend hid found, hw⟩
  | inside => cases hp

/-! ### Values that lead back to nothing -/

/-- No identity that the value leads to has an object that leads back to it. -/
def Acyclic (table : ObjectTable) (v : Json) : Prop :=
  ∀ id u, Leads table v id → Fields.get? table id = some u → ¬ Leads table u id

/-- The object of an identity that a value leads to, below what was opened around the value. -/
theorem apart_entry (acyclic : Acyclic table (.reference id))
    (apart : ∀ other ∈ opened, ¬ Leads table (.reference id) other)
    (hu : Fields.get? table id = some u) :
    Acyclic table u ∧ ∀ other ∈ id :: opened, ¬ Leads table u other := by
  have hid := mem_references_reference id
  constructor
  · intro other x hl hx
    exact acyclic other x (hl.descend hid hu) hx
  · intro other ho hl
    rcases List.mem_cons.mp ho with rfl | ho
    · exact acyclic other u (.here hid) hu hl
    · exact apart other ho (hl.descend hid hu)

theorem apart_part (acyclic : Acyclic table v) (apart : ∀ other ∈ opened, ¬ Leads table v other)
    (hsub : u.references ⊆ v.references) :
    Acyclic table u ∧ ∀ other ∈ opened, ¬ Leads table u other :=
  ⟨fun other x hl hx => acyclic other x (hl.of_references hsub) hx,
    fun other ho hl => apart other ho (hl.of_references hsub)⟩

/-- What is opened around a value that leads to none of it does not matter. -/
theorem expandBelow_of_apart {opened' : List String} (acyclic : Acyclic table v)
    (apart : ∀ other ∈ opened, ¬ Leads table v other)
    (apart' : ∀ other ∈ opened', ¬ Leads table v other) :
    expandBelow table opened v = expandBelow table opened' v := by
  have solves := expands_expandBelow table
  induction opened, v using calls_induction table generalizing opened' with
  | scalar opened v ho ha => rw [solves.scalar opened v ho ha, solves.scalar opened' v ho ha]
  | array opened items ih =>
      rw [solves.array, solves.array]
      apply congrArg Json.array
      apply List.map_congr_left
      intro v hv
      have hsub := references_of_mem_items hv
      obtain ⟨hacyclic, hapart⟩ := apart_part acyclic apart hsub
      exact ih v hv hacyclic hapart (apart_part acyclic apart' hsub).2
  | object opened fs hr ih =>
      rw [solves.object opened fs hr, solves.object opened' fs hr]
      apply congrArg Json.object
      apply List.map_congr_left
      intro p hp
      have hsub := references_of_mem_fields hr hp
      obtain ⟨hacyclic, hapart⟩ := apart_part acyclic apart hsub
      exact congrArg (Prod.mk p.1) (ih p hp hacyclic hapart (apart_part acyclic apart' hsub).2)
  | stays opened id h =>
      have hnone : Fields.get? table id = none :=
        h.resolve_left fun ho => apart id ho (.here (mem_references_reference id))
      rw [solves.stays opened id h, solves.stays opened' id (.inr hnone)]
  | entry opened id u ho hu ih =>
      have ho' : id ∉ opened' := fun hm => apart' id hm (.here (mem_references_reference id))
      obtain ⟨hacyclic, hapart⟩ := apart_entry acyclic apart hu
      rw [solves.entry opened id u ho hu, solves.entry opened' id u ho' hu]
      exact ih hacyclic hapart (apart_entry acyclic apart' hu).2

/-- Where what the members of an object lead to is there and is no text, its expansion is no
reference. -/
theorem referenceIn?_expanded (hr : referenceIn? fs = none)
    (found : ∀ p ∈ fs, ∀ id, Leads table p.2 id →
      ∃ u, Fields.get? table id = some u ∧ u.asString? = none) :
    referenceIn? (fs.map fun p => (p.1, expandBelow table opened p.2)) = none := by
  cases he : referenceIn? (fs.map fun p => (p.1, expandBelow table opened p.2)) with
  | none => rfl
  | some id =>
      rw [referenceIn?_eq_some_iff] at he
      have hspelled : expandBelow table opened (.object fs) = .reference id := by
        rw [(expands_expandBelow table).object opened fs hr, he, reference]
      obtain ⟨w, hfs, hw, htext⟩ := exists_member_of_expandBelow (u := .object fs) hr hspelled
      obtain rfl := Json.object.inj hfs
      obtain ⟨inner, hunfolds⟩ := exists_text htext
      rcases hunfolds.self_or_entry with rfl | ⟨other, hl, ht⟩
      · cases hw
      · obtain ⟨u, hu, htextless⟩ := found _ List.mem_cons_self other hl
        rw [ht] at hu
        obtain rfl := Option.some.inj hu
        cases htextless

/-- Where all that a value leads to is there, is no text, and leads back to nothing, no reference is
left. -/
theorem references_expandBelow (acyclic : Acyclic table v)
    (apart : ∀ other ∈ opened, ¬ Leads table v other)
    (found : ∀ id, Leads table v id → ∃ u, Fields.get? table id = some u ∧ u.asString? = none) :
    (expandBelow table opened v).references = [] := by
  have solves := expands_expandBelow table
  induction opened, v using calls_induction table with
  | scalar opened v ho ha =>
      rw [solves.scalar opened v ho ha]
      cases v with
      | object fs => cases ho
      | array items => cases ha
      | _ => rfl
  | array opened items ih =>
      rw [solves.array, references_array, List.eq_nil_iff_forall_not_mem]
      intro id hid
      rw [mem_referencesInItems] at hid
      obtain ⟨w, hw, hid⟩ := hid
      obtain ⟨v, hv, rfl⟩ := List.mem_map.mp hw
      have hsub := references_of_mem_items hv
      obtain ⟨hacyclic, hapart⟩ := apart_part acyclic apart hsub
      rw [ih v hv hacyclic hapart fun id hl => found id (hl.of_references hsub)] at hid
      exact List.not_mem_nil hid
  | object opened fs hr ih =>
      have hplain : referenceIn? (fs.map fun p => (p.1, expandBelow table opened p.2)) = none :=
        referenceIn?_expanded hr fun p hp id hl =>
          found id (hl.of_references (references_of_mem_fields hr hp))
      rw [solves.object opened fs hr, references_object hplain, List.eq_nil_iff_forall_not_mem]
      intro id hid
      rw [mem_referencesInFields] at hid
      obtain ⟨q, hq, hid⟩ := hid
      obtain ⟨p, hp, rfl⟩ := List.mem_map.mp hq
      have hsub := references_of_mem_fields hr hp
      obtain ⟨hacyclic, hapart⟩ := apart_part acyclic apart hsub
      rw [ih p hp hacyclic hapart fun id hl => found id (hl.of_references hsub)] at hid
      exact List.not_mem_nil hid
  | stays opened id h =>
      have hl : Leads table (.reference id) id := .here (mem_references_reference id)
      rcases h with ho | hn
      · exact absurd hl (apart id ho)
      · obtain ⟨u, hu, _⟩ := found id hl
        rw [hn] at hu
        cases hu
  | entry opened id u ho hu ih =>
      have hid := mem_references_reference id
      obtain ⟨hacyclic, hapart⟩ := apart_entry acyclic apart hu
      rw [solves.entry opened id u ho hu]
      exact ih hacyclic hapart fun other hl => found other (hl.descend hid hu)

/-- Expansion ends on every table: it is what the recursion comes to, each call of which leads to
fewer identities or to a smaller value. A reference that is left in it leads out of the table, or
leads back to an identity whose expansion encloses it, or is spelled by a text of the table. So from
a value that leads out of the table nowhere, and back to nothing, no reference is left but those
that texts spell, and none at all if it leads to no text. -/
theorem expand_justified (table : ObjectTable) (v : Json) :
    WellFounded (Calls table) ∧ (∃ f, Expands table f) ∧
    (∀ f, Expands table f → f [] v = v.expand table) ∧
    (∀ places id, (v.expand table).at? places = some (.reference id) →
      Fields.get? table id = none ∨ Encloses table v id places ∨ Spells table v id places) ∧
    ((∀ id, Leads table v id → Fields.contains table id = true) → Acyclic table v →
      (∀ places id, (v.expand table).at? places = some (.reference id) →
        Spells table v id places) ∧
      ((∀ id text, Leads table v id → Fields.get? table id ≠ some (.string text)) →
        (v.expand table).references = [])) := by
  refine ⟨calls_wellFounded table, ⟨_, expands_expandBelow table⟩,
    fun f hf => expand_of_expands hf v, fun places id => reference_cases, ?_⟩
  intro resolves acyclic
  constructor
  · intro places id h
    rcases exists_unfolds h with ⟨around, hu, hs⟩ | ⟨around, u, hu, plain, he⟩
    · exfalso
      have hl : Leads table v id := hu.leads (.here (mem_references_reference id))
      rcases hs with hid | hn
      · obtain ⟨_, x, hx, hback⟩ := (hu.leads_back hid).resolve_left List.not_mem_nil
        exact acyclic id x hl hx (hback id (.here (mem_references_reference id)))
      · have hthere := resolves id hl
        rw [Fields.contains, hn] at hthere
        cases hthere
    · exact spells_of_plain hu plain he
  · intro texts
    refine references_expandBelow acyclic (fun _ ho => absurd ho List.not_mem_nil) fun id hl => ?_
    obtain ⟨u, hu⟩ := Option.isSome_iff_exists.mp (resolves id hl)
    refine ⟨u, hu, ?_⟩
    cases u with
    | string text => exact absurd hu (texts id text hl)
    | _ => rfl

/-- A user with a friend. -/
def friends : ObjectTable :=
  [("F:2", .object [("name", .string "x")]), ("U:1", .object [("friend", .reference "F:2")])]

theorem expand_justified_friends :
    (∀ id, Leads friends (.reference "U:1") id → Fields.contains friends id = true) ∧
    Acyclic friends (.reference "U:1") ∧
    ((Json.reference "U:1").expand friends).references = [] := by
  have among : ∀ id, Leads friends (.reference "U:1") id → id ∈ ["U:1", "F:2"] :=
    fun id h => h.mem_of_closed (by decide) (by decide)
  have resolves : ∀ id, Leads friends (.reference "U:1") id →
      Fields.contains friends id = true := by
    intro id h
    have held : ∀ id ∈ ["U:1", "F:2"], Fields.contains friends id = true := by decide
    exact held id (among id h)
  have acyclic : Acyclic friends (.reference "U:1") := by
    intro id u h hu hback
    rcases List.mem_cons.mp (among id h) with rfl | h
    · obtain rfl := Option.some.inj hu
      have hfriend : "U:1" ∈ ["F:2"] := hback.mem_of_closed (by decide) (by decide)
      exact absurd hfriend (by decide)
    · obtain rfl := List.mem_singleton.mp h
      obtain rfl := Option.some.inj hu
      exact not_leads_of_references rfl hback
  refine ⟨resolves, acyclic, ((expand_justified friends _).2.2.2.2 resolves acyclic).2 ?_⟩
  intro id text h hu
  rcases List.mem_cons.mp (among id h) with rfl | h
  · cases hu
  · obtain rfl := List.mem_singleton.mp h
    cases hu

/-- On a cycle the reference back to the enclosing object stays. -/
example : (Json.reference "U:1").expand [("U:1", .object [("self", .reference "U:1")])] =
    .object [("self", .reference "U:1")] := by rfl

/-- A table in which an identity has a text. -/
def texts : ObjectTable := [("A", .string "B"), ("B", .object [("x", .int 1)])]

/-- An object whose member under the key of references is a reference itself. -/
def spelling : Json := .object [(referenceKey, .reference "A")]

/-- The text takes the place of the inner reference, and the outer object comes to name an identity
that the table has, and that was never opened. -/
theorem text_spells_reference :
    (∀ id, Leads texts spelling id → Fields.contains texts id = true) ∧ Acyclic texts spelling ∧
    (spelling.expand texts).at? [] = some (.reference "B") ∧
    Fields.contains texts "B" = true ∧ ¬ Encloses texts spelling "B" [] := by
  have among : ∀ id, Leads texts spelling id → id ∈ ["A"] :=
    fun id h => h.mem_of_closed (by decide) (by decide)
  refine ⟨?_, ?_, rfl, rfl, ?_⟩
  · intro id h
    obtain rfl := List.mem_singleton.mp (among id h)
    rfl
  · intro id u h hu
    obtain rfl := List.mem_singleton.mp (among id h)
    obtain rfl := Option.some.inj hu
    exact not_leads_of_references rfl
  · rintro ⟨above, opened, _, h, _⟩
    have hb := among "B" (h.leads (.here (mem_references_reference "B")))
    exact absurd hb (by decide)

end LazyGraph.Json
