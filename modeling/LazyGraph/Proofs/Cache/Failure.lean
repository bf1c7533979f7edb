import LazyGraph.Proofs.Cache.Step

/-!
Failing operations. Each of them checks all that it asks for before it changes anything, but for
one: a write looks at the parent of its path after the identified objects of its value were merged
into the table, which keeps them when the parent is not there.
-/
namespace LazyGraph.Cache

/-! ### Failing writes -/

/-- What a write comes to that fails: its path breaks off, or the parent of its slot is not there
once the value is normalized. -/
theorem write_failed {c d : Cache} {now : Nat} {path : CachePath} {value : Json}
    (h : c.write now path value = (d, none)) :
    (c.store.slot? path = none ∧ d = c) ∨ ∃ slot, c.store.slot? path = some slot ∧
      d = { c with store := mergedStore c.options c.store value } := by
  by_cases hr : path.rest = []
  · obtain ⟨d', notice, hw, _⟩ := c.write_root now value hr
    rw [hw] at h
    cases h
  · cases hs : c.store.slot? path with
    | none =>
        simp only [write, hs] at h
        cases h
        exact .inl ⟨rfl, rfl⟩
    | some slot =>
        refine .inr ⟨slot, rfl, ?_⟩
        rcases c.write_slot now value hr hs with ⟨_, hw⟩ | ⟨t, d', notice, _, _, hw, _⟩
        · rw [hw] at h
          cases h
          rfl
        · rw [hw] at h
          cases h

/-! ### All failing operations -/

theorem ofResult_failed {c : Cache} {r : Except ValidationError (Cache × Notice)}
    (h : (Outcome.ofResult c r).succeeded = false) :
    Outcome.ofResult c r = { succeeded := false, cache := c } := by
  cases r with
  | ok r => cases h
  | error e => rfl

theorem seed_failed {c : Cache} {now : Nat} {path : CachePath} {value : Json}
    (h : (c.seed now path value).1 = false) : c.seed now path value = (false, c) := by
  revert h
  simp only [seed]
  repeat' split
  all_goals intro h
  all_goals first | rfl | cases h

theorem evict_failed {c : Cache} {path : CachePath} (h : (c.evict path).1 = false) :
    c.evict path = (false, c) := by
  revert h
  simp only [evict]
  repeat' split
  all_goals intro h
  all_goals first | rfl | cases h

/-- A failing operation changes nothing, unless it is a write with a slot: that one has merged the
identified objects of its value. -/
theorem act_failed {c : Cache} {now : Nat} {e : Event} (h : (c.act now e).succeeded = false) :
    (c.act now e = { succeeded := false, cache := c } ∧
      ∀ path value, e = .write path value → c.store.slot? path = none) ∨
    ∃ path value slot, e = .write path value ∧ c.store.slot? path = some slot ∧
      c.act now e =
        { succeeded := false, cache := { c with store := mergedStore c.options c.store value } } := by
  cases e with
  | set payload skipNotify => exact .inl ⟨ofResult_failed h, fun _ _ e => by cases e⟩
  | restore snapshot => exact .inl ⟨ofResult_failed h, fun _ _ e => by cases e⟩
  | write path value =>
      generalize hw : c.write now path value = w at h
      obtain ⟨c', _ | notice⟩ := w
      · simp only [act, hw]
        rcases write_failed hw with ⟨hs, rfl⟩ | ⟨slot, hs, rfl⟩
        · refine .inl ⟨rfl, fun path value e => ?_⟩
          cases e
          exact hs
        · exact .inr ⟨path, value, slot, rfl, hs, rfl⟩
      · simp only [act, hw] at h
        cases h
  | seed path value =>
      exact .inl ⟨by simp only [act, seed_failed h], fun _ _ e => by cases e⟩
  | evict path =>
      refine .inl ⟨?_, fun _ _ e => by cases e⟩
      cases hp : CachePath.parse path with
      | error e => simp only [act, hp]
      | ok p =>
          simp only [act, hp] at h
          simp only [act, hp, evict_failed h]
  | sweep => cases h
  | clear => cases h
  | get path includeExpired => cases h
  | read path => cases h
  | subscribe paths => cases h
  | unsubscribe id => cases h

/-- A failing operation tells nobody, and leaves the containers, the placeholders and what the
subscriptions reach as they were. It leaves the identified objects as they were exactly if it is
not a write with a slot whose value changes the table as it is normalized. -/
theorem failure_leaves_no_trace_iff (c : Cache) (now : Nat) (e : Event)
    (h : (c.act now e).succeeded = false) :
    ((c.act now e).notice = none ∧
      (c.act now e).cache.store.containers = c.store.containers ∧
      (c.act now e).cache.store.placeholders = c.store.placeholders ∧
      (c.act now e).cache.registry = c.registry) ∧
    ((c.act now e).cache.store.objects = c.store.objects ↔
      ∀ path value slot, e = .write path value → c.store.slot? path = some slot →
        (normalized c.options c.store.objects [] value).2.table = c.store.objects) := by
  rcases act_failed h with ⟨ha, hw⟩ | ⟨path, value, slot, rfl, hs, ha⟩
  · rw [ha]
    refine ⟨⟨rfl, rfl, rfl, rfl⟩, fun _ path value slot he hs => ?_, fun _ => rfl⟩
    rw [hw path value he] at hs
    cases hs
  · rw [ha]
    refine ⟨⟨rfl, rfl, rfl, rfl⟩, fun ho path value slot he _ => ?_, fun ho => ?_⟩
    · cases he
      exact ho
    · exact ho path value slot rfl hs

/-- Two objects, one of them with a placeholder, beside a string, and a subscription to them. -/
def furnished : Cache :=
  let friend : Json := .object [("__typename", .string "F"), ("id", .int 2), ("name", .string "b")]
  let user : Json := .object [("__typename", .string "U"), ("id", .int 1), ("name", .string "a"),
    ("friend", friend)]
  (new {}).after 0
    [.set (.object [("query", .object [("user", user), ("note", .string "x")])]) false,
      .seed { root := .query, field := "user", rest := ["pet"] } (.object []),
      .subscribe (some [{ root := .query, field := "user" }])]

/-- A write below the string fails, though its slot is found. It leaves no trace if its object says
what the table has, and it leaves an object that the table has not, but nothing else. -/
theorem failure_leaves_no_trace_iff_write :
    let belowNote : CachePath := { root := .query, field := "note", rest := ["friend"] }
    let known : Json := .object [("__typename", .string "U"), ("id", .int 1), ("name", .string "a")]
    let unknown : Json := .object [("__typename", .string "P"), ("id", .int 3)]
    let kept := furnished.act 0 (.write belowNote known)
    let left := furnished.act 0 (.write belowNote unknown)
    (Reachable {} 0 furnished ∧ furnished.store.containers.length = 2 ∧
      furnished.objectCount = 2 ∧
      furnished.store.placeholders = [{ owner := .object "U:1", path := ["pet"] }] ∧
      furnished.registry.entries.map (·.reached) = [["U:1", "F:2"]]) ∧
    (furnished.store.slot? belowNote).isSome = true ∧
    (kept.succeeded = false ∧ kept.cache.store.objects = furnished.store.objects) ∧
    (left.succeeded = false ∧ left.cache.store.objects ≠ furnished.store.objects ∧
      left.cache.store.placeholders = furnished.store.placeholders ∧
      left.cache.registry = furnished.registry ∧ left.notice = none) := by
  intro belowNote known unknown kept left
  have hkept : kept.succeeded = false := by decide +kernel
  have hleft : left.succeeded = false := by decide +kernel
  obtain ⟨_, hobjects⟩ := failure_leaves_no_trace_iff furnished 0 (.write belowNote known) hkept
  obtain ⟨⟨hnotice, _, hmarks, hregistry⟩, hother⟩ :=
    failure_leaves_no_trace_iff furnished 0 (.write belowNote unknown) hleft
  obtain ⟨slot, hslot⟩ : ∃ slot, furnished.store.slot? belowNote = some slot := ⟨_, rfl⟩
  refine ⟨⟨Reachable.after (.new 0) _, by decide +kernel, by decide +kernel, by decide +kernel,
    by decide +kernel⟩, by decide +kernel, ⟨hkept, hobjects.mpr ?_⟩,
    hleft, fun hsame => ?_, hmarks, hregistry, hnotice⟩
  · intro path value slot he _
    cases he
    rfl
  · have htable := hother.mp hsame belowNote unknown slot rfl hslot
    have hlength : (normalized furnished.options furnished.store.objects [] unknown).2.table.length =
        furnished.store.objects.length + 1 := by decide +kernel
    rw [htable] at hlength
    omega

/-- A root field that holds a string. -/
def stringField : Cache :=
  ((new {}).act 0 (.set (.object [("query", .object [("user", .string "x")])]) false)).cache

/-- A write below a string fails, and leaves the identified object of its value behind. -/
theorem write_below_string_leaves_object :
    Reachable {} 0 stringField ∧
    (stringField.act 0 (.write { root := .query, field := "user", rest := ["friend"] }
      (.object [("__typename", .string "A"), ("id", .int 1)]))).succeeded = false ∧
    stringField.objectCount = 0 ∧
    (stringField.act 0 (.write { root := .query, field := "user", rest := ["friend"] }
      (.object [("__typename", .string "A"), ("id", .int 1)]))).cache.objectCount = 1 := by
  refine ⟨.act (.new 0) (Nat.le_refl 0) _, ?_, ?_, ?_⟩
  · decide
  · decide
  · decide

end LazyGraph.Cache
