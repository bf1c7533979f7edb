import LazyGraph.Proofs.Cache.Event
import LazyGraph.Proofs.Cache.Snapshot

/-!
What an operation can do to the contents of a cache. Every invariant of runs follows from one case
for each of these ways.
-/
namespace LazyGraph.Cache

/-- The contents after the root fields of a payload were stored. -/
def setStore (options : Options) (now : Nat) (s : Store)
    (fields : List (Operation × String × Json)) : Store :=
  let (store, touched) := storeFields options now s fields
  ((store.dropReplacedPlaceholders touched).sweep now).enforceCapacity options.maxEntries

/-- The contents after a value was normalized into the table of objects. -/
def mergedStore (options : Options) (s : Store) (value : Json) : Store :=
  { s with objects := (normalized options s.objects [] value).2.table }

/-- The contents after a placeholder was put in the place of a container. -/
def seededStore (options : Options) (now : Nat) (s : Store) (path : CachePath) (value : Json) :
    Store :=
  let container : Container :=
    { data := value, lifetime := .ofRoot path.root options.maxAge options.staleWindow now }
  let s := { s with containers := Recency.put s.containers (keyOf path) container }
  (s.markPlaceholder { owner := .container (keyOf path), path := [] }).enforceCapacity
    options.maxEntries

/-- The ways in which an operation at `now` changes the contents of a cache. -/
inductive Step (options : Options) (now : Nat) (s : Store) : Event → Store → Prop
  | unchanged (e : Event) : Step options now s e s
  | missed (e : Event) (metrics : Metrics) : Step options now s e { s with metrics }
  | used (e : Event) (key : ContainerKey) (metrics : Metrics) :
    Step options now s e { s with containers := Recency.touch s.containers key, metrics }
  | set {roots : List (String × Json)} {rs : List (Operation × List (String × Json))}
    (read : payloadRoots roots = .ok rs) (skipNotify : Bool) :
    Step options now s (.set (.object roots) skipNotify) (setStore options now s (payloadFields rs))
  | writtenRoot {path : CachePath} (value : Json) (root : path.rest = []) :
    Step options now s (.write path value)
      (setStore options now s [(path.root, path.field, value)])
  | merged {path : CachePath} {slot : Slot} (value : Json) (below : path.rest ≠ [])
    (found : s.slot? path = some slot) :
    Step options now s (.write path value) (mergedStore options s value)
  | written {path : CachePath} {slot : Slot} {value : Json} {t : Store} (below : path.rest ≠ [])
    (found : s.slot? path = some slot)
    (placed : (mergedStore options s value).writeSlot? slot
      (normalized options s.objects [] value).1 = some t) (touched : Touched) :
    Step options now s (.write path value)
      ((t.dropPlaceholdersIn slot).dropReplacedPlaceholders touched)
  | seededRoot {path : CachePath} (value : Json) (root : path.rest = [])
    (absent : Recency.contains s.containers (keyOf path) = false) :
    Step options now s (.seed path value) (seededStore options now s path value)
  | seeded {path : CachePath} {slot : Slot} {value : Json} {t : Store} (below : path.rest ≠ [])
    (found : s.slot? path = some slot) (placed : s.writeSlot? slot value = some t) :
    Step options now s (.seed path value) (t.markPlaceholder slot)
  | evictedRoot {text : String} {path : CachePath} (parsed : CachePath.parse text = .ok path) :
    Step options now s (.evict text) (s.dropContainer (keyOf path))
  | evicted {text : String} {path : CachePath} {slot : Slot} {v w : Json}
    (parsed : CachePath.parse text = .ok path) (below : path.rest ≠ [])
    (found : s.slot? path = some slot) (owned : s.ownerValue? slot.owner = some v)
    (removed : v.removeAt? slot.path = some w) :
    Step options now s (.evict text) ((s.withOwnerValue slot.owner w).dropPlaceholdersIn slot)
  | swept : Step options now s .sweep (s.sweep now)
  | cleared : Step options now s .clear { s with containers := [], objects := [], placeholders := [] }
  | restored {snapshot : Snapshot} (valid : snapshot.validate = .ok ()) :
    Step options now s (.restore snapshot) (restored options now s snapshot)

/-! ### The operations -/

theorem set_eq (c : Cache) (now : Nat) {roots : List (String × Json)}
    {rs : List (Operation × List (String × Json))} (hr : payloadRoots roots = .ok rs)
    (skipNotify : Bool) :
    c.set now (.object roots) skipNotify =
      .ok (announce { c with store := setStore c.options now c.store (payloadFields rs) }
        (writesOf (payloadFields rs)) (storeFields c.options now c.store (payloadFields rs)).2.ids
        skipNotify (.object roots)) := by
  simp only [set, hr]
  rfl

theorem set_eq_ok {c d : Cache} {now : Nat} {payload : Json} {skipNotify : Bool} {notice : Notice}
    (h : c.set now payload skipNotify = .ok (d, notice)) :
    ∃ roots rs, payload = .object roots ∧ payloadRoots roots = .ok rs ∧ d.options = c.options ∧
      d.store = setStore c.options now c.store (payloadFields rs) := by
  cases payload with
  | object roots =>
      cases hr : payloadRoots roots with
      | error e =>
          simp only [set, hr] at h
          cases h
      | ok rs =>
          rw [c.set_eq now hr] at h
          cases h
          exact ⟨roots, rs, rfl, hr, rfl, rfl⟩
  | null => cases h
  | bool b => cases h
  | number n => cases h
  | string s => cases h
  | array items => cases h

theorem payloadRoots_fieldPayload (root : Operation) (fs : List (String × Json)) :
    payloadRoots [(root.text, .object fs)] = .ok [(root, fs)] := by
  cases root <;> rfl

/-- A write to a root field stores that field: its payload has the form that `set` asks for. -/
theorem write_root_eq (c : Cache) (now : Nat) {path : CachePath} (value : Json)
    (hr : path.rest = []) :
    c.write now path value =
      let fields := [(path.root, path.field, value)]
      let announced := announce { c with store := setStore c.options now c.store fields }
        (writesOf fields) (storeFields c.options now c.store fields).2.ids false
        (fieldPayload path value)
      (announced.1, some announced.2) := by
  have hset := c.set_eq now (payloadRoots_fieldPayload path.root [(path.field, value)]) false
  have hfields : payloadFields [(path.root, [(path.field, value)])] =
      [(path.root, path.field, value)] := rfl
  rw [hfields] at hset
  simp only [write, hr, fieldPayload, hset]

theorem write_root (c : Cache) (now : Nat) {path : CachePath} (value : Json)
    (h : path.rest = []) :
    ∃ d notice, c.write now path value = (d, some notice) ∧ d.options = c.options ∧
      d.store = setStore c.options now c.store [(path.root, path.field, value)] :=
  ⟨_, _, c.write_root_eq now value h, rfl, rfl⟩

/-- A write below a root field puts the value into the slot of its path. -/
theorem write_slot_eq (c : Cache) (now : Nat) {path : CachePath} (value : Json) {slot : Slot}
    {u : Store} (hn : path.rest ≠ []) (hs : c.store.slot? path = some slot)
    (hu : (mergedStore c.options c.store value).writeSlot? slot
      (normalized c.options c.store.objects [] value).1 = some u) :
    c.write now path value =
      let touched := touchedBySlot (normalized c.options c.store.objects [] value).2.touched slot
      let store := (u.dropPlaceholdersIn slot).dropReplacedPlaceholders touched
      let announced := announce { c with store } [{ path, value }] touched.ids false value
      (announced.1, some announced.2) := by
  rw [mergedStore] at hu
  simp only [write, hs, hu]

/-- A write below a root field that has a slot. -/
theorem write_slot (c : Cache) (now : Nat) {path : CachePath} (value : Json) {slot : Slot}
    (hn : path.rest ≠ []) (hs : c.store.slot? path = some slot) :
    ((mergedStore c.options c.store value).writeSlot? slot
        (normalized c.options c.store.objects [] value).1 = none ∧
      c.write now path value = ({ c with store := mergedStore c.options c.store value }, none)) ∨
    ∃ t d notice touched, (mergedStore c.options c.store value).writeSlot? slot
        (normalized c.options c.store.objects [] value).1 = some t ∧
      c.write now path value = (d, some notice) ∧ d.options = c.options ∧
      d.store = (t.dropPlaceholdersIn slot).dropReplacedPlaceholders touched := by
  cases ht : (mergedStore c.options c.store value).writeSlot? slot
      (normalized c.options c.store.objects [] value).1 with
  | none =>
      refine .inl ⟨rfl, ?_⟩
      rw [mergedStore] at ht
      simp only [write, hs, ht]
      rfl
  | some t => exact .inr ⟨t, _, _, _, rfl, c.write_slot_eq now value hn hs ht, rfl, rfl⟩

/-- A write that is done has found its slot, and the place in it. -/
theorem write_done {c d : Cache} {now : Nat} {path : CachePath} {value : Json} {notice : Notice}
    (hn : path.rest ≠ []) (h : c.write now path value = (d, some notice)) :
    ∃ slot t touched, c.store.slot? path = some slot ∧
      (mergedStore c.options c.store value).writeSlot? slot
        (normalized c.options c.store.objects [] value).1 = some t ∧
      d.store = (t.dropPlaceholdersIn slot).dropReplacedPlaceholders touched := by
  cases hs : c.store.slot? path with
  | none =>
      rw [write] at h
      split at h
      · exact absurd ‹path.rest = []› hn
      · rw [hs] at h
        cases h
  | some slot =>
      rcases c.write_slot now value hn hs with ⟨_, hw⟩ | ⟨t, d', notice', touched, ht, hw, _, hd⟩
      · rw [hw] at h
        cases h
      · rw [hw] at h
        cases h
        exact ⟨slot, t, touched, rfl, ht, hd⟩

/-! ### One step of each operation -/

theorem step_set {c d : Cache} {now : Nat} {payload : Json} {skipNotify : Bool} {notice : Notice}
    (h : c.set now payload skipNotify = .ok (d, notice)) :
    d.options = c.options ∧ Step c.options now c.store (.set payload skipNotify) d.store := by
  obtain ⟨roots, rs, rfl, hr, ho, hd⟩ := set_eq_ok h
  exact ⟨ho, hd ▸ .set hr skipNotify⟩

theorem step_write (c : Cache) (now : Nat) (path : CachePath) (value : Json) :
    (c.write now path value).1.options = c.options ∧
      Step c.options now c.store (.write path value) (c.write now path value).1.store := by
  by_cases hr : path.rest = []
  · obtain ⟨d, notice, hw, ho, hd⟩ := c.write_root now value hr
    rw [hw]
    exact ⟨ho, hd ▸ .writtenRoot value hr⟩
  · cases hs : c.store.slot? path with
    | none =>
        simp only [write, hs]
        exact ⟨trivial, .unchanged _⟩
    | some slot =>
        rcases c.write_slot now value hr hs with ⟨_, hw⟩ | ⟨t, d, notice, touched, ht, hw, ho, hd⟩
        · rw [hw]
          exact ⟨rfl, .merged value hr hs⟩
        · rw [hw]
          exact ⟨ho, hd ▸ .written hr hs ht touched⟩

theorem step_seed (c : Cache) (now : Nat) (path : CachePath) (value : Json) :
    (c.seed now path value).2.options = c.options ∧
      Step c.options now c.store (.seed path value) (c.seed now path value).2.store := by
  by_cases hr : path.rest = []
  · cases hc : Recency.contains c.store.containers (keyOf path) with
    | true =>
        simp only [seed, hr, hc, if_true]
        exact ⟨trivial, .unchanged _⟩
    | false =>
        simp only [seed, hr, hc, Bool.false_eq_true, if_false]
        exact ⟨trivial, .seededRoot value hr hc⟩
  · cases hs : c.store.slot? path with
    | none =>
        simp only [seed, hs]
        exact ⟨trivial, .unchanged _⟩
    | some slot =>
        simp only [seed, hs]
        split
        · exact ⟨rfl, .unchanged _⟩
        · split
          · exact ⟨rfl, .unchanged _⟩
          · exact ⟨rfl, .seeded hr hs ‹_›⟩

theorem step_evict (c : Cache) (now : Nat) {text : String} {path : CachePath}
    (parsed : CachePath.parse text = .ok path) :
    (c.evict path).2.options = c.options ∧
      Step c.options now c.store (.evict text) (c.evict path).2.store := by
  simp only [evict]
  split
  · split
    · exact ⟨rfl, .evictedRoot parsed⟩
    · exact ⟨rfl, .unchanged _⟩
  · rename_i hr
    split
    · rename_i store hstore
      obtain ⟨slot, hs, hstore⟩ := Option.bind_eq_some_iff.mp hstore
      obtain ⟨v, hv, hstore⟩ := Option.bind_eq_some_iff.mp hstore
      obtain ⟨w, hw, hstore⟩ := Option.bind_eq_some_iff.mp hstore
      cases hstore
      exact ⟨rfl, .evicted parsed hr hs hv hw⟩
    · exact ⟨rfl, .unchanged _⟩

theorem step_restore {c d : Cache} {now : Nat} {snapshot : Snapshot} {notice : Notice}
    (h : c.restore now snapshot = .ok (d, notice)) :
    d.options = c.options ∧ Step c.options now c.store (.restore snapshot) d.store := by
  obtain ⟨hv, ho, hd⟩ := restore_eq_ok h
  exact ⟨ho, hd ▸ .restored hv⟩

/-- What an operation comes to that gives a cache or is refused. -/
theorem step_ofResult {c : Cache} {now : Nat} {e : Event}
    {r : Except ValidationError (Cache × Notice)}
    (h : ∀ d notice, r = .ok (d, notice) →
      d.options = c.options ∧ Step c.options now c.store e d.store) :
    (Outcome.ofResult c r).cache.options = c.options ∧
      Step c.options now c.store e (Outcome.ofResult c r).cache.store := by
  cases r with
  | error _ => exact ⟨rfl, .unchanged _⟩
  | ok r => exact h r.1 r.2 rfl

/-- Every operation changes the contents in one of these ways, and keeps the options. -/
theorem act_step (c : Cache) (now : Nat) (e : Event) :
    (c.act now e).cache.options = c.options ∧
      Step c.options now c.store e (c.act now e).cache.store := by
  cases e with
  | set payload skipNotify => exact step_ofResult fun _ _ => step_set
  | write path value => exact c.step_write now path value
  | seed path value => exact c.step_seed now path value
  | evict text =>
      cases hp : CachePath.parse text with
      | error e =>
          simp only [act, hp]
          exact ⟨trivial, .unchanged _⟩
      | ok path =>
          simp only [act, hp]
          exact c.step_evict now hp
  | sweep => exact ⟨rfl, .swept⟩
  | clear => exact ⟨rfl, .cleared⟩
  | restore snapshot => exact step_ofResult fun _ _ => step_restore
  | get path includeExpired =>
      simp only [act, get]
      split
      · exact ⟨rfl, .missed _ _⟩
      · exact ⟨rfl, .used _ _ _⟩
  | read path =>
      simp only [act, read]
      split
      · exact ⟨rfl, .missed _ _⟩
      · exact ⟨rfl, .used _ _ _⟩
  | subscribe paths => exact ⟨rfl, .unchanged _⟩
  | unsubscribe id => exact ⟨rfl, .unchanged _⟩

end LazyGraph.Cache
