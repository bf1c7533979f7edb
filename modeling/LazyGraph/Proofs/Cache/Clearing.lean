import LazyGraph.Proofs.Cache.Alias
import LazyGraph.Proofs.Cache.Replacement

/-!
Which placeholders a write clears: those in the slot of its path and, where the slot lies in an
identified object, all others in the same member of the object.
-/
namespace LazyGraph.Cache

namespace Slot

/-- The mark is at the slot or below it. -/
def Covers (slot mark : Slot) : Prop := slot.owner = mark.owner ∧ slot.path <+: mark.path

/-- The member of an identified object that a slot lies in. -/
def member? (slot : Slot) : Option (String × String) :=
  match slot.owner, slot.path with
  | .object id, key :: _ => some (id, key)
  | _, _ => none

/-- The slot and the mark lie in one member of an identified object. -/
def SharesMember (slot mark : Slot) : Prop :=
  ∃ member, slot.member? = some member ∧ mark.member? = some member

theorem encloses_iff {slot mark : Slot} : slot.encloses mark = true ↔ slot.Covers mark := by
  rw [encloses, Bool.and_eq_true, decide_eq_true_iff, List.isPrefixOf_iff_prefix, Covers]

theorem member?_container {slot : Slot} {key : ContainerKey} (h : slot.owner = .container key) :
    slot.member? = none := by
  rw [member?, h]

end Slot

/-! ### What a write records -/

theorem isReplaced_iff {touched : Touched} {mark : Slot} :
    Store.isReplaced touched mark = true ↔
      ∃ member, mark.member? = some member ∧ touched.has member.1 member.2 = true := by
  obtain ⟨owner, path⟩ := mark
  cases owner with
  | container key => simp [Store.isReplaced, Slot.member?]
  | object id => cases path <;> simp [Store.isReplaced, Slot.member?]

theorem has_touchedBySlot {touched : Touched} {slot : Slot} {id key : String} :
    (touchedBySlot touched slot).has id key = true ↔
      touched.has id key = true ∨ slot.member? = some (id, key) := by
  obtain ⟨owner, path⟩ := slot
  cases owner with
  | container _ => simp [touchedBySlot, Slot.member?]
  | object other =>
      cases path with
      | nil => simp [touchedBySlot, Slot.member?, Touched.has_add]
      | cons first rest =>
          simp only [touchedBySlot, Slot.member?, Touched.has_add, List.mem_singleton,
            Option.some.injEq, Prod.mk.injEq]
          exact or_congr_right (and_congr eq_comm eq_comm)

theorem isReplaced_touchedBySlot {touched : Touched} {slot mark : Slot} :
    Store.isReplaced (touchedBySlot touched slot) mark = true ↔
      slot.SharesMember mark ∨ Store.isReplaced touched mark = true := by
  simp only [isReplaced_iff, has_touchedBySlot, Slot.SharesMember]
  constructor
  · rintro ⟨member, hmark, hhas | hslot⟩
    · exact .inr ⟨member, hmark, hhas⟩
    · exact .inl ⟨member, hslot, hmark⟩
  · rintro (⟨member, hslot, hmark⟩ | ⟨member, hmark, hhas⟩)
    · exact ⟨member, hmark, .inr hslot⟩
    · exact ⟨member, hmark, .inl hhas⟩

theorem placeholders_writeSlot? {s t : Store} {slot : Slot} {v : Json}
    (h : s.writeSlot? slot v = some t) : t.placeholders = s.placeholders := by
  obtain ⟨u, _, h⟩ := Option.bind_eq_some_iff.mp h
  obtain ⟨w, _, h⟩ := Option.bind_eq_some_iff.mp h
  cases h
  exact s.placeholders_withOwnerValue slot.owner w

/-- Of the marks a write leaves those that are not in its slot and whose members it does not
record. -/
theorem mem_placeholders_write {c d : Cache} {now : Nat} {path : CachePath} {value : Json}
    {notice : Notice} (below : path.rest ≠ [])
    (written : c.write now path value = (d, some notice)) :
    ∃ slot, c.store.slot? path = some slot ∧ ∀ mark, mark ∈ d.store.placeholders ↔
      mark ∈ c.store.placeholders ∧ ¬ slot.Covers mark ∧ ¬ slot.SharesMember mark ∧
        ¬ Store.isReplaced (normalized c.options c.store.objects [] value).2.touched mark = true := by
  obtain ⟨slot, t, _, found, placed, _⟩ := write_done below written
  rw [c.write_slot_eq now value below found placed] at written
  let touched := (normalized c.options c.store.objects [] value).2.touched
  have hstore : d.store =
      (t.dropPlaceholdersIn slot).dropReplacedPlaceholders (touchedBySlot touched slot) := by
    cases written
    rfl
  have hplaced : t.placeholders = (mergedStore c.options c.store value).placeholders :=
    placeholders_writeSlot? placed
  refine ⟨slot, found, fun mark => ?_⟩
  rw [hstore, Store.dropReplacedPlaceholders, Store.dropPlaceholdersIn]
  simp only [List.mem_filter, Bool.not_eq_true', ← Bool.not_eq_true, Slot.encloses_iff,
    isReplaced_touchedBySlot, hplaced, mergedStore]
  tauto

/-- A write of a value without identified objects leaves the marks that are not in its slot and
share no member of an identified object with it. So exactly the marks in the slot go if and only if
no other mark shares its member; below a root container that is always so. -/
theorem write_clears_iff {c d : Cache} {now : Nat} {path : CachePath} {value : Json}
    {notice : Notice} (below : path.rest ≠ []) (plain : c.options.Anonymous value)
    (written : c.write now path value = (d, some notice)) :
    ∃ slot, c.store.slot? path = some slot ∧
      (∀ mark, mark ∈ d.store.placeholders ↔
        mark ∈ c.store.placeholders ∧ ¬ slot.Covers mark ∧ ¬ slot.SharesMember mark) ∧
      ((∀ mark, mark ∈ d.store.placeholders ↔ mark ∈ c.store.placeholders ∧ ¬ slot.Covers mark) ↔
        ∀ mark ∈ c.store.placeholders, slot.SharesMember mark → slot.Covers mark) ∧
      ((∃ key, slot.owner = .container key) → ∀ mark, ¬ slot.SharesMember mark) := by
  obtain ⟨slot, found, left⟩ := mem_placeholders_write below written
  have hleft : ∀ mark, mark ∈ d.store.placeholders ↔
      mark ∈ c.store.placeholders ∧ ¬ slot.Covers mark ∧ ¬ slot.SharesMember mark := by
    intro mark
    have hnone : ¬ Store.isReplaced [] mark = true := by
      rw [isReplaced_iff]
      rintro ⟨_, _, h⟩
      cases h
    rw [left, plain.normalized, and_iff_left hnone]
  refine ⟨slot, found, hleft, ?_, ?_⟩
  · constructor
    · intro clears mark marked shares
      by_contra outside
      exact ((hleft mark).mp ((clears mark).mpr ⟨marked, outside⟩)).2.2 shares
    · intro covered mark
      rw [hleft]
      constructor
      · exact fun ⟨marked, outside, _⟩ => ⟨marked, outside⟩
      · exact fun ⟨marked, outside⟩ => ⟨marked, outside, fun h => outside (covered mark marked h)⟩
  · rintro ⟨key, hkey⟩ mark ⟨_, hmember, _⟩
    rw [Slot.member?_container hkey] at hmember
    cases hmember

/-! ### A placeholder in the second of two items -/

/-- A user with two items, and a placeholder for the friend of the second one. -/
def awaitedSecond : Cache :=
  (new {}).after 0 [.set (itemsPayload ["a", "b"]) false,
    .seed { root := .query, field := "user", rest := ["items", "1", "friend"] } (.object [])]

def secondMark : Slot := { owner := .object "U:1", path := ["items", "1", "friend"] }

def secondItem : CachePath := { root := .query, field := "user", rest := ["items", "1"] }

def firstName : CachePath := { root := .query, field := "user", rest := ["items", "0", "name"] }

def newItem : Json := .object [("name", .string "x")]

/-- The user once the second item is another one. -/
def replacedSecond : Cache := (awaitedSecond.act 0 (.write secondItem newItem)).cache

/-- A new second item takes the mark in it along, and no other one. -/
theorem write_clears_iff_second :
    (secondItem.rest ≠ [] ∧ awaitedSecond.options.Anonymous newItem ∧
      ∃ notice, awaitedSecond.write 0 secondItem newItem = (replacedSecond, some notice)) ∧
    secondMark ∈ awaitedSecond.store.placeholders ∧
    ∃ slot, awaitedSecond.store.slot? secondItem = some slot ∧ slot.Covers secondMark ∧
      ∀ mark, mark ∈ replacedSecond.store.placeholders ↔
        mark ∈ awaitedSecond.store.placeholders ∧ ¬ slot.Covers mark := by
  have below : secondItem.rest ≠ [] := by decide
  have plain : awaitedSecond.options.Anonymous newItem := by
    refine ⟨fun n hn => ?_, trivial, trivial⟩
    cases hn
    rfl
  have done : ∃ notice, awaitedSecond.write 0 secondItem newItem = (replacedSecond, some notice) :=
    ⟨_, rfl⟩
  obtain ⟨notice, written⟩ := done
  obtain ⟨slot, found, _, clears, _⟩ := write_clears_iff below plain written
  have hslot : awaitedSecond.store.slot? secondItem =
      some { owner := .object "U:1", path := ["items", "1"] } := by decide +kernel
  obtain rfl := Option.some.inj (hslot.symm.trans found)
  have hmarks : awaitedSecond.store.placeholders = [secondMark] := by decide +kernel
  have covers : Slot.Covers { owner := .object "U:1", path := ["items", "1"] } secondMark :=
    ⟨rfl, by decide⟩
  refine ⟨⟨below, plain, notice, written⟩, by decide +kernel, _, found, covers, clears.mpr ?_⟩
  intro mark marked _
  rw [hmarks, List.mem_singleton] at marked
  exact marked ▸ covers

/-- A new name of the first item takes the mark in the second item with it. -/
theorem second_unmarked :
    Reachable {} 0 awaitedSecond ∧ awaitedSecond.options.Anonymous (.string "x") ∧
    (awaitedSecond.write 0 firstName (.string "x")).2.isSome = true ∧
    secondMark ∈ awaitedSecond.store.placeholders ∧
    (∀ slot, awaitedSecond.store.slot? firstName = some slot → ¬ slot.Covers secondMark) ∧
    secondMark ∉ (awaitedSecond.write 0 firstName (.string "x")).1.store.placeholders := by
  refine ⟨(Reachable.new 0).after _, trivial, by decide +kernel, by decide +kernel, ?_,
    by decide +kernel⟩
  intro slot found covers
  have hslot : awaitedSecond.store.slot? firstName =
      some { owner := .object "U:1", path := ["items", "0", "name"] } := by decide +kernel
  obtain rfl := Option.some.inj (hslot.symm.trans found)
  exact absurd covers.2 (by decide)

end LazyGraph.Cache
