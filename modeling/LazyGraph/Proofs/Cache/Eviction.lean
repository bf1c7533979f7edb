import LazyGraph.Proofs.Cache.Event
import LazyGraph.Proofs.Cache.Position
import LazyGraph.Proofs.Json.Taking

/-!
An eviction takes away one value: a container as a whole, a member of an object, or an item of an
array, in whose place null stands. What stands elsewhere in the cache stays as it is.
-/
namespace LazyGraph.Cache

namespace Store

variable {s t : Store} {p : Position}

/-- The second contents are the first without the value at a position: what the position lies in
has lost the part there, and all that is neither the position, nor above it nor below it, is as it
was. -/
structure Takes (s : Store) (p : Position) (t : Store) : Prop where
  dropped : ∃ place u w, p = p.parent.child place ∧ s.at? p.parent = some u ∧
    t.at? p.parent = some w ∧ Json.Dropped place u w
  apart : ∀ q : Position, ¬ q.Encloses p → ¬ p.Encloses q → t.at? q = s.at? q
  elsewhere : ∀ owner ≠ p.owner, t.ownerValue? owner = s.ownerValue? owner
  lifetimes : t.containers.map (fun q => (q.1, q.2.lifetime)) =
    s.containers.map fun q => (q.1, q.2.lifetime)

theorem takes_of_removeAt? {slot : Slot} {v w : Json} (owned : s.ownerValue? slot.owner = some v)
    (removed : v.removeAt? slot.path = some w) :
    ∃ p, s.positionOf? slot = some p ∧ s.Takes p (s.withOwnerValue slot.owner w) := by
  obtain ⟨places, hway, htaken⟩ := Json.taken_of_removeAt? removed
  have hvalue := ownerValue?_withOwnerValue owned w
  have hown : (s.withOwnerValue slot.owner w).ownerValue? slot.owner = some w :=
    (hvalue slot.owner).trans (if_pos rfl)
  have hothers : ∀ owner ≠ slot.owner,
      (s.withOwnerValue slot.owner w).ownerValue? owner = s.ownerValue? owner :=
    fun owner ho => (hvalue owner).trans (if_neg ho)
  obtain ⟨above, place, u, x, rfl, hu, hx, hdropped⟩ := htaken.last
  refine ⟨{ owner := slot.owner, places := above ++ [place] },
    positionOf?_eq_some_iff.mpr ⟨rfl, v, owned, hway⟩, ?_, fun q above below => ?_, hothers,
    s.lifetimes_withOwnerValue slot.owner w⟩
  · simp only [Position.parent, Position.child, List.dropLast_concat, at?, owned, hown,
      Option.bind_some]
    exact ⟨place, u, x, rfl, hu, hx, hdropped⟩
  · rw [at?, at?]
    by_cases ho : q.owner = slot.owner
    · rw [ho, owned, hown, Option.bind_some, Option.bind_some]
      exact htaken.apart q.places (fun hq => above ⟨ho, hq⟩) fun hp => below ⟨ho.symm, hp⟩
    · rw [hothers q.owner ho]

theorem valueAt?_root {path : CachePath} (root : path.rest = []) :
    s.valueAt? path = (Recency.peek? s.containers (keyOf path)).map (·.data) := by
  rw [valueAt?_eq_descend?, root, Option.map_eq_bind]
  rfl

theorem slot?_root {path : CachePath} (root : path.rest = [])
    (found : Recency.contains s.containers (keyOf path) = true) :
    s.slot? path = some { owner := .container (keyOf path), path := [] } := by
  obtain ⟨k, hk⟩ := Option.isSome_iff_exists.mp found
  rw [slot?, hk, root]
  rfl

theorem mem_dropPlaceholdersIn {slot mark : Slot} :
    mark ∈ (s.dropPlaceholdersIn slot).placeholders ↔
      mark ∈ s.placeholders ∧ ¬ (slot.owner = mark.owner ∧ slot.path <+: mark.path) := by
  rw [dropPlaceholdersIn, List.mem_filter, Slot.encloses, Bool.not_eq_true', ← Bool.not_eq_true,
    Bool.and_eq_true, decide_eq_true_iff, List.isPrefixOf_iff_prefix]

end Store

variable {c d : Cache} {path : CachePath}

/-- An eviction below a root field finds the slot of its path, and takes its value away. -/
theorem evict_below (below : path.rest ≠ []) :
    ((c.store.valueAt? path).isSome ∧ ∃ slot v w, c.store.slot? path = some slot ∧
      c.store.ownerValue? slot.owner = some v ∧ v.removeAt? slot.path = some w ∧
      c.evict path = (true, { c with
        store := (c.store.withOwnerValue slot.owner w).dropPlaceholdersIn slot })) ∨
    (c.store.valueAt? path = none ∧ c.evict path = (false, c)) := by
  cases hslot : c.store.slot? path with
  | none =>
      refine .inr ⟨?_, ?_⟩
      · rw [Store.valueAt?, hslot]
        rfl
      · simp only [evict, hslot]
        rfl
  | some slot =>
      have hne := (Store.slot?_path below hslot).1
      have hvalue : c.store.valueAt? path =
          (c.store.ownerValue? slot.owner).bind (·.walk? slot.path) := by
        rw [Store.valueAt?, hslot]
        rfl
      rw [hvalue]
      cases howner : c.store.ownerValue? slot.owner with
      | none =>
          refine .inr ⟨rfl, ?_⟩
          simp only [evict, hslot, howner, Option.bind_eq_bind, Option.bind_some, Option.bind_none]
      | some v =>
          rw [Option.bind_some]
          cases hw : v.removeAt? slot.path with
          | none =>
              refine .inr ⟨?_, ?_⟩
              · rw [← Option.not_isSome_iff_eq_none, ← Json.removeAt?_isSome_iff hne, hw]
                exact Bool.false_ne_true
              · simp only [evict, hslot, howner, hw, Option.bind_eq_bind, Option.bind_some,
                  Option.bind_none]
          | some w =>
              refine .inl ⟨?_, slot, v, w, rfl, howner, hw, ?_⟩
              · rw [← Json.removeAt?_isSome_iff hne, hw]
                rfl
              · simp only [evict, hslot, howner, hw, Option.bind_eq_bind, Option.bind_some]

/-- An eviction of a root field takes its container away. -/
theorem evict_root (root : path.rest = []) :
    ((c.store.valueAt? path).isSome ∧ Recency.contains c.store.containers (keyOf path) = true ∧
      c.evict path = (true, { c with store := c.store.dropContainer (keyOf path) })) ∨
    (c.store.valueAt? path = none ∧ c.evict path = (false, c)) := by
  have hvalue : (c.store.valueAt? path).isSome =
      Recency.contains c.store.containers (keyOf path) := by
    rw [Store.valueAt?_root root, Option.isSome_map]
    rfl
  cases found : Recency.contains c.store.containers (keyOf path) with
  | false =>
      refine .inr ⟨Option.not_isSome_iff_eq_none.mp ?_, ?_⟩
      · rw [hvalue, found]
        exact Bool.false_ne_true
      · simp only [evict, root, found, Bool.false_eq_true, if_false]
  | true =>
      refine .inl ⟨hvalue.trans found, rfl, ?_⟩
      simp only [evict, root, found, if_true]

/-- An eviction is local. It succeeds exactly where a value is stored in the slot of its path, and
one that fails changes nothing. One that succeeds drops the marks at or below its slot and no
others. For a root field it takes away the container alone; for a deeper path it takes one member
from one object, or puts null in the place of one item of one array, and every other position of
every container and identified object holds what it held. -/
theorem evict_local (c : Cache) (path : CachePath) :
    ((c.evict path).1 = true ↔ (c.store.valueAt? path).isSome) ∧
    (∀ d, c.evict path = (false, d) → d = c) ∧
    ∀ d, c.evict path = (true, d) → ∃ slot p,
      c.store.slot? path = some slot ∧ c.store.positionOf? slot = some p ∧
      d.options = c.options ∧ d.registry = c.registry ∧
      (∀ mark, mark ∈ d.store.placeholders ↔ mark ∈ c.store.placeholders ∧
        ¬ (slot.owner = mark.owner ∧ slot.path <+: mark.path)) ∧
      (path.rest = [] → p = { owner := .container (keyOf path), places := [] } ∧
        d.store.objects = c.store.objects ∧
        d.store.containers = c.store.containers.filter fun q => q.1 ≠ keyOf path) ∧
      (path.rest ≠ [] → c.store.Takes p d.store) := by
  by_cases root : path.rest = []
  · rcases evict_root (c := c) root with ⟨hsome, found, hevict⟩ | ⟨hnone, hevict⟩
    · obtain ⟨k, hk⟩ := Option.isSome_iff_exists.mp found
      have howner : c.store.ownerValue? (.container (keyOf path)) = some k.data := by
        rw [Store.ownerValue?, hk]
        rfl
      rw [hevict, hsome]
      refine ⟨Iff.rfl, fun d hd => ?_, fun d hd => ?_⟩
      · cases hd
      · cases hd
        refine ⟨_, _, Store.slot?_root root found, Store.positionOf?_root howner, rfl, rfl,
          fun mark => ?_, fun _ => ⟨rfl, rfl, rfl⟩, fun below => absurd root below⟩
        rw [Store.dropContainer, List.mem_filter, decide_eq_true_iff]
        simp only [List.nil_prefix, and_true, eq_comm]
    · rw [hevict, hnone]
      refine ⟨Iff.rfl, fun d hd => (Prod.mk.inj hd).2.symm, fun d hd => ?_⟩
      cases hd
  · rcases evict_below (c := c) root with ⟨hsome, slot, v, w, hslot, howner, hw, hevict⟩ |
      ⟨hnone, hevict⟩
    · obtain ⟨p, hp, htakes⟩ := Store.takes_of_removeAt? howner hw
      rw [hevict, hsome]
      refine ⟨Iff.rfl, fun d hd => ?_, fun d hd => ?_⟩
      · cases hd
      · cases hd
        refine ⟨slot, p, hslot, hp, rfl, rfl, fun mark => ?_, fun he => absurd he root,
          fun _ => ⟨htakes.dropped, htakes.apart, htakes.elsewhere, htakes.lifetimes⟩⟩
        rw [Store.mem_dropPlaceholdersIn, Store.placeholders_withOwnerValue]
    · rw [hevict, hnone]
      refine ⟨Iff.rfl, fun d hd => (Prod.mk.inj hd).2.symm, fun d hd => ?_⟩
      cases hd

/-- One user under two root fields, who has a list of two friends. Each friend has a pet that is a
placeholder. -/
def twoFriends : Cache :=
  let friends : Json := .array [.object [("name", .string "a")], .object [("name", .string "b")]]
  let user : Json := .object [("__typename", .string "U"), ("friends", friends), ("id", .int 1)]
  let pet (friend : String) : Event :=
    .seed { root := .query, field := "user", rest := ["friends", friend, "pet"] } (.object [])
  (new {}).after 0
    [.set (.object [("query", .object [("me", user), ("user", user)])]) false, pet "0", pet "1"]

/-- The second friend of that user. -/
def secondFriend : CachePath := { root := .query, field := "me", rest := ["friends", "1"] }

/-- A friend who is taken away through the one root field leaves null behind, which is read through
the other one, and the mark on his pet is dropped. -/
theorem evict_local_friend :
    (twoFriends.evict secondFriend).1 = true ∧
    ((twoFriends.evict secondFriend).2.store.at?
        { owner := .object "U:1", places := [.key "friends", .item 0, .key "name"] }).bind
      (·.asString?) = some "a" ∧
    ((twoFriends.evict secondFriend).2.store.valueAt?
        { root := .query, field := "user", rest := ["friends", "1"] }).any (·.isNull) = true ∧
    ∀ mark, mark ∈ (twoFriends.evict secondFriend).2.store.placeholders ↔
      mark = { owner := .object "U:1", path := ["friends", "0", "pet"] } := by
  obtain ⟨succeeds, _, done⟩ := evict_local twoFriends secondFriend
  have evicted : (twoFriends.evict secondFriend).1 = true := succeeds.mpr (by decide +kernel)
  obtain ⟨slot, p, hslot, hp, _, _, marks, _, below⟩ :=
    done (twoFriends.evict secondFriend).2 (Prod.ext evicted rfl)
  have at_friend : twoFriends.store.slot? secondFriend =
      some { owner := .object "U:1", path := ["friends", "1"] } := by decide +kernel
  obtain rfl := Option.some.inj (at_friend.symm.trans hslot)
  have placed : twoFriends.store.positionOf? { owner := .object "U:1", path := ["friends", "1"] } =
      some { owner := .object "U:1", places := [.key "friends", .item 1] } := by decide +kernel
  obtain rfl := Option.some.inj (placed.symm.trans hp)
  have takes := below (List.cons_ne_nil _ _)
  refine ⟨evicted, ?_, by decide +kernel, fun mark => ?_⟩
  · rw [takes.apart _ (fun h => absurd h.2 (by decide)) fun h => absurd h.2 (by decide)]
    decide +kernel
  · have held : twoFriends.store.placeholders =
        [{ owner := .object "U:1", path := ["friends", "0", "pet"] },
          { owner := .object "U:1", path := ["friends", "1", "pet"] }] := by decide +kernel
    rw [marks, held, List.mem_pair]
    constructor
    · rintro ⟨rfl | rfl, hm⟩
      · rfl
      · exact absurd ⟨rfl, by decide⟩ hm
    · rintro rfl
      exact ⟨.inl rfl, by decide⟩

end LazyGraph.Cache
