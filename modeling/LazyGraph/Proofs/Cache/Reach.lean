import LazyGraph.Proofs.Cache.Descent
import LazyGraph.Proofs.Cache.Event
import Mathlib

/-!
The identities that subscribed paths depend on, as they are looked for: one set takes what the
paths cross and what their values lead to, and nothing in it is followed again. So an identity that
was crossed before a value leads to it stays unopened.
-/
namespace LazyGraph.Cache

namespace Store

variable {objects : ObjectTable}

/-! ### One way down -/

/-- The identities seen once a way down has gone on from a value. -/
def passed (seen : List String) (v : Json) : List String :=
  match v.referenceId? with
  | some id => if seen.contains id then seen else seen ++ [id]
  | none => seen

theorem mem_passed {seen : List String} {v : Json} {id : String} :
    id ∈ passed seen v ↔ id ∈ seen ∨ v.referenceId? = some id := by
  rw [passed]
  cases v.referenceId? with
  | none => simp
  | some other =>
      by_cases hs : other ∈ seen
      · simp only [List.contains_eq_mem, hs, decide_true, if_true, Option.some.injEq]
        exact ⟨.inl, fun h => h.elim (fun h => h) fun e => e ▸ hs⟩
      · simp [hs, eq_comm]

theorem reachFrom_cons (objects : ObjectTable) (seen : List String) (v : Json) (segment : String)
    (rest : List String) :
    reachFrom objects seen v (segment :: rest) =
      match (v.resolve? objects).bind (·.step? segment) with
      | some u => reachFrom objects (passed seen v) u rest
      | none => passed seen v := rfl

theorem seen_subset_reachFrom (seen : List String) (v : Json) (rest : List String) :
    seen ⊆ reachFrom objects seen v rest := by
  induction rest generalizing seen v with
  | nil => exact Json.seen_subset_reachWithin objects _ seen [v]
  | cons segment rest ih =>
      have hpassed : seen ⊆ passed seen v := fun id hid => mem_passed.mpr (.inl hid)
      rw [reachFrom_cons]
      split
      · exact List.Subset.trans hpassed (ih _ _)
      · exact hpassed

theorem mem_reachFrom_of_crosses {seen : List String} {v : Json} {rest : List String} {id : String}
    (h : Json.Crosses objects v rest id) : id ∈ reachFrom objects seen v rest := by
  induction h generalizing seen with
  | @here v _ _ id hr =>
      have hpassed : id ∈ passed seen v := mem_passed.mpr (.inr hr)
      rw [reachFrom_cons]
      split
      · exact seen_subset_reachFrom _ _ _ hpassed
      · exact hpassed
  | further hs _ ih =>
      rw [reachFrom_cons, hs]
      exact ih

/-- All that is found was seen before, is crossed, or the value at the end leads to it. -/
theorem reachFrom_sound {seen : List String} {v : Json} {rest : List String} {id : String}
    (h : id ∈ reachFrom objects seen v rest) :
    id ∈ seen ∨ Json.Crosses objects v rest id ∨
      ∃ u, Json.descend? objects v rest = some u ∧ Json.Leads objects u id := by
  induction rest generalizing seen v with
  | nil =>
      refine (Json.reachWithin_sound h).imp_right fun ⟨u, hu, hl⟩ => .inr ⟨v, rfl, ?_⟩
      exact List.mem_singleton.mp hu ▸ hl
  | cons segment rest ih =>
      have hpassed : id ∈ passed seen v →
          id ∈ seen ∨ Json.Crosses objects v (segment :: rest) id := fun hid =>
        (mem_passed.mp hid).imp_right .here
      rw [reachFrom_cons] at h
      split at h
      · rename_i u hu
        rcases ih h with hid | hc | ⟨w, hw, hl⟩
        · exact (hpassed hid).imp_right .inl
        · exact .inr (.inl (.further hu hc))
        · refine .inr (.inr ⟨w, ?_, hl⟩)
          rw [Json.descend?, hu]
          exact hw
      · exact (hpassed h).imp_right .inl

/-- What the value at the end refers to is found. The object of what is found is opened, unless it
was seen before or is crossed. -/
theorem reachFrom_closed (seen : List String) (v : Json) (rest : List String) :
    (∀ u, Json.descend? objects v rest = some u →
      u.references ⊆ reachFrom objects seen v rest) ∧
    ∀ id ∈ reachFrom objects seen v rest, id ∉ seen → ¬ Json.Crosses objects v rest id →
      ∀ u, Fields.get? objects id = some u → u.references ⊆ reachFrom objects seen v rest := by
  induction rest generalizing seen v with
  | nil =>
      obtain ⟨hvalues, hclosed⟩ := Json.reach_closed objects seen [v]
      refine ⟨fun u hu => ?_, fun id hid hs _ => hclosed id hid hs⟩
      cases hu
      exact hvalues v List.mem_cons_self
  | cons segment rest ih =>
      have hpassed : ∀ {id}, id ∉ seen → ¬ Json.Crosses objects v (segment :: rest) id →
          id ∉ passed seen v := fun hs hc hid =>
        (mem_passed.mp hid).elim hs fun hr => hc (.here hr)
      rw [reachFrom_cons, Json.descend?]
      split
      · rename_i u hu
        obtain ⟨hend, hclosed⟩ := ih (passed seen v) u
        rw [hu]
        refine ⟨hend, fun id hid hs hc => hclosed id hid (hpassed hs hc) fun h => ?_⟩
        exact hc (.further hu h)
      · rename_i hu
        rw [hu]
        exact ⟨fun u hu => (by cases hu), fun id hid hs hc => absurd hid (hpassed hs hc)⟩

/-! ### Paths, one after the other -/

/-- What is found along paths, starting from what was seen before. Only an identity that no path
crosses is sure to have had its object opened. -/
structure Collected (s : Store) (paths : List CachePath) (seen found : List String) : Prop where
  before : seen ⊆ found
  sound : ∀ id ∈ found, id ∈ seen ∨ ∃ p ∈ paths, s.DependsOn p id
  crossed : ∀ p ∈ paths, ∀ id, s.Crosses p id → id ∈ found
  referred : ∀ p ∈ paths, ∀ v, s.valueAt? p = some v → v.references ⊆ found
  opened : ∀ id ∈ found, id ∉ seen → (∀ p ∈ paths, ¬ s.Crosses p id) →
    ∀ u, Fields.get? s.objects id = some u → u.references ⊆ found

namespace Collected

variable {s : Store} {seen mid found : List String}

theorem nil (s : Store) (seen : List String) : Collected s [] seen seen where
  before := List.Subset.refl seen
  sound _ hid := .inl hid
  crossed _ hp := nomatch hp
  referred _ hp := nomatch hp
  opened _ hid hs := absurd hid hs

theorem cons {path : CachePath} {paths : List CachePath} (first : Collected s [path] seen mid)
    (rest : Collected s paths mid found) : Collected s (path :: paths) seen found where
  before := List.Subset.trans first.before rest.before
  sound id hid := by
    rcases rest.sound id hid with hm | ⟨p, hp, hd⟩
    · refine (first.sound id hm).imp_right fun ⟨p, hp, hd⟩ => ?_
      exact ⟨p, List.mem_cons.mpr (.inl (List.mem_singleton.mp hp)), hd⟩
    · exact .inr ⟨p, List.mem_cons_of_mem path hp, hd⟩
  crossed p hp id hc := by
    rcases List.mem_cons.mp hp with rfl | hp
    · exact rest.before (first.crossed p List.mem_cons_self id hc)
    · exact rest.crossed p hp id hc
  referred p hp v hv := by
    rcases List.mem_cons.mp hp with rfl | hp
    · exact List.Subset.trans (first.referred p List.mem_cons_self v hv) rest.before
    · exact rest.referred p hp v hv
  opened id hid hs hc u hu := by
    by_cases hm : id ∈ mid
    · refine List.Subset.trans (first.opened id hm hs (fun p hp => ?_) u hu) rest.before
      exact hc p (List.mem_cons.mpr (.inl (List.mem_singleton.mp hp)))
    · exact rest.opened id hid hm (fun p hp => hc p (List.mem_cons_of_mem path hp)) u hu

end Collected

theorem collected_reach (s : Store) (seen : List String) (path : CachePath) :
    Collected s [path] seen (s.reach seen path) := by
  have hend := s.valueAt?_eq_descend? path
  rw [reach]
  cases hc : Recency.peek? s.containers (keyOf path) with
  | none =>
      rw [hc] at hend
      constructor
      case before => exact List.Subset.refl seen
      case sound => exact fun id hid => .inl hid
      case crossed =>
        rintro p hp id ⟨c, hpeek, _⟩
        rw [List.mem_singleton.mp hp, hc] at hpeek
        cases hpeek
      case referred =>
        intro p hp v hv
        rw [List.mem_singleton.mp hp, hend] at hv
        cases hv
      case opened => exact fun id hid hs => absurd hid hs
  | some c =>
      rw [hc, Option.bind_some] at hend
      have hcross : ∀ {id}, Json.Crosses s.objects c.data path.rest id → s.Crosses path id :=
        fun h => ⟨c, hc, h⟩
      obtain ⟨hreferred, hopened⟩ := @reachFrom_closed s.objects seen c.data path.rest
      constructor
      case before => exact seen_subset_reachFrom seen c.data path.rest
      case sound =>
        intro id hid
        refine (reachFrom_sound hid).imp_right fun h => ⟨path, List.mem_cons_self, ?_⟩
        exact h.imp hcross fun ⟨u, hu, hl⟩ => ⟨u, hend.trans hu, hl⟩
      case crossed =>
        rintro p hp id ⟨c', hpeek, h⟩
        obtain rfl := List.mem_singleton.mp hp
        rw [hc] at hpeek
        cases hpeek
        exact mem_reachFrom_of_crosses h
      case referred =>
        intro p hp v hv
        rw [List.mem_singleton.mp hp, hend] at hv
        exact hreferred v hv
      case opened =>
        exact fun id hid hs hn => hopened id hid hs fun h => hn path List.mem_cons_self (hcross h)

theorem collected_foldl (s : Store) (seen : List String) (paths : List CachePath) :
    Collected s paths seen (paths.foldl s.reach seen) := by
  induction paths generalizing seen with
  | nil => exact .nil s seen
  | cons path paths ih => exact (s.collected_reach seen path).cons (ih _)

/-- What is found from nothing is what the paths depend on, exactly if for an identity that one
path crosses and the value of one leads to, also what its object refers to was found. -/
theorem Collected.exact_iff {s : Store} {paths : List CachePath} {found : List String}
    (h : Collected s paths [] found) :
    (∀ id, id ∈ found ↔ ∃ p ∈ paths, s.DependsOn p id) ↔
    ∀ id, (∃ p ∈ paths, s.Crosses p id) → (∃ p ∈ paths, s.LeadsTo p id) →
      ∀ u, Fields.get? s.objects id = some u → u.references ⊆ found := by
  constructor
  · rintro hexact id - ⟨p, hp, v, hv, hl⟩ u hu other ho
    exact (hexact other).mpr ⟨p, hp, .inr ⟨v, hv, .through hl hu ho⟩⟩
  · intro hboth id
    refine ⟨fun hid => (h.sound id hid).resolve_left List.not_mem_nil, ?_⟩
    rintro ⟨p, hp, hc | ⟨v, hv, hl⟩⟩
    · exact h.crossed p hp id hc
    · induction hl with
      | here hid => exact h.referred p hp v hv hid
      | @through id other u hl hu ho ih =>
          by_cases hcross : ∃ q ∈ paths, s.Crosses q id
          · exact hboth id hcross ⟨p, hp, v, hv, hl⟩ u hu ho
          · refine h.opened id ih List.not_mem_nil (fun q hq hc => ?_) u hu ho
            exact hcross ⟨q, hq, hc⟩

end Store

/-! ### Subscriptions -/

theorem Registry.mem_refresh {r : Registry} {reach : List String → CachePath → List String}
    {sub : Subscription} (h : sub ∈ (r.refresh reach).entries) {paths : List CachePath}
    (hp : sub.paths = some paths) : sub.reached = paths.foldl reach [] := by
  obtain ⟨t, _, rfl⟩ := List.mem_map.mp h
  rw [Subscription.refresh] at hp ⊢
  split at hp
  · rename_i hn
    rw [hn] at hp
    cases hp
  · rename_i ps hps
    rw [hps] at hp
    cases hp
    rfl

/-- The operations after which it is looked again what the subscribed paths depend on. -/
def Event.looksAgain : Event → Bool
  | .set _ _ | .write _ _ | .restore _ | .subscribe _ => true
  | _ => false

theorem set_refreshes {c d : Cache} {now : Nat} {payload : Json} {skipNotify : Bool}
    {notice : Notice} (h : c.set now payload skipNotify = .ok (d, notice)) :
    d.registry = c.registry.refresh d.store.reach := by
  cases payload with
  | object roots =>
      cases hr : payloadRoots roots with
      | error e =>
          simp only [set, hr] at h
          cases h
      | ok rs =>
          simp only [set, hr] at h
          cases h
          rfl
  | null => cases h
  | bool b => cases h
  | number n => cases h
  | string s => cases h
  | array items => cases h

theorem write_refreshes {c d : Cache} {now : Nat} {path : CachePath} {value : Json}
    {notice : Notice} (h : c.write now path value = (d, some notice)) :
    d.registry = c.registry.refresh d.store.reach := by
  rw [write] at h
  split at h
  · split at h
    · rename_i hset
      cases h
      exact set_refreshes hset
    · cases h
  · split at h
    · cases h
    · dsimp only at h
      split at h
      · cases h
      · cases h
        rfl

theorem restore_refreshes {c d : Cache} {now : Nat} {snapshot : Snapshot} {notice : Notice}
    (h : c.restore now snapshot = .ok (d, notice)) :
    d.registry = c.registry.refresh d.store.reach := by
  cases hv : snapshot.validate with
  | error e =>
      simp only [restore, hv] at h
      cases h
  | ok u =>
      simp only [restore, hv] at h
      cases h
      rfl

theorem act_refreshes {c : Cache} {now : Nat} {e : Event} (he : e.looksAgain = true)
    (h : (c.act now e).succeeded = true) :
    ∃ r : Registry, (c.act now e).cache.registry = r.refresh (c.act now e).cache.store.reach := by
  cases e with
  | set payload skipNotify =>
      cases hs : c.set now payload skipNotify with
      | error e =>
          simp only [act, hs] at h
          cases h
      | ok r =>
          simp only [act, hs]
          exact ⟨_, set_refreshes hs⟩
  | write path value =>
      cases hw : c.write now path value with
      | mk d notice =>
          simp only [act, hw] at h ⊢
          obtain ⟨n, rfl⟩ := Option.isSome_iff_exists.mp h
          exact ⟨_, write_refreshes hw⟩
  | restore snapshot =>
      cases hs : c.restore now snapshot with
      | error e =>
          simp only [act, hs] at h
          cases h
      | ok r =>
          simp only [act, hs]
          exact ⟨_, restore_refreshes hs⟩
  | subscribe paths => exact ⟨_, rfl⟩
  | seed path value => cases he
  | evict path => cases he
  | sweep => cases he
  | clear => cases he
  | get path includeExpired => cases he
  | read path => cases he
  | unsubscribe id => cases he

/-- Once it was looked again what the paths of a subscription depend on, all that is recorded is
what they depend on, and what they cross is recorded. The record is exact if and only if for every
identity that one path crosses and the value of one leads to, what its object refers to is
recorded. -/
theorem reached_exact_iff (c : Cache) (now : Nat) {e : Event} {sub : Subscription}
    {paths : List CachePath} (looks : e.looksAgain = true) (done : (c.act now e).succeeded = true)
    (live : sub ∈ (c.act now e).cache.registry.entries) (subscribed : sub.paths = some paths) :
    (∀ id ∈ sub.reached, ∃ p ∈ paths, (c.act now e).cache.store.DependsOn p id) ∧
    (∀ p ∈ paths, ∀ id, (c.act now e).cache.store.Crosses p id → id ∈ sub.reached) ∧
    ((∀ id, id ∈ sub.reached ↔ ∃ p ∈ paths, (c.act now e).cache.store.DependsOn p id) ↔
      ∀ id, (∃ p ∈ paths, (c.act now e).cache.store.Crosses p id) →
        (∃ p ∈ paths, (c.act now e).cache.store.LeadsTo p id) →
        ∀ u, Fields.get? (c.act now e).cache.store.objects id = some u →
          u.references ⊆ sub.reached) := by
  obtain ⟨r, hr⟩ := act_refreshes looks done
  rw [hr] at live
  have found := (c.act now e).cache.store.collected_foldl [] paths
  rw [← Registry.mem_refresh live subscribed] at found
  refine ⟨fun id hid => ?_, found.crossed, found.exact_iff⟩
  exact (found.sound id hid).resolve_left List.not_mem_nil

/-- A cache with a user who has a friend. -/
def befriended : Cache :=
  ((new {}).act 0 (.set (.object [("query", .object [("user",
    .object [("__typename", .string "U"), ("friend",
      .object [("__typename", .string "F"), ("id", .int 2), ("name", .string "x")]),
      ("id", .int 1), ("name", .string "a")])])]) false)).cache

def userPath : CachePath := { root := .query, field := "user" }

def userName : CachePath := { root := .query, field := "user", rest := ["name"] }

/-- With the user before the name of the user, the record is exact. -/
theorem reached_exact_iff_user_first :
    ∃ sub ∈ (befriended.act 0 (.subscribe (some [userPath, userName]))).cache.registry.entries,
      sub.paths = some [userPath, userName] ∧
      ∀ id, id ∈ sub.reached ↔ ∃ p ∈ [userPath, userName],
        (befriended.act 0 (.subscribe (some [userPath, userName]))).cache.store.DependsOn p id := by
  have live : { id := 1, paths := some [userPath, userName], reached := ["U:1", "F:2"] } ∈
      (befriended.act 0 (.subscribe (some [userPath, userName]))).cache.registry.entries := by
    have entries : (befriended.act 0
        (.subscribe (some [userPath, userName]))).cache.registry.entries =
        [{ id := 1, paths := some [userPath, userName], reached := ["U:1", "F:2"] }] := by cbv
    rw [entries]
    exact List.mem_cons_self
  refine ⟨_, live, rfl, ?_⟩
  refine (reached_exact_iff befriended 0 rfl rfl live rfl).2.2.mpr fun id _ _ u hu => ?_
  have closed : ∀ p ∈ (befriended.act 0
      (.subscribe (some [userPath, userName]))).cache.store.objects,
      p.2.references ⊆ ["U:1", "F:2"] := by decide
  exact closed (id, u) (Fields.mem_of_get? hu)

/-- With the name of the user before the user, the friend is not recorded, though the second path
leads to that friend: the first path has crossed the user, so the user is not opened any more. -/
theorem name_first_misses_friend :
    Reachable {} 0 befriended ∧
    (befriended.act 0 (.subscribe (some [userName, userPath]))).succeeded = true ∧
    ∃ sub ∈ (befriended.act 0 (.subscribe (some [userName, userPath]))).cache.registry.entries,
      sub.paths = some [userName, userPath] ∧ "F:2" ∉ sub.reached ∧
      (befriended.act 0 (.subscribe (some [userName, userPath]))).cache.store.DependsOn userPath
        "F:2" := by
  refine ⟨.act (.new 0) (Nat.le_refl 0) _, rfl,
    { id := 1, paths := some [userName, userPath], reached := ["U:1"] }, ?_, rfl, by decide, ?_⟩
  · have entries : (befriended.act 0
        (.subscribe (some [userName, userPath]))).cache.registry.entries =
        [{ id := 1, paths := some [userName, userPath], reached := ["U:1"] }] := by cbv
    rw [entries]
    exact List.mem_cons_self
  · refine .inr ⟨.reference "U:1", by cbv, ?_⟩
    exact .through (.here List.mem_cons_self) (by cbv) List.mem_cons_self

end LazyGraph.Cache
