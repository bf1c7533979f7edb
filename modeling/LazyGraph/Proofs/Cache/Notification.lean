import LazyGraph.Proofs.Cache.Divergence
import LazyGraph.Proofs.Cache.Failure
import LazyGraph.Proofs.Cache.Invariant
import LazyGraph.Proofs.Cache.Reach
import LazyGraph.Proofs.Cache.RoundTrip
import LazyGraph.Proofs.Cache.Touched
import Mathlib.Data.List.Nodup

/-!
Who is told of a write. A listener is called once if the write concerns its subscription, and else
not at all; and a write changes what is at a subscribed path only if it concerns the subscription
or hides the change: it ends above the path, where the rest of the way goes through a reference
that the write has put there.
-/
namespace LazyGraph.Cache

/-! ### Live subscriptions -/

/-- The live subscriptions have numbers of their own, and the next number is free. -/
structure Registry.Numbered (r : Registry) : Prop where
  nodup : (r.entries.map (·.id)).Nodup
  below : ∀ sub ∈ r.entries, sub.id < r.nextId

namespace Registry.Numbered

variable {r : Registry}

theorem refresh (h : r.Numbered) (reach : List String → CachePath → List String) :
    (r.refresh reach).Numbered := by
  have hid : ∀ sub : Subscription, (sub.refresh reach).id = sub.id := by
    intro sub
    rw [Subscription.refresh]
    split <;> rfl
  have hmap : (r.refresh reach).entries.map (·.id) = r.entries.map (·.id) := by
    rw [Registry.refresh, List.map_map]
    exact List.map_congr_left fun sub _ => hid sub
  refine ⟨hmap ▸ h.nodup, fun sub hsub => ?_⟩
  obtain ⟨before, hbefore, rfl⟩ := List.mem_map.mp hsub
  exact hid before ▸ h.below before hbefore

theorem add (h : r.Numbered) (paths : Option (List CachePath)) : (r.add paths).2.Numbered := by
  constructor
  · rw [Registry.add, List.map_append, List.nodup_append]
    refine ⟨h.nodup, List.nodup_singleton _, fun id hid next hnext => ?_⟩
    obtain ⟨sub, hsub, rfl⟩ := List.mem_map.mp hid
    obtain rfl := List.mem_singleton.mp hnext
    exact Nat.ne_of_lt (h.below sub hsub)
  · intro sub hsub
    rcases List.mem_append.mp hsub with hsub | hsub
    · exact Nat.lt_succ_of_lt (h.below sub hsub)
    · rw [List.mem_singleton.mp hsub]
      exact Nat.lt_succ_self _

theorem remove (h : r.Numbered) (id : Nat) : (r.remove id).Numbered :=
  ⟨h.nodup.sublist (List.filter_sublist.map _),
    fun sub hsub => h.below sub (List.mem_filter.mp hsub).1⟩

/-- A listener is called once if its subscription is concerned, and else not at all. -/
theorem count_concerned (h : r.Numbered) {sub : Subscription} (live : sub ∈ r.entries)
    (writes : List Write) (touched : List String) :
    (r.concerned writes touched).count sub.id = 1 ↔ sub.isConcerned writes touched = true := by
  have hnodup : (r.concerned writes touched).Nodup :=
    h.nodup.sublist (List.filter_sublist.map _)
  rw [hnodup.count]
  have hmem : sub.id ∈ r.concerned writes touched ↔ sub.isConcerned writes touched = true := by
    refine ⟨fun hm => ?_, fun hc => List.mem_map_of_mem (List.mem_filter.mpr ⟨live, hc⟩)⟩
    obtain ⟨other, hother, hid⟩ := List.mem_map.mp hm
    obtain ⟨hlive, hc⟩ := List.mem_filter.mp hother
    obtain rfl := List.inj_on_of_nodup_map h.nodup hlive live hid
    exact hc
  rw [← hmem]
  split
  · exact ⟨fun _ => ‹_›, fun _ => rfl⟩
  · exact ⟨nofun, fun hm => absurd hm ‹_›⟩

end Registry.Numbered

theorem act_numbered {c : Cache} (h : c.registry.Numbered) (now : Nat) (e : Event) :
    (c.act now e).cache.registry.Numbered := by
  cases e with
  | set payload skipNotify =>
      cases hs : c.set now payload skipNotify with
      | error e =>
          simp only [act, hs]
          exact h
      | ok r =>
          simp only [act, hs]
          exact set_refreshes hs ▸ h.refresh _
  | write path value =>
      cases hw : c.write now path value with
      | mk d notice =>
          simp only [act, hw]
          cases notice with
          | none => rcases write_failed hw with ⟨_, rfl⟩ | ⟨_, _, rfl⟩ <;> exact h
          | some notice => exact write_refreshes hw ▸ h.refresh _
  | restore snapshot =>
      cases hs : c.restore now snapshot with
      | error e =>
          simp only [act, hs]
          exact h
      | ok r =>
          simp only [act, hs]
          exact restore_refreshes hs ▸ h.refresh _
  | seed path value =>
      simp only [act, seed]
      repeat' split
      all_goals exact h
  | evict path =>
      simp only [act, evict]
      repeat' split
      all_goals exact h
  | sweep => exact h
  | clear => exact h
  | get path includeExpired =>
      simp only [act, get]
      split <;> exact h
  | read path =>
      simp only [act, read]
      split <;> exact h
  | subscribe paths => exact (h.add paths).refresh _
  | unsubscribe id => exact h.remove id

theorem Reachable.numbered {options : Options} {now : Nat} {c : Cache}
    (run : Reachable options now c) : c.registry.Numbered := by
  induction run with
  | new now => exact ⟨List.nodup_nil, nofun⟩
  | act _ _ e ih => exact act_numbered ih _ e

/-! ### Writes and what they touch -/

/-- The operations that tell of their writes. -/
def Event.announces : Event → Bool
  | .set _ skipNotify => !skipNotify
  | .write _ _ => true
  | _ => false

/-- The writes of an operation, as they are given. -/
def Event.writes : Event → List Write
  | .set (.object roots) _ =>
    match payloadRoots roots with
    | .ok rs => writesOf (payloadFields rs)
    | .error _ => []
  | .write path value => [{ path, value }]
  | _ => []

/-- The identified objects that the writes of an operation go to. -/
def touched (c : Cache) (now : Nat) : Event → List String
  | .set (.object roots) _ =>
    match payloadRoots roots with
    | .ok rs => (storeFields c.options now c.store (payloadFields rs)).2.ids
    | .error _ => []
  | .write path value =>
    match path.rest, c.store.slot? path with
    | [], _ => (storeFields c.options now c.store [(path.root, path.field, value)]).2.ids
    | _, some slot =>
      (touchedBySlot (normalized c.options c.store.objects [] value).2.touched slot).ids
    | _, none => []
  | _ => []

/-- The ways in which an operation that tells of its writes is done: root fields are stored, or a
value is put into a slot. -/
inductive Announced (c : Cache) (now : Nat) (e : Event) (t : Store) : Prop
  | fields {fields : List (Operation × String × Json)} (writes : e.writes = writesOf fields)
    (touched : c.touched now e = (storeFields c.options now c.store fields).2.ids)
    (store : t = setStore c.options now c.store fields)
  | slot {path : CachePath} {value : Json} {slot : Slot} {u : Store} {replaced : Touched}
    (event : e = .write path value) (below : path.rest ≠ [])
    (found : c.store.slot? path = some slot)
    (touched : c.touched now e =
      (touchedBySlot (normalized c.options c.store.objects [] value).2.touched slot).ids)
    (placed : (mergedStore c.options c.store value).writeSlot? slot
      (normalized c.options c.store.objects [] value).1 = some u)
    (store : t = (u.dropPlaceholdersIn slot).dropReplacedPlaceholders replaced)

theorem act_announced {c : Cache} {now : Nat} {e : Event} (announces : e.announces = true)
    (done : (c.act now e).succeeded = true) :
    ∃ notice, (c.act now e).notice = some notice ∧
      notice.listeners = c.registry.concerned e.writes (c.touched now e) ∧
      Announced c now e (c.act now e).cache.store := by
  cases e with
  | set payload skipNotify =>
      cases hs : c.set now payload skipNotify with
      | error e =>
          simp only [act, hs] at done
          cases done
      | ok r =>
          obtain ⟨roots, rs, rfl, hr, _⟩ := set_eq_ok hs
          obtain rfl : skipNotify = false := by simpa [Event.announces] using announces
          simp only [act, c.set_eq now hr, Event.writes, touched, hr]
          refine ⟨_, rfl, rfl, .fields ?_ ?_ rfl⟩
          · simp only [Event.writes, hr]
          · simp only [touched, hr]
  | write path value =>
      by_cases hr : path.rest = []
      · have hpath : path = { root := path.root, field := path.field } := by
          rw [← hr]
        have hwrites : Event.writes (.write path value) =
            writesOf [(path.root, path.field, value)] := by
          rw [Event.writes]
          exact congrArg (fun p => [Write.mk p value]) hpath
        have htouched : c.touched now (.write path value) =
            (storeFields c.options now c.store [(path.root, path.field, value)]).2.ids := by
          simp only [touched, hr]
        simp only [act, c.write_root_eq now value hr]
        refine ⟨_, rfl, ?_, .fields hwrites htouched rfl⟩
        rw [hwrites, htouched]
        rfl
      · cases hw : c.write now path value with
        | mk d notice =>
            simp only [act, hw] at done
            obtain ⟨n, rfl⟩ := Option.isSome_iff_exists.mp done
            obtain ⟨slot, u, _, hs, hu, _⟩ := write_done hr hw
            have htouched : c.touched now (.write path value) = (touchedBySlot
                (normalized c.options c.store.objects [] value).2.touched slot).ids := by
              simp only [touched, hs]
            simp only [act, c.write_slot_eq now value hr hs hu]
            refine ⟨_, rfl, ?_, .slot rfl hr hs htouched hu rfl⟩
            rw [htouched]
            rfl
  | restore snapshot => cases announces
  | seed path value => cases announces
  | evict path => cases announces
  | sweep => cases announces
  | clear => cases announces
  | get path includeExpired => cases announces
  | read path => cases announces
  | subscribe paths => cases announces
  | unsubscribe id => cases announces

/-! ### The data at a path, before and after -/

namespace Store

variable {options : Options} {now : Nat} {s u : Store} {path : CachePath} {v value : Json}

/-- What is still at a path after old data was dropped was there before. -/
theorem data?_of_sweep {maxEntries : Nat} (nodup : (Recency.keys s.containers).Nodup)
    (present : ((s.sweep now).enforceCapacity maxEntries).data? path = some v) :
    s.data? path = some v := by
  have hdropped := shrinks_dropContainers s (s.reclaimable now)
  have nodup' := nodup.sublist ((s.containers_sweep_sublist now).map Prod.fst)
  have hswept := (shrinks_enforceCapacity (s.sweep now) maxEntries).data? nodup' present
  rw [sweep, data?_collectObjects] at hswept
  exact hdropped.data? nodup hswept

/-- What is still at a path after other root fields were stored was there before, if nothing that
the path depends on is touched. -/
theorem data?_of_setStore {fields : List (Operation × String × Json)}
    (sound : s.Sound options now)
    (others : ∀ x ∈ fields, { root := x.1, field := x.2.1 } ≠ keyOf path)
    (untouched : ∀ id, s.DependsOn path id → id ∉ (storeFields options now s fields).2.ids)
    (present : (setStore options now s fields).data? path = some v) : s.data? path = some v := by
  obtain ⟨htells, hkeeps⟩ := storeFields_keeps options now s fields
  have hstored : (storeFields options now s fields).1.data? path = s.data? path :=
    data?_congr (hkeeps (keyOf path) others) fun id hd => htells.same id (untouched id hd)
  have hmarks := shrinks_dropReplacedPlaceholders (storeFields options now s fields).1
    (storeFields options now s fields).2
  have nodup := (sound.storeFields fields).nodup
  rw [← hstored]
  exact hmarks.data? nodup (data?_of_sweep (nodup.sublist (hmarks.containers.map _)) present)

theorem ids_touchedBySlot {touched : Touched} {slot : Slot} {id : String}
    (h : id ∉ (touchedBySlot touched slot).ids) : id ∉ touched.ids ∧ slot.owner ≠ .object id := by
  obtain ⟨owner, segments⟩ := slot
  cases owner with
  | container key => exact ⟨h, nofun⟩
  | object other =>
      have hadd : id ≠ other ∧ id ∉ touched.ids := by
        rw [touchedBySlot] at h
        split at h
        · rename_i heq _
          cases heq
          exact not_or.mp fun hm => h (Normalizer.mem_ids_add.mpr hm)
        · rename_i heq _
          cases heq
          exact not_or.mp fun hm => h (Normalizer.mem_ids_add.mpr hm)
        · rename_i heq
          cases heq
      exact ⟨hadd.2, fun e => hadd.1 (Owner.object.inj e).symm⟩

/-- A value put into a slot leaves the data at a path, if nothing that the path depends on is
touched, and if neither path is a part of the other one where they share a container. -/
theorem data?_of_writeSlot? {written : CachePath} {slot : Slot}
    (found : s.slot? written = some slot)
    (placed : (mergedStore options s value).writeSlot? slot
      (normalized options s.objects [] value).1 = some u)
    (untouched : ∀ id, s.DependsOn path id →
      id ∉ (touchedBySlot (normalized options s.objects [] value).2.touched slot).ids)
    (apart : keyOf written = keyOf path → s.Canonical written ∧ s.Canonical path ∧
      written.rest.getLast? ≠ some referenceKey ∧
      ¬ written.rest <+: path.rest ∧ ¬ path.rest <+: written.rest) :
    u.data? path = s.data? path := by
  obtain ⟨v, hv, placed⟩ := Option.bind_eq_some_iff.mp placed
  obtain ⟨w, hw, placed⟩ := Option.bind_eq_some_iff.mp placed
  have hvalue := ownerValue?_withOwnerValue hv w
  rw [Option.some.inj placed] at hvalue
  have hobjects : ∀ id, s.DependsOn path id →
      Fields.get? u.objects id = Fields.get? s.objects id := by
    intro id hd
    obtain ⟨hid, howner⟩ := ids_touchedBySlot (untouched id hd)
    refine (hvalue (.object id)).trans ((if_neg (Ne.symm howner)).trans ?_)
    exact (tells_normalized options s.objects [] value).same id hid
  by_cases ho : .container (keyOf path) = slot.owner
  · obtain ⟨c, hc, hfound⟩ := Option.bind_eq_some_iff.mp found
    obtain ⟨hslot, hunbroken⟩ := slotFrom?_container ho.symm hfound
    have hkey : keyOf written = keyOf path := by
      rw [hslot] at ho
      exact (Owner.container.inj ho).symm
    obtain ⟨hwritten, hread, hlast, hbelow, habove⟩ := apart hkey
    have hdata : s.ownerValue? (.container (keyOf path)) = some c.data := by
      rw [ownerValue?, ← hkey, hc]
      rfl
    obtain rfl : c.data = v := by
      rw [← ho] at hv
      exact Option.some.inj (hdata.symm.trans hv)
    rw [hslot, List.nil_append] at hw
    have hway : Json.descend? u.objects w path.rest = Json.descend? u.objects c.data path.rest :=
      Json.descend?_writeAt? hw hunbroken hlast (hwritten c.data (hkey ▸ hdata))
        (hread c.data hdata) hbelow habove
    have hmid : ({ u with containers := s.containers } : Store).data? path = s.data? path :=
      data?_congr rfl hobjects
    rw [← hmid, data?, data?, valueAt?_eq_bind, valueAt?_eq_bind, hvalue, if_pos ho]
    have hcontainer : ({ u with containers := s.containers } : Store).ownerValue?
        (.container (keyOf path)) = some c.data := hdata
    rw [hcontainer, Option.bind_some, Option.bind_some, hway]
  · exact data?_congr ((hvalue _).trans (if_neg ho)) hobjects

end Store

/-! ### Changes that are told -/

theorem isPrefixOf_iff {p q : CachePath} :
    p.isPrefixOf q = true ↔ keyOf p = keyOf q ∧ p.rest <+: q.rest := by
  simp [CachePath.isPrefixOf, keyOf, List.isPrefixOf_iff_prefix]

/-- A write may change what is at a path without showing it: its value as it is given ends above the
path, or its own path names a position of a list in another way, or ends on the key of
references. -/
def Write.Hides (s : Store) (w : Write) (path : CachePath) : Prop :=
  (w.path.isPrefixOf path = true ∧ w.value.walk? (path.rest.drop w.path.rest.length) = none) ∨
  keyOf w.path = keyOf path ∧
    (¬ s.Canonical w.path ∨ w.path.rest.getLast? = some referenceKey)

theorem Write.not_isPrefixOf {s : Store} {w : Write} {path : CachePath}
    (unconcerned : w.concerns path = false) (shown : ¬ w.Hides s path) :
    ¬ path.isPrefixOf w.path = true ∧ ¬ w.path.isPrefixOf path = true := by
  rw [Write.concerns, Bool.or_eq_false_iff, Bool.and_eq_false_iff] at unconcerned
  obtain ⟨habove, hbelow⟩ := unconcerned
  refine ⟨fun h => Bool.false_ne_true (habove.symm.trans h), fun h => shown (.inl ⟨h, ?_⟩)⟩
  exact Option.not_isSome_iff_eq_none.mp fun hsome =>
    hbelow.elim (fun hf => Bool.false_ne_true (hf.symm.trans h))
      fun hf => Bool.false_ne_true (hf.symm.trans hsome)

/-- What is at a path after writes was there before, if the writes neither concern the path nor hide
a change of it, and if nothing that the path depends on is touched. -/
theorem Announced.data? {c : Cache} {now : Nat} {e : Event} {t : Store} {path : CachePath}
    {v : Json} (h : Announced c now e t) (sound : c.store.Sound c.options now)
    (canonical : c.store.Canonical path)
    (unconcerned : ∀ w ∈ e.writes, w.concerns path = false)
    (shown : ∀ w ∈ e.writes, ¬ w.Hides c.store path)
    (untouched : ∀ id, c.store.DependsOn path id → id ∉ c.touched now e)
    (present : t.data? path = some v) : c.store.data? path = some v := by
  cases h with
  | @fields fs writes touched store =>
      rw [touched] at untouched
      rw [store] at present
      refine Store.data?_of_setStore sound (fun x hx hkey => ?_) untouched present
      have hw : { path := { root := x.1, field := x.2.1 }, value := x.2.2 } ∈ e.writes := by
        rw [writes]
        exact List.mem_map_of_mem hx
      refine (Write.not_isPrefixOf (unconcerned _ hw) (shown _ hw)).2 (isPrefixOf_iff.mpr ?_)
      exact ⟨hkey, List.nil_prefix⟩
  | @slot written value slot u replaced event below found touched placed store =>
      have hw : { path := written, value } ∈ e.writes := by
        rw [event]
        exact List.mem_singleton.mpr rfl
      obtain ⟨habove, hbelow⟩ := Write.not_isPrefixOf (unconcerned _ hw) (shown _ hw)
      rw [touched] at untouched
      have hdata : u.data? path = c.store.data? path := by
        refine Store.data?_of_writeSlot? found placed untouched fun hkey => ?_
        have hspelled := not_and.mp (not_or.mp (shown _ hw)).2 hkey
        obtain ⟨hcanonical, hlast⟩ := not_or.mp hspelled
        refine ⟨Classical.not_not.mp hcanonical, canonical, hlast, fun hp => ?_, fun hp => ?_⟩
        · exact hbelow (isPrefixOf_iff.mpr ⟨hkey, hp⟩)
        · exact habove (isPrefixOf_iff.mpr ⟨hkey.symm, hp⟩)
      rw [store] at present
      exact hdata ▸ present

theorem Subscription.isConcerned_iff {sub : Subscription} {paths : List CachePath}
    (h : sub.paths = some paths) {writes : List Write} {touched : List String} :
    sub.isConcerned writes touched = true ↔
      (∃ p ∈ paths, ∃ w ∈ writes, w.concerns p = true) ∨ ∃ id ∈ sub.reached, id ∈ touched := by
  simp [Subscription.isConcerned, h, List.any_eq_true]

/-- Where an operation changes what is at a path of a subscription, whose record has all that its
paths depend on, no listener is called twice, and that of the subscription is called if and only if
no write hides the change, or a write concerns a path of the subscription, or a recorded identity
is touched. -/
theorem notified_iff {options : Options} {last now : Nat} {c : Cache} {e : Event}
    {sub : Subscription} {paths : List CachePath} {q : CachePath} {v : Json}
    (run : Reachable options last c) (passed : last ≤ now) (announces : e.announces = true)
    (done : (c.act now e).succeeded = true) (live : sub ∈ c.registry.entries)
    (subscribed : sub.paths = some paths) (canonical : ∀ p ∈ paths, c.store.Canonical p)
    (recorded : ∀ p ∈ paths, ∀ id, c.store.DependsOn p id → id ∈ sub.reached) (member : q ∈ paths)
    (present : ((c.act now e).cache.get now q true).1.data = some v)
    (changed : (c.get now q true).1.data ≠ some v) :
    ∃ notice, (c.act now e).notice = some notice ∧ notice.listeners.Nodup ∧
      (notice.listeners.count sub.id = 1 ↔
        (∀ w ∈ e.writes, ¬ w.Hides c.store q) ∨
        (∃ p ∈ paths, ∃ w ∈ e.writes, w.concerns p = true) ∨
        ∃ id ∈ sub.reached, id ∈ c.touched now e) := by
  obtain ⟨notice, hnotice, hlisteners, hannounced⟩ := act_announced announces done
  obtain ⟨hoptions, hsound, _⟩ := run.sound
  rw [get_data_eq_data?] at present changed
  refine ⟨notice, hnotice, ?_, ?_⟩
  · rw [hlisteners]
    exact run.numbered.nodup.sublist (List.filter_sublist.map _)
  · rw [hlisteners, run.numbered.count_concerned live, Subscription.isConcerned_iff subscribed]
    refine ⟨.inr, fun h => h.elim (fun shown => ?_) id⟩
    refine Classical.byContradiction fun hnone => changed ?_
    obtain ⟨hpaths, hids⟩ := not_or.mp hnone
    refine hannounced.data? (hoptions ▸ hsound.later passed) (canonical q member)
      (fun w hw => ?_) shown (fun id hd hid => ?_) present
    · exact Bool.eq_false_iff.mpr fun hc => hpaths ⟨q, member, w, hw, hc⟩
    · exact hids ⟨id, recorded q member id hd, hid⟩

/-! ### A user under two root fields -/

/-- A user of the type `U`. -/
def userRecord (id : Nat) (more : List (String × Json)) : Json :=
  .object ([("__typename", .string "U"), ("id", .int id)] ++ more)

/-- Two users, and a subscription to the name of the one under `user`. -/
def nameWatched : Cache :=
  (new {}).after 0
    [.set (.object [("query", .object [("other", userRecord 2 [("name", .string "b")]),
      ("user", userRecord 1 [("name", .string "a")])])]) false,
    .subscribe (some [userName])]

theorem nameWatched_reachable : Reachable {} 0 nameWatched := (Reachable.new 0).after _

theorem nameWatched_live : { id := 1, paths := some [userName], reached := ["U:1"] } ∈
    nameWatched.registry.entries := by
  have entries : nameWatched.registry.entries =
      [{ id := 1, paths := some [userName], reached := ["U:1"] }] := by cbv
  rw [entries]
  exact List.mem_cons_self

theorem nameWatched_user : nameWatched.store.ownerValue? (.container (keyOf userName)) =
    some (.reference "U:1") := by cbv

theorem nameWatched_canonical : nameWatched.store.Canonical userName := by
  intro v hv
  obtain rfl := Option.some.inj (nameWatched_user.symm.trans hv)
  have hresolve : (Json.reference "U:1").resolve? nameWatched.store.objects =
      some (userRecord 1 [("name", .string "a")]) := by cbv
  exact ⟨fun items hi => (by cases hresolve.symm.trans hi), fun u _ => trivial⟩

/-- The name of the user depends on that user alone. -/
theorem nameWatched_recorded {id : String} (h : nameWatched.store.DependsOn userName id) :
    id ∈ ["U:1"] := by
  rcases h with hc | ⟨u, hu, hl⟩
  · obtain ⟨v, hv, hc⟩ := Store.crosses_iff.mp hc
    obtain rfl := Option.some.inj (nameWatched_user.symm.trans hv)
    cases hc with
    | here hr =>
        have hid : "U:1" = id := by simpa [Json.reference] using Json.referenceId?_eq_some_iff.mp hr
        exact hid ▸ List.mem_cons_self
    | further _ hc => cases hc
  · have hname : nameWatched.store.valueAt? userName = some (.string "a") := by cbv
    obtain rfl := Option.some.inj (hname.symm.trans hu)
    exact absurd hl (Json.not_leads_of_references rfl)

/-- The name of the user changes under another root field, and the listener is called. -/
theorem notified_iff_other :
    ∃ notice, (nameWatched.act 0 (.set (.object [("query", .object
        [("other", userRecord 1 [("name", .string "z")])])]) false)).notice = some notice ∧
      notice.listeners.count 1 = 1 := by
  have changed : (nameWatched.get 0 userName true).1.data ≠ some (.string "z") := by
    have before : (nameWatched.get 0 userName true).1.data = some (.string "a") := by cbv
    rw [before]
    simp
  obtain ⟨notice, hnotice, _, hcalled⟩ := notified_iff
    (e := .set (.object [("query", .object [("other", userRecord 1 [("name", .string "z")])])])
      false) (v := .string "z") nameWatched_reachable (Nat.le_refl 0) rfl rfl nameWatched_live rfl
    (fun p hp => List.mem_singleton.mp hp ▸ nameWatched_canonical)
    (fun p hp id hd => nameWatched_recorded (List.mem_singleton.mp hp ▸ hd))
    List.mem_cons_self (by cbv) changed
  refine ⟨notice, hnotice, hcalled.mpr (.inl fun w hw => ?_)⟩
  obtain rfl := List.mem_singleton.mp hw
  rintro (⟨hp, _⟩ | ⟨hk, _⟩)
  · exact absurd hp (by decide)
  · exact absurd hk (by decide)

/-- The reference under `user` is put in place of the one to the other user, and so the name there
changes; the payload has no name, the other user was not recorded, and the listener is not
called. -/
theorem repointed_user_not_told :
    Reachable {} 0 nameWatched ∧ nameWatched.store.Canonical userName ∧
    (∃ sub ∈ nameWatched.registry.entries, sub.paths = some [userName] ∧
      ∀ id, nameWatched.store.DependsOn userName id → id ∈ sub.reached) ∧
    let after := nameWatched.act 0 (.set (.object [("query", .object
      [("user", userRecord 2 [])])]) false)
    (nameWatched.get 0 userName true).1.data = some (.string "a") ∧
    (after.cache.get 0 userName true).1.data = some (.string "b") ∧
    after.notice.map (·.listeners) = some [] := by
  exact ⟨nameWatched_reachable, nameWatched_canonical,
    ⟨_, nameWatched_live, rfl, fun id => nameWatched_recorded⟩, by cbv, by cbv, by cbv⟩

end LazyGraph.Cache
