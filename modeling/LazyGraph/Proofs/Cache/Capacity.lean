import LazyGraph.Proofs.Cache.Failure
import LazyGraph.Proofs.Cache.Repetition

/-!
Room for the containers. Where there are too many, those that are never dropped stay, and of the
others the most recently used ones, as many as fit beside them. In every run the containers stand
in the order in which they were last read or stored.
-/
namespace LazyGraph.Cache

/-! ### What is kept -/

/-- The containers that may be dropped. -/
def weak (l : Recency ContainerKey Container) : Recency ContainerKey Container :=
  l.filter (·.2.lifetime.isWeak)

/-- The containers without those that may be dropped, but for the `room` most recently used ones
of them. -/
def sparing (room : Nat) (l : Recency ContainerKey Container) : Recency ContainerKey Container :=
  l.filter fun p => !p.2.lifetime.isWeak || (Recency.keys ((weak l).take room)).contains p.1

/-- What is kept of containers where `maxEntries` of them are wanted: those that are never dropped,
and of the others the most recently used ones, as many as there is room for. -/
def kept (maxEntries : Nat) (l : Recency ContainerKey Container) : Recency ContainerKey Container :=
  sparing (maxEntries - l.countP (!·.2.lifetime.isWeak)) l

section

variable {l before after : Recency ContainerKey Container} {p : ContainerKey × Container}

theorem sparing_sublist (room : Nat) (l : Recency ContainerKey Container) :
    (sparing room l).Sublist l :=
  List.filter_sublist

theorem sparing_eq_self {room : Nat} (h : (weak l).length ≤ room) : sparing room l = l := by
  unfold sparing
  rw [List.take_of_length_le h]
  apply List.filter_eq_self.mpr
  intro p hp
  cases hw : p.2.lifetime.isWeak with
  | false => rfl
  | true =>
      have hmem : p ∈ weak l := List.mem_filter.mpr ⟨hp, hw⟩
      rw [Bool.not_true, Bool.false_or, List.contains_iff_mem]
      exact Recency.mem_keys_of_mem hmem

theorem length_weak_add (l : Recency ContainerKey Container) :
    (weak l).length + l.countP (!·.2.lifetime.isWeak) = l.length := by
  rw [weak, ← List.countP_eq_length_filter]
  have htotal := List.length_eq_countP_add_countP
    (fun p : ContainerKey × Container => p.2.lifetime.isWeak) (l := l)
  simpa using htotal.symm

theorem weak_eq_nil (h : ∀ q ∈ l, q.2.lifetime.isWeak = false) : weak l = [] := by
  apply List.filter_eq_nil_iff.mpr
  intro q hq
  rw [h q hq]
  exact Bool.false_ne_true

theorem weak_append (hafter : ∀ q ∈ after, q.2.lifetime.isWeak = false) :
    weak (before ++ after) = weak before := by
  have hnone := weak_eq_nil hafter
  unfold weak at hnone ⊢
  rw [List.filter_append, hnone, List.append_nil]

theorem weak_append_cons (hp : p.2.lifetime.isWeak = true)
    (hafter : ∀ q ∈ after, q.2.lifetime.isWeak = false) :
    weak (before ++ p :: after) = weak before ++ [p] := by
  have hcons : weak (p :: after) = p :: weak after := List.filter_cons_of_pos hp
  have happend : weak (before ++ p :: after) = weak before ++ weak (p :: after) :=
    List.filter_append before (p :: after)
  rw [happend, hcons, weak_eq_nil hafter]

/-- Without the least recently used one of those that may be dropped, what is spared is the same. -/
theorem sparing_append_cons (nodup : (Recency.keys (before ++ p :: after)).Nodup)
    (hp : p.2.lifetime.isWeak = true) (hafter : ∀ q ∈ after, q.2.lifetime.isWeak = false)
    {room : Nat} (hroom : room ≤ (weak before).length) :
    sparing room (before ++ p :: after) = sparing room (before ++ after) := by
  have htake : (weak (before ++ p :: after)).take room = (weak before).take room := by
    rw [weak_append_cons hp hafter, List.take_append_of_le_length hroom]
  have hdropped : ¬ (Recency.keys ((weak before).take room)).contains p.1 = true := by
    rw [List.contains_iff_mem]
    intro hmem
    obtain ⟨q, hq, hkey⟩ := List.mem_map.mp hmem
    have hbefore : q ∈ before := (List.mem_filter.mp (List.mem_of_mem_take hq)).1
    have hsplit : (Recency.keys before ++ p.1 :: Recency.keys after).Nodup := by
      simpa [Recency.keys] using nodup
    have hapart := (List.nodup_append.mp hsplit).2.2
    exact hapart q.1 (Recency.mem_keys_of_mem hbefore) p.1 List.mem_cons_self hkey
  unfold sparing
  rw [htake, weak_append hafter, List.filter_append, List.filter_append, List.filter_cons_of_neg]
  simpa [hp] using hdropped

end

namespace Store

/-- The least recently used container that may be dropped, with those on both sides of it. -/
theorem exists_victim {s : Store} {key : ContainerKey} (h : s.victim? = some key) :
    ∃ before c after, s.containers = before ++ (key, c) :: after ∧ c.lifetime.isWeak = true ∧
      ∀ q ∈ after, q.2.lifetime.isWeak = false := by
  obtain ⟨⟨k, c⟩, hfound, rfl⟩ := Option.map_eq_some_iff.mp h
  obtain ⟨hweak, later, earlier, hsplit, hlater⟩ := List.find?_eq_some_iff_append.mp hfound
  refine ⟨earlier.reverse, c, later.reverse, ?_, hweak, ?_⟩
  · rw [← List.reverse_reverse s.containers, hsplit]
    simp
  · intro q hq
    have hq := hlater q (List.mem_reverse.mp hq)
    simpa using hq

theorem containers_dropVictims {s : Store} (nodup : (Recency.keys s.containers).Nodup)
    (count : Nat) : (s.dropVictims count).containers =
      sparing ((weak s.containers).length - count) s.containers := by
  induction count generalizing s with
  | zero => exact (sparing_eq_self (Nat.le_refl _)).symm
  | succ count ih =>
      rw [dropVictims]
      cases hv : s.victim? with
      | none =>
          refine (sparing_eq_self ?_).symm
          rw [weak_eq_nil (victim?_eq_none.mp hv)]
          exact Nat.zero_le _
      | some key =>
          obtain ⟨before, c, after, hsplit, hweak, hafter⟩ := exists_victim hv
          have hleft : (s.dropContainer key).containers = before ++ after := by
            change Recency.erase s.containers key = before ++ after
            rw [hsplit]
            exact Recency.erase_append_cons (hsplit ▸ nodup)
          have hlength : (weak s.containers).length = (weak before).length + 1 := by
            rw [hsplit, weak_append_cons hweak hafter, List.length_append, List.length_singleton]
          have hnodup : (Recency.keys (s.dropContainer key).containers).Nodup :=
            Recency.nodup_keys_erase nodup key
          dsimp only
          rw [ih hnodup, hleft, weak_append hafter, hlength, Nat.add_sub_add_right, hsplit]
          exact (sparing_append_cons (hsplit ▸ nodup) hweak hafter (Nat.sub_le _ _)).symm

/-- Where there are too many containers, the least recently used ones are dropped. -/
theorem containers_enforceCapacity {s : Store} (nodup : (Recency.keys s.containers).Nodup)
    (maxEntries : Nat) :
    (s.enforceCapacity maxEntries).containers = kept maxEntries s.containers := by
  have hcount := length_weak_add s.containers
  rw [enforceCapacity, containers_dropVictims nodup, kept, sparing, sparing]
  have htake : (weak s.containers).take
      ((weak s.containers).length - (s.containers.length - maxEntries)) =
      (weak s.containers).take (maxEntries - s.containers.countP (!·.2.lifetime.isWeak)) := by
    rw [List.take_eq_take_iff]
    omega
  rw [htake]

end Store

/-! ### Uses -/

/-- The containers of root fields. -/
def fieldKeys (fields : List (Operation × String × Json)) : List ContainerKey :=
  fields.map fun x => { root := x.1, field := x.2.1 }

/-- The root fields of a payload; one that is refused has none. -/
def fieldsOf : Json → List (Operation × String × Json)
  | .object roots =>
    match payloadRoots roots with
    | .ok rs => payloadFields rs
    | .error _ => []
  | _ => []

/-- The containers that an operation reads or stores when it is done, in this order. What is read,
written, seeded or evicted below a root field is no use of its container, unless it is asked for. -/
def Event.uses : Event → List ContainerKey
  | .set payload _ => fieldKeys (fieldsOf payload)
  | .write path _ => if path.rest = [] then [keyOf path] else []
  | .seed path _ => if path.rest = [] then [keyOf path] else []
  | .restore snapshot => fieldKeys (snapshotFields snapshot)
  | .get path _ => [keyOf path]
  | .read path => [keyOf path]
  | _ => []

/-- A log of uses after an operation; one that fails uses nothing. -/
def Event.logged (e : Event) (o : Outcome) (log : List ContainerKey) : List ContainerKey :=
  if o.succeeded then e.uses.reverse ++ log else log

/-- Runs from an empty cache, with the containers that were used, the latest use first. -/
inductive Logged (options : Options) : Nat → Cache → List ContainerKey → Prop
  | new (now : Nat) : Logged options now (new options) []
  | act {now later : Nat} {c : Cache} {log : List ContainerKey} (run : Logged options now c log)
    (passed : now ≤ later) (e : Event) :
    Logged options later (c.act later e).cache (e.logged (c.act later e) log)

/-! ### Where room is made -/

/-- The containers after root fields were put into theirs, without those past their time. -/
def arrived (options : Options) (now : Nat) (s : Store)
    (fields : List (Operation × String × Json)) : Recency ContainerKey Container :=
  (Recency.putAll (filled options now fields) s.containers).filter
    (!·.2.lifetime.isReclaimable now)

/-- The containers that the root fields of a snapshot go into. -/
def restocked (options : Options) (now : Nat) (fields : List (Operation × String × Json)) :
    List (ContainerKey × Container) :=
  fields.map fun x => ({ root := x.1, field := x.2.1 },
    { data := x.2.2, lifetime := .ofRoot x.1 options.maxAge options.staleWindow now })

/-- The containers among which an operation makes room, if it is one that does. -/
def Event.crowd (options : Options) (now : Nat) (s : Store) :
    Event → Option (Recency ContainerKey Container)
  | .set payload _ => some (arrived options now s (fieldsOf payload))
  | .write path value =>
    if path.rest = [] then some (arrived options now s [(path.root, path.field, value)]) else none
  | .seed path value =>
    if path.rest = [] then
      some (Recency.put s.containers (keyOf path)
        { data := value, lifetime := .ofRoot path.root options.maxAge options.staleWindow now })
    else none
  | .restore snapshot =>
    some (Recency.putAll (restocked options now (snapshotFields snapshot)) s.containers)
  | _ => none

variable {options : Options} {now : Nat} {c : Cache} {s : Store} {e : Event}
  {log : List ContainerKey} {crowd : Recency ContainerKey Container}

theorem containers_setStore (nodup : (Recency.keys s.containers).Nodup)
    (fields : List (Operation × String × Json)) :
    (setStore options now s fields).containers =
      kept options.maxEntries (arrived options now s fields) := by
  have hkept : (keptStore options now s fields).containers = arrived options now s fields :=
    containers_keptStore nodup
  have hnodup : (Recency.keys (keptStore options now s fields).containers).Nodup := by
    rw [hkept]
    exact (Recency.nodup_keys_putAll nodup _).sublist (List.filter_sublist.map _)
  have hroom := Store.containers_enforceCapacity hnodup options.maxEntries
  rw [hkept] at hroom
  exact hroom

theorem containers_fillContainers (fields : List (Operation × String × Json)) (s : Store) :
    (fillContainers options now s fields).containers =
      Recency.putAll (restocked options now fields) s.containers := by
  induction fields generalizing s with
  | nil => rfl
  | cons x fields ih => exact ih (fillContainer options now s x.1 x.2.1 x.2.2)

theorem containers_restored (nodup : (Recency.keys s.containers).Nodup) (snapshot : Snapshot) :
    (restored options now s snapshot).containers =
      kept options.maxEntries
        (Recency.putAll (restocked options now (snapshotFields snapshot)) s.containers) := by
  let placed := fillContainers options now
    { s with objects := (restoreObjects s.objects (snapshot.objects.getD [])).1 }
    (snapshotFields snapshot)
  let left := placed.dropReplacedPlaceholders
    (restoreObjects s.objects (snapshot.objects.getD [])).2
  have hleft : left.containers =
      Recency.putAll (restocked options now (snapshotFields snapshot)) s.containers :=
    containers_fillContainers _ _
  have hnodup : (Recency.keys left.containers).Nodup := by
    rw [hleft]
    exact Recency.nodup_keys_putAll nodup _
  rw [← hleft]
  exact Store.containers_enforceCapacity hnodup _

theorem containers_seededStore (nodup : (Recency.keys s.containers).Nodup) (path : CachePath)
    (value : Json) : (seededStore options now s path value).containers =
      kept options.maxEntries (Recency.put s.containers (keyOf path)
        { data := value
          lifetime := .ofRoot path.root options.maxAge options.staleWindow now }) := by
  have hput := Recency.nodup_keys_put nodup (keyOf path)
    { data := value, lifetime := .ofRoot path.root options.maxAge options.staleWindow now }
  unfold seededStore
  rw [Store.containers_enforceCapacity, Store.containers_markPlaceholder]
  rwa [Store.containers_markPlaceholder]

theorem seed_root (c : Cache) (now : Nat) {path : CachePath} (value : Json) (hr : path.rest = [])
    (absent : Recency.contains c.store.containers (keyOf path) = false) :
    c.seed now path value =
      (true, { c with store := seededStore c.options now c.store path value }) := by
  simp only [seed, hr, absent]
  rfl

/-- An operation that makes room keeps what there is room for. -/
theorem containers_act_of_crowd (nodup : (Recency.keys c.store.containers).Nodup)
    (hc : e.crowd c.options now c.store = some crowd) (done : (c.act now e).succeeded = true) :
    (c.act now e).cache.store.containers = kept c.options.maxEntries crowd := by
  cases e with
  | set payload skipNotify =>
      obtain rfl := Option.some.inj hc
      cases hs : c.set now payload skipNotify with
      | error e =>
          simp only [act, hs, Outcome.ofResult] at done
          cases done
      | ok r =>
          obtain ⟨roots, rs, rfl, hr, _, hd⟩ := set_eq_ok hs
          simp only [act, hs, Outcome.ofResult, hd, fieldsOf, hr]
          exact containers_setStore nodup _
  | write path value =>
      simp only [Event.crowd] at hc
      split at hc
      · rename_i hroot
        obtain rfl := Option.some.inj hc
        obtain ⟨d, notice, hw, _, hd⟩ := c.write_root now value hroot
        simp only [act, hw, hd]
        exact containers_setStore nodup _
      · cases hc
  | seed path value =>
      simp only [Event.crowd] at hc
      split at hc
      · rename_i hroot
        obtain rfl := Option.some.inj hc
        cases hcontains : Recency.contains c.store.containers (keyOf path) with
        | true =>
            simp only [act, seed, hroot, hcontains, if_true] at done
            cases done
        | false =>
            simp only [act, c.seed_root now value hroot hcontains]
            exact containers_seededStore nodup path value
      · cases hc
  | restore snapshot =>
      obtain rfl := Option.some.inj hc
      cases hs : c.restore now snapshot with
      | error e =>
          simp only [act, hs, Outcome.ofResult] at done
          cases done
      | ok r =>
          obtain ⟨_, _, hd⟩ := restore_eq_ok hs
          simp only [act, hs, Outcome.ofResult, hd]
          exact containers_restored nodup snapshot
  | _ => cases hc

/-! ### The order of use -/

theorem keys_filled (options : Options) (now : Nat) (fields : List (Operation × String × Json)) :
    Recency.keys (filled options now fields) = fieldKeys fields := by
  rw [Recency.keys, filled, List.map_map]
  rfl

theorem keys_restocked (options : Options) (now : Nat)
    (fields : List (Operation × String × Json)) :
    Recency.keys (restocked options now fields) = fieldKeys fields := by
  rw [Recency.keys, restocked, List.map_map]
  rfl

theorem inUseOrder_arrived (h : Recency.InUseOrder log s.containers)
    (fields : List (Operation × String × Json)) :
    Recency.InUseOrder ((fieldKeys fields).reverse ++ log) (arrived options now s fields) := by
  have hput := h.putAll (filled options now fields)
  rw [keys_filled] at hput
  exact hput.sublist List.filter_sublist

/-- The containers among which room is made stand in the order of their last use. -/
theorem inUseOrder_crowd (h : Recency.InUseOrder log s.containers)
    (hc : e.crowd options now s = some crowd) :
    Recency.InUseOrder (e.uses.reverse ++ log) crowd := by
  cases e with
  | set payload skipNotify =>
      obtain rfl := Option.some.inj hc
      exact inUseOrder_arrived h _
  | write path value =>
      simp only [Event.crowd] at hc
      split at hc
      · rename_i hroot
        obtain rfl := Option.some.inj hc
        simp only [Event.uses, hroot, if_true]
        exact inUseOrder_arrived h [(path.root, path.field, value)]
      · cases hc
  | seed path value =>
      simp only [Event.crowd] at hc
      split at hc
      · rename_i hroot
        obtain rfl := Option.some.inj hc
        simp only [Event.uses, hroot, if_true]
        exact h.put _ _
      · cases hc
  | restore snapshot =>
      obtain rfl := Option.some.inj hc
      have hput := h.putAll (restocked options now (snapshotFields snapshot))
      rwa [keys_restocked] at hput
  | _ => cases hc

theorem inUseOrder_withOwnerValue (h : Recency.InUseOrder log s.containers) (owner : Owner)
    (v : Json) : Recency.InUseOrder log (s.withOwnerValue owner v).containers := by
  cases owner with
  | container key =>
      have hupdate := h.update key fun c => { c with data := v }
      exact hupdate
  | object id => exact h

theorem inUseOrder_writeSlot? (h : Recency.InUseOrder log s.containers) {slot : Slot} {v : Json}
    {t : Store} (hw : s.writeSlot? slot v = some t) : Recency.InUseOrder log t.containers := by
  obtain ⟨u, _, hw⟩ := Option.bind_eq_some_iff.mp hw
  obtain ⟨w, _, ht⟩ := Option.bind_eq_some_iff.mp hw
  cases ht
  exact inUseOrder_withOwnerValue h slot.owner w

theorem inUseOrder_write (h : Recency.InUseOrder log c.store.containers) {path : CachePath}
    {value : Json} (hbelow : path.rest ≠ []) (done : (c.act now (.write path value)).succeeded) :
    Recency.InUseOrder log (c.act now (.write path value)).cache.store.containers := by
  cases hw : c.write now path value with
  | mk d notice =>
      cases notice with
      | none =>
          simp only [act, hw] at done
          cases done
      | some notice =>
          obtain ⟨slot, t, touched, _, ht, hd⟩ := write_done hbelow hw
          have hplaced := inUseOrder_writeSlot? (s := mergedStore c.options c.store value) h ht
          simp only [act, hw, hd]
          exact hplaced

theorem inUseOrder_seed (h : Recency.InUseOrder log c.store.containers) {path : CachePath}
    (value : Json) (hbelow : path.rest ≠ []) :
    Recency.InUseOrder log (c.seed now path value).2.store.containers := by
  unfold seed
  split
  · exact absurd ‹path.rest = []› hbelow
  · split
    · exact h
    · split
      · exact h
      · split
        · exact h
        · rename_i hplaced
          dsimp only
          rw [Store.containers_markPlaceholder]
          exact inUseOrder_writeSlot? h hplaced

theorem inUseOrder_evict (h : Recency.InUseOrder log c.store.containers) (path : CachePath) :
    Recency.InUseOrder log (c.evict path).2.store.containers := by
  unfold evict
  split
  · split
    · exact h.sublist List.filter_sublist
    · exact h
  · dsimp only
    split
    · rename_i removed
      obtain ⟨slot, _, removed⟩ := Option.bind_eq_some_iff.mp removed
      obtain ⟨v, _, removed⟩ := Option.bind_eq_some_iff.mp removed
      obtain ⟨w, _, removed⟩ := Option.bind_eq_some_iff.mp removed
      cases removed
      exact inUseOrder_withOwnerValue h slot.owner w
    · exact h

theorem containers_get (c : Cache) (now : Nat) (path : CachePath) (includeExpired : Bool) :
    (c.get now path includeExpired).2.store.containers =
      Recency.touch c.store.containers (keyOf path) := by
  unfold get
  cases hp : Recency.peek? c.store.containers (keyOf path) with
  | none => simp only [Recency.touch, hp]
  | some container => rfl

theorem containers_read (c : Cache) (path : CachePath) :
    (c.read path).2.store.containers = Recency.touch c.store.containers (keyOf path) := by
  unfold read
  cases hp : Recency.peek? c.store.containers (keyOf path) with
  | none => simp only [Recency.touch, hp]
  | some container => rfl

/-- An operation that makes no room puts the container that it reads first, if it reads one. -/
theorem inUseOrder_act_of_roomy (h : Recency.InUseOrder log c.store.containers)
    (hc : e.crowd c.options now c.store = none) (done : (c.act now e).succeeded = true) :
    Recency.InUseOrder (e.uses.reverse ++ log) (c.act now e).cache.store.containers := by
  cases e with
  | set payload skipNotify => cases hc
  | restore snapshot => cases hc
  | write path value =>
      have hbelow : path.rest ≠ [] := by
        intro hroot
        simp only [Event.crowd, if_pos hroot] at hc
        cases hc
      simp only [Event.uses, if_neg hbelow]
      exact inUseOrder_write h hbelow done
  | seed path value =>
      have hbelow : path.rest ≠ [] := by
        intro hroot
        simp only [Event.crowd, if_pos hroot] at hc
        cases hc
      simp only [Event.uses, if_neg hbelow]
      exact inUseOrder_seed h value hbelow
  | evict text =>
      cases hp : CachePath.parse text with
      | error e =>
          simp only [act, hp]
          exact h
      | ok path =>
          simp only [act, hp]
          exact inUseOrder_evict h path
  | sweep => exact h.sublist (c.store.containers_sweep_sublist now)
  | clear => exact .nil _
  | get path includeExpired =>
      have htouch := h.touch (keyOf path)
      rwa [← c.containers_get now path includeExpired] at htouch
  | read path =>
      have htouch := h.touch (keyOf path)
      rwa [← c.containers_read path] at htouch
  | subscribe paths => exact h
  | unsubscribe id => exact h

/-- What is left of an operation is in the order of use, with what it used. -/
theorem inUseOrder_act (nodup : (Recency.keys c.store.containers).Nodup)
    (h : Recency.InUseOrder log c.store.containers) (now : Nat) (e : Event) :
    Recency.InUseOrder (e.logged (c.act now e) log) (c.act now e).cache.store.containers := by
  unfold Event.logged
  cases done : (c.act now e).succeeded with
  | false =>
      rw [if_neg Bool.false_ne_true]
      rcases act_failed done with ⟨hc, _⟩ | ⟨path, value, slot, _, _, hc⟩
      · rw [hc]
        exact h
      · rw [hc]
        exact h
  | true =>
      rw [if_pos rfl]
      cases hc : e.crowd c.options now c.store with
      | none => exact inUseOrder_act_of_roomy h hc done
      | some crowd =>
          rw [containers_act_of_crowd nodup hc done]
          exact (inUseOrder_crowd h hc).sublist (sparing_sublist _ _)

theorem Logged.reachable (run : Logged options now c log) : Reachable options now c := by
  induction run with
  | new now => exact .new now
  | act _ passed e ih => exact ih.act passed e

/-- In every run the containers stand in the order of their last use. -/
theorem Logged.inUseOrder (run : Logged options now c log) :
    Recency.InUseOrder log c.store.containers := by
  induction run with
  | new now => exact .nil _
  | act run _ e ih =>
      obtain ⟨_, hsound, _⟩ := run.reachable.sound
      exact inUseOrder_act hsound.nodup ih _ e

/-- Dropping for want of room is exact. In every run the containers stand in the order in which
they were last asked for or stored. An operation that makes room keeps, of the containers that
are there when it does, all that are never dropped and of the others the most recently used ones,
as many as there is room for beside them, and leaves them in their order. So after every operation
there are no more containers than wanted, or none of them may be dropped. -/
theorem capacity_exact (run : Logged options now c log) {later : Nat} (passed : now ≤ later)
    (e : Event) :
    Recency.InUseOrder (e.logged (c.act later e) log) (c.act later e).cache.store.containers ∧
    (∀ crowd, e.crowd options later c.store = some crowd → (c.act later e).succeeded = true →
      Recency.InUseOrder (e.uses.reverse ++ log) crowd ∧
      (c.act later e).cache.store.containers = kept options.maxEntries crowd) ∧
    ((c.act later e).cache.size ≤ options.maxEntries ∨
      ∀ p ∈ (c.act later e).cache.store.containers, p.2.lifetime.isWeak = false) := by
  obtain ⟨ho, hsound, _⟩ := run.reachable.sound
  have hnext := run.act passed e
  obtain ⟨_, _, hfits⟩ := hnext.reachable.sound
  refine ⟨hnext.inUseOrder, fun crowd hc done => ?_, hfits⟩
  subst ho
  exact ⟨inUseOrder_crowd run.inUseOrder hc, containers_act_of_crowd hsound.nodup hc done⟩

/-! ### Two results beside a page -/

def twoWanted : Options := { maxEntries := 2 }

def twoResults : Event :=
  .set (.object [("mutation", .object [("close", .bool true), ("open", .bool true)])]) false

def onePage : Event := .set (.object [("query", .object [("page", .string "x")])]) false

def closeKey : ContainerKey := { root := .mutation, field := "close" }

def openKey : ContainerKey := { root := .mutation, field := "open" }

def pageKey : ContainerKey := { root := .query, field := "page" }

/-- Two results, of which the one that was stored first is read again. -/
def resultsRead : Cache :=
  (new twoWanted).after 0 [twoResults, .get { root := .mutation, field := "close" } false]

/-- The page is never dropped, and of the results the one that was read last is kept beside it,
not the one that was stored last. -/
theorem capacity_exact_page :
    Logged twoWanted 0 resultsRead [closeKey, openKey, closeKey] ∧
    Recency.InUseOrder [pageKey, closeKey, openKey, closeKey]
      (resultsRead.act 1 onePage).cache.store.containers ∧
    Recency.keys (kept 2 (arrived twoWanted 1 resultsRead.store
      [(.query, "page", .string "x")])) = [pageKey, closeKey] ∧
    (resultsRead.act 1 onePage).cache.store.containers =
      kept 2 (arrived twoWanted 1 resultsRead.store [(.query, "page", .string "x")]) := by
  have run : Logged twoWanted 0 resultsRead [closeKey, openKey, closeKey] :=
    ((Logged.new 0).act (Nat.le_refl 0) twoResults).act (Nat.le_refl 0)
      (.get { root := .mutation, field := "close" } false)
  obtain ⟨order, room, _⟩ := capacity_exact run (Nat.zero_le 1) onePage
  obtain ⟨_, left⟩ := room _ rfl rfl
  exact ⟨run, order, by decide, left⟩

end LazyGraph.Cache
