import Mathlib.Data.List.Dedup
import LazyGraph.Proofs.Cache.Capacity

/-!
When what was just stored is still there: its containers are the most recently used ones, but
those of results may be dropped, and room is made at once.
-/
namespace LazyGraph.Recency

variable {κ α : Type} [DecidableEq κ]

theorem mem_keys_putAll {entries : List (κ × α)} {key : κ} :
    key ∈ keys (putAll entries []) ↔ key ∈ keys entries := by
  constructor
  · intro h
    obtain ⟨p, hp, rfl⟩ := List.mem_map.mp h
    exact mem_keys_of_mem_putAll hp
  · intro h
    induction entries with
    | nil => exact h
    | cons q entries ih =>
        have hstep : putAll (q :: entries) [] = putAll entries [q] := rfl
        rw [hstep, putAll_eq, keys, List.map_append, List.mem_append]
        by_cases hlater : key ∈ keys entries
        · exact .inl (ih hlater)
        · right
          rcases List.mem_cons.mp h with rfl | h
          · simpa using hlater
          · exact absurd h hlater

/-- As many entries come first as there are different keys among those that are put. -/
theorem length_putAll (entries : List (κ × α)) :
    (putAll entries []).length = (keys entries).dedup.length := by
  have hnodup := nodup_keys_putAll (l := []) List.nodup_nil entries
  have hperm : (keys (putAll entries [])).Perm (keys entries).dedup := by
    rw [List.perm_ext_iff_of_nodup hnodup (List.nodup_dedup _)]
    intro key
    rw [mem_keys_putAll, List.mem_dedup]
  rw [← hperm.length_eq, keys, List.length_map]

theorem contains_iff_mem {l : Recency κ α} {key : κ} :
    contains l key = true ↔ key ∈ keys l := by
  rw [contains, Option.isSome_iff_exists]
  constructor
  · rintro ⟨v, hv⟩
    exact mem_keys_of_mem (mem_of_peek? hv)
  · intro h
    obtain ⟨p, hp, rfl⟩ := List.mem_map.mp h
    cases hv : peek? l p.1 with
    | some v => exact ⟨v, rfl⟩
    | none =>
        have hne := List.lookup_eq_none_iff.mp hv p hp
        simp at hne

end LazyGraph.Recency

namespace LazyGraph.Cache

/-! ### The containers that come first -/

section

variable {front rest : Recency ContainerKey Container} {maxEntries : Nat}

theorem mem_sparing {room : Nat} {l : Recency ContainerKey Container}
    {p : ContainerKey × Container} : p ∈ sparing room l ↔
      p ∈ l ∧ (p.2.lifetime.isWeak = false ∨ p.1 ∈ Recency.keys ((weak l).take room)) := by
  rw [sparing, List.mem_filter, Bool.or_eq_true, Bool.not_eq_true', List.contains_iff_mem]

theorem weak_append_eq : weak (front ++ rest) = weak front ++ weak rest :=
  List.filter_append front rest

/-- Where they all fit, those that come first are kept. -/
theorem mem_kept_of_room
    (h : front.length + rest.countP (!·.2.lifetime.isWeak) ≤ maxEntries)
    {p : ContainerKey × Container} (hp : p ∈ front) : p ∈ kept maxEntries (front ++ rest) := by
  have hlength := length_weak_add front
  rw [kept, List.countP_append, mem_sparing]
  refine ⟨List.mem_append_left rest hp, ?_⟩
  cases hw : p.2.lifetime.isWeak with
  | false => exact .inl rfl
  | true =>
      have hmem : p ∈ weak front := List.mem_filter.mpr ⟨hp, hw⟩
      have hroom : (weak front).length ≤
          maxEntries - (front.countP (!·.2.lifetime.isWeak) +
            rest.countP (!·.2.lifetime.isWeak)) := by
        omega
      right
      rw [weak_append_eq, List.take_append, List.take_of_length_le hroom]
      exact Recency.mem_keys_of_mem (List.mem_append_left _ hmem)

/-- Where one of them may be dropped, those that come first are kept only if they all fit. -/
theorem room_of_kept (nodup : (Recency.keys front).Nodup)
    (hkept : ∀ p ∈ front, p ∈ kept maxEntries (front ++ rest)) {q : ContainerKey × Container}
    (hq : q ∈ front) (hw : q.2.lifetime.isWeak = true) :
    front.length + rest.countP (!·.2.lifetime.isWeak) ≤ maxEntries := by
  by_contra hfull
  have hlength := length_weak_add front
  have hpos : 0 < (weak front).length := List.length_pos_of_mem (List.mem_filter.mpr ⟨hq, hw⟩)
  let room := maxEntries - (front ++ rest).countP (!·.2.lifetime.isWeak)
  have hroom : room < (weak front).length := by
    have hcount : room = maxEntries - (front.countP (!·.2.lifetime.isWeak) +
        rest.countP (!·.2.lifetime.isWeak)) := by
      rw [← List.countP_append]
    omega
  have hsub : Recency.keys (weak front) ⊆ Recency.keys ((weak front).take room) := by
    intro key hkey
    obtain ⟨p, hp, rfl⟩ := List.mem_map.mp hkey
    obtain ⟨hmem, hweak⟩ := List.mem_filter.mp hp
    rcases (mem_sparing.mp (hkept p hmem)).2 with hstrong | htaken
    · rw [hweak] at hstrong
      cases hstrong
    · rwa [weak_append_eq, List.take_append_of_le_length hroom.le] at htaken
  have hdistinct : (Recency.keys (weak front)).Nodup := nodup.sublist (List.filter_sublist.map _)
  have hle := hdistinct.length_le_of_subset hsub
  rw [Recency.keys, Recency.keys, List.length_map, List.length_map, List.length_take] at hle
  omega

/-- Those that come first are kept exactly if none of them may be dropped, or they all fit beside
the others that may not. -/
theorem front_kept_iff (nodup : (Recency.keys front).Nodup) :
    (∀ p ∈ front, p ∈ kept maxEntries (front ++ rest)) ↔
      (∀ p ∈ front, p.2.lifetime.isWeak = false) ∨
        front.length + rest.countP (!·.2.lifetime.isWeak) ≤ maxEntries := by
  constructor
  · intro hkept
    by_cases hstrong : ∀ p ∈ front, p.2.lifetime.isWeak = false
    · exact .inl hstrong
    · push Not at hstrong
      obtain ⟨q, hq, hw⟩ := hstrong
      exact .inr (room_of_kept nodup hkept hq (by simpa using hw))
  · rintro (hstrong | hroom) p hp
    · exact mem_sparing.mpr ⟨List.mem_append_left rest hp, .inl (hstrong p hp)⟩
    · exact mem_kept_of_room hroom hp

theorem contains_kept_iff (nodup : (Recency.keys (front ++ rest)).Nodup) (maxEntries : Nat) :
    (∀ key ∈ Recency.keys front,
        Recency.contains (kept maxEntries (front ++ rest)) key = true) ↔
      ∀ p ∈ front, p ∈ kept maxEntries (front ++ rest) := by
  constructor
  · intro h p hp
    have hkey := h p.1 (Recency.mem_keys_of_mem hp)
    obtain ⟨q, hq, hsame⟩ := List.mem_map.mp (Recency.contains_iff_mem.mp hkey)
    have hall : q ∈ front ++ rest := (sparing_sublist _ _).subset hq
    have heq : q = p :=
      List.inj_on_of_nodup_map nodup hall (List.mem_append_left rest hp) hsame
    exact heq ▸ hq
  · intro h key hkey
    obtain ⟨p, hp, rfl⟩ := List.mem_map.mp hkey
    exact Recency.contains_iff_mem.mpr (Recency.mem_keys_of_mem (h p hp))

end

/-! ### What was just stored -/

variable {options : Options} {now : Nat} {c : Cache} {s : Store}

/-- The number of containers, but for those of `named`, that are never dropped. -/
def Store.lastingBeside (s : Store) (named : List ContainerKey) : Nat :=
  s.containers.countP fun p => !p.2.lifetime.isWeak && p.1 ∉ named

theorem strong_ofRoot_iff {root : Operation} {maxAge : Option Nat} {window time : Nat} :
    (Lifetime.ofRoot root maxAge window time).isWeak = false ↔ root = .query ∧ maxAge = none := by
  cases root <;> cases maxAge <;> simp [Lifetime.ofRoot, Lifetime.isWeak]

theorem fresh_ofRoot {root : Operation} {maxAge : Option Nat} {window time : Nat}
    (h : maxAge ≠ some 0) : (Lifetime.ofRoot root maxAge window time).isExpired time = false ∧
      (Lifetime.ofRoot root maxAge window time).isReclaimable time = false := by
  cases root with
  | query =>
      cases maxAge with
      | none => exact ⟨rfl, rfl⟩
      | some age =>
          have hpos : age ≠ 0 := fun e => h (congrArg some e)
          simp only [Lifetime.ofRoot, Lifetime.isExpired, Lifetime.isReclaimable,
            decide_eq_false_iff_not]
          omega
  | mutation => simp [Lifetime.ofRoot, Lifetime.isExpired, Lifetime.isReclaimable,
      Lifetime.operationResult]
  | subscription => simp [Lifetime.ofRoot, Lifetime.isExpired, Lifetime.isReclaimable,
      Lifetime.operationResult]

theorem lifetime_filled {fields : List (Operation × String × Json)}
    {p : ContainerKey × Container} (h : p ∈ filled options now fields) :
    p.2.lifetime = .ofRoot p.1.root options.maxAge options.staleWindow now := by
  obtain ⟨x, _, rfl⟩ := List.mem_map.mp h
  rfl

/-- What was stored comes first; behind it stands what is left of the other containers. -/
theorem arrived_eq (lasting : options.maxAge ≠ some 0) (fields : List (Operation × String × Json)) :
    arrived options now s fields = Recency.putAll (filled options now fields) [] ++
      (s.containers.filter (·.1 ∉ fieldKeys fields)).filter
        (!·.2.lifetime.isReclaimable now) := by
  have hown : (Recency.putAll (filled options now fields) []).filter
      (!·.2.lifetime.isReclaimable now) = Recency.putAll (filled options now fields) [] := by
    apply List.filter_eq_self.mpr
    intro p hp
    rw [lifetime_filled (Recency.mem_of_mem_putAll hp), (fresh_ofRoot lasting).2]
    rfl
  rw [arrived, Recency.putAll_eq, List.filter_append, hown, keys_filled]

theorem countP_left (s : Store) (now : Nat) (named : List ContainerKey) :
    ((s.containers.filter (·.1 ∉ named)).filter (!·.2.lifetime.isReclaimable now)).countP
      (!·.2.lifetime.isWeak) = s.lastingBeside named := by
  rw [List.countP_filter, List.countP_filter, Store.lastingBeside]
  apply List.countP_congr
  rintro ⟨key, data, lifetime⟩ _
  cases lifetime <;> simp [Lifetime.isWeak, Lifetime.isReclaimable]

theorem strong_putAll_iff {fields : List (Operation × String × Json)} :
    (∀ p ∈ Recency.putAll (filled options now fields) [], p.2.lifetime.isWeak = false) ↔
      ∀ key ∈ fieldKeys fields, key.root = .query ∧ options.maxAge = none := by
  constructor
  · intro h key hkey
    rw [← keys_filled options now, ← Recency.mem_keys_putAll] at hkey
    obtain ⟨p, hp, rfl⟩ := List.mem_map.mp hkey
    have hstrong := h p hp
    rwa [lifetime_filled (Recency.mem_of_mem_putAll hp), strong_ofRoot_iff] at hstrong
  · intro h p hp
    have hkey := Recency.mem_keys_of_mem_putAll hp
    rw [keys_filled] at hkey
    rw [lifetime_filled (Recency.mem_of_mem_putAll hp), strong_ofRoot_iff]
    exact h p.1 hkey

theorem lastingBeside_eq_zero (sound : s.Sound options now) (h : options.maxAge ≠ none)
    (named : List ContainerKey) : s.lastingBeside named = 0 := by
  apply List.countP_eq_zero.mpr
  intro p hp
  obtain ⟨time, _, hlifetime⟩ := sound.lifetimes p hp
  have hweak : p.2.lifetime.isWeak = true := by
    rw [hlifetime, ← Bool.not_eq_false, strong_ofRoot_iff]
    exact fun hstrong => h hstrong.2
  simp [hweak]

/-- A root field that was just stored is read, if its container is still there. -/
theorem get_arrived (lasting : options.maxAge ≠ some 0)
    {fields : List (Operation × String × Json)} {d : Cache} {path : CachePath}
    (hd : ∀ p ∈ d.store.containers, p ∈ arrived options now s fields) (hr : path.rest = [])
    (named : keyOf path ∈ fieldKeys fields)
    (there : Recency.contains d.store.containers (keyOf path) = true) (includeExpired : Bool) :
    (d.get now path includeExpired).1.data.isSome = true := by
  obtain ⟨container, hpeek⟩ := Option.isSome_iff_exists.mp there
  have hmem := hd _ (Recency.mem_of_peek? hpeek)
  have hfresh : container.lifetime.isExpired now = false := by
    rw [arrived_eq lasting, List.mem_append] at hmem
    rcases hmem with hmem | hmem
    · have hlifetime := lifetime_filled (Recency.mem_of_mem_putAll hmem)
      rw [hlifetime]
      exact (fresh_ofRoot lasting).1
    · have hother := (List.mem_filter.mp (List.mem_filter.mp hmem).1).2
      exact absurd named (of_decide_eq_true hother)
  have hslot : d.store.slot? path = some { owner := .container (keyOf path), path := [] } := by
    simp only [Store.slot?, hpeek, hr]
    rfl
  have hvalue : d.store.valueAt? path = some container.data := by
    simp only [Store.valueAt?, hslot, Option.bind_some, Store.slotValue?, Store.ownerValue?, hpeek]
    rfl
  simp only [get, hpeek, hfresh, hvalue]
  rfl

/-- When a store keeps what it has just stored. Where data expires at all, it does so if there is
room for as many containers as the payload names. Where queries are kept for ever, their
containers are not dropped for those of results: results are kept exactly if all that is named fits
beside the queries that are there. What is kept is read. -/
theorem set_keeps_iff (run : Reachable options now c) (lasting : options.maxAge ≠ some 0)
    (later : Nat) {roots : List (String × Json)}
    {rs : List (Operation × List (String × Json))} (valid : payloadRoots roots = .ok rs)
    (skipNotify : Bool) :
    ∃ d notice, c.set later (.object roots) skipNotify = .ok (d, notice) ∧
    ((∀ key ∈ fieldKeys (payloadFields rs), Recency.contains d.store.containers key = true) ↔
      (∀ key ∈ fieldKeys (payloadFields rs), key.root = .query ∧ options.maxAge = none) ∨
      c.store.lastingBeside (fieldKeys (payloadFields rs)) +
        (fieldKeys (payloadFields rs)).dedup.length ≤ options.maxEntries) ∧
    (options.maxAge ≠ none → c.store.lastingBeside (fieldKeys (payloadFields rs)) = 0) ∧
    ∀ path : CachePath, path.rest = [] → keyOf path ∈ fieldKeys (payloadFields rs) →
      Recency.contains d.store.containers (keyOf path) = true →
      ∀ includeExpired, (d.get later path includeExpired).1.data.isSome = true := by
  obtain ⟨rfl, hsound, _⟩ := run.sound
  let fields := payloadFields rs
  let front := Recency.putAll (filled c.options later fields) []
  let rest := (c.store.containers.filter (·.1 ∉ fieldKeys fields)).filter
    (!·.2.lifetime.isReclaimable later)
  have hset := c.set_eq later valid skipNotify
  have hleft : (setStore c.options later c.store fields).containers =
      kept c.options.maxEntries (arrived c.options later c.store fields) :=
    containers_setStore hsound.nodup fields
  have hcrowd : arrived c.options later c.store fields = front ++ rest := arrived_eq lasting fields
  have hkeys : ∀ key, key ∈ Recency.keys front ↔ key ∈ fieldKeys fields := by
    intro key
    rw [Recency.mem_keys_putAll, keys_filled]
  have hlength : front.length = (fieldKeys fields).dedup.length := by
    rw [Recency.length_putAll, keys_filled]
  have hnodup : (Recency.keys (front ++ rest)).Nodup := by
    rw [← hcrowd]
    exact (Recency.nodup_keys_putAll hsound.nodup _).sublist (List.filter_sublist.map _)
  refine ⟨_, _, hset, ?_, fun h => lastingBeside_eq_zero hsound h _, ?_⟩
  · have hthere := contains_kept_iff hnodup c.options.maxEntries
    have hfront := hnodup.sublist ((List.sublist_append_left front rest).map _)
    rw [front_kept_iff hfront, strong_putAll_iff, hlength, countP_left, Nat.add_comm] at hthere
    simp only [hkeys] at hthere
    rw [← hcrowd, ← hleft] at hthere
    exact hthere
  · intro path hr named there
    exact get_arrived lasting (fun p hp => (sparing_sublist _ _).subset (hleft ▸ hp)) hr named there

/-! ### A result beside a page -/

def closing : List (String × Json) := [("mutation", .object [("close", .bool true)])]

def closingFields : List (Operation × List (String × Json)) :=
  [(.mutation, [("close", .bool true)])]

/-- A page that is kept for ever, and room for `maxEntries` containers. -/
def pageStored (maxEntries : Nat) : Cache := (new { maxEntries }).after 0 [onePage]

theorem reachable_pageStored (maxEntries : Nat) :
    Reachable { maxEntries } 0 (pageStored maxEntries) :=
  (Reachable.new 0).after [onePage]

/-- With room for two containers the result stays beside the page, and is read. -/
theorem set_keeps_iff_room :
    (Reachable { maxEntries := 2 } 0 (pageStored 2) ∧ (pageStored 2).options.maxAge ≠ some 0 ∧
      payloadRoots closing = .ok closingFields) ∧
    ∃ d notice, (pageStored 2).set 1 (.object closing) false = .ok (d, notice) ∧
      Recency.contains d.store.containers closeKey = true ∧
      (d.get 1 { root := .mutation, field := "close" } false).1.data.isSome = true := by
  have lasting : ({ maxEntries := 2 } : Options).maxAge ≠ some 0 := by decide
  have valid : payloadRoots closing = .ok closingFields := rfl
  obtain ⟨d, notice, hset, keeps, _, reads⟩ :=
    set_keeps_iff (reachable_pageStored 2) lasting 1 valid false
  have room : (pageStored 2).store.lastingBeside (fieldKeys (payloadFields closingFields)) +
      (fieldKeys (payloadFields closingFields)).dedup.length ≤ 2 := by decide
  have there := keeps.mpr (.inr room) closeKey (by decide)
  exact ⟨⟨reachable_pageStored 2, lasting, valid⟩, d, notice, hset, there,
    reads { root := .mutation, field := "close" } rfl (by decide) there false⟩

/-- With room for one container the page takes it, and the result is dropped as it is stored. -/
theorem lone_result_dropped :
    Reachable { maxEntries := 1 } 0 (pageStored 1) ∧
    payloadRoots closing = .ok closingFields ∧ (payloadFields closingFields).length ≤ 1 ∧
    ((pageStored 1).act 0 (.set (.object closing) false)).succeeded = true ∧
    Recency.contains ((pageStored 1).act 0 (.set (.object closing) false)).cache.store.containers
      closeKey = false := by
  refine ⟨reachable_pageStored 1, rfl, ?_, ?_, ?_⟩
  · decide
  · decide
  · decide

end LazyGraph.Cache
