import LazyGraph.Proofs.Cache.Order
import LazyGraph.Proofs.Cache.Replacement
import LazyGraph.Proofs.Cache.Sweeping

/-!
A payload that is stored once more, at the same instant, changes nothing: neither the containers,
nor the objects, nor the placeholders.
-/
namespace LazyGraph

namespace Normalizer

variable (n : Normalizer)

/-! ### Values that arrive again -/

theorem keepsStored_taken (held : Option Json) (v next : Json) :
    n.keepsStored (n.taken held v) next = n.keepsStored (some v) next := by
  rw [taken]
  split
  · rename_i hkept
    obtain ⟨hmode, old, items, rfl, rfl, hlength⟩ := keepsStored_iff.mp hkept
    cases next with
    | array new => simp only [keepsStored, hmode, hlength]
    | _ => simp [keepsStored, hmode]
  · rfl

theorem keepsStored_foldl {values : List Json} (hne : values ≠ []) (held other : Option Json)
    (next : Json) : n.keepsStored (values.foldl n.taken held) next =
      n.keepsStored (values.foldl n.taken other) next := by
  rw [← List.dropLast_append_getLast hne, List.foldl_concat, List.foldl_concat, keepsStored_taken,
    keepsStored_taken]

theorem foldl_taken_again (values : List Json) (held : Option Json) :
    values.foldl n.taken (values.foldl n.taken held) = values.foldl n.taken held := by
  induction values using List.reverseRecOn generalizing held with
  | nil => rfl
  | append_singleton values v ih =>
      have hkept : ∀ {u}, n.keepsStored u v = true → n.taken u v = u := fun h => if_pos h
      have hgives : ∀ {u}, ¬ n.keepsStored u v = true → n.taken u v = some v := fun h => if_neg h
      simp only [List.foldl_concat]
      by_cases hlast : n.keepsStored (values.foldl n.taken held) v = true
      · rw [hkept hlast, ih, hkept hlast]
      · rw [hgives hlast]
        by_cases hne : values = []
        · subst hne
          rw [List.foldl_nil, taken]
          split <;> rfl
        · rw [n.keepsStored_foldl hne held (some v)] at hlast
          exact hgives hlast

section Tables

variable {n} {objects : List (String × Fields Json)} {p q : Progress}

theorem touched_storeAll (h : p.touched = q.touched) :
    (n.storeAll objects p).touched = (n.storeAll objects q).touched := by
  induction objects generalizing p q with
  | nil => exact h
  | cons object objects ih =>
      apply ih
      simp only [store, h]

theorem exists_object_storeAll {id : String} (h : id ∈ (n.storeAll objects p).touched.ids) :
    id ∈ p.touched.ids ∨ ∃ fs, Fields.get? (n.storeAll objects p).table id = some (.object fs) := by
  induction objects using List.reverseRecOn with
  | nil => exact .inl h
  | append_singleton objects object ih =>
      rw [storeAll_append] at h ⊢
      have hstep : n.storeAll [object] (n.storeAll objects p) =
        n.store object.1 object.2 (n.storeAll objects p) := rfl
      rw [hstep] at h ⊢
      by_cases hid : id = object.1
      · subst hid
        exact .inr ⟨_, Fields.get?_insert_self _ _ _⟩
      · have hother : id ∈ (n.storeAll objects p).touched.ids :=
          (mem_ids_add.mp h).resolve_left hid
        rw [store, Fields.get?_insert_of_ne _ hid]
        exact ih hother

end Tables

end Normalizer

namespace Cache

variable {options : Options} {now : Nat} {s t : Store}
  {fields : List (Operation × String × Json)}

theorem Options.MergesByMember.inOrder (merges : options.MergesByMember) : options.MergesInOrder := by
  intro n hn resolve hresolve
  rw [merges n hn] at hresolve
  cases hresolve

/-! ### Containers -/

/-- The containers that root fields go into. -/
def filled (options : Options) (now : Nat) (fields : List (Operation × String × Json)) :
    List (ContainerKey × Container) :=
  fields.map fun x => ({ root := x.1, field := x.2.1 },
    { data := (normalized options [] [] x.2.2).1
      lifetime := .ofRoot x.1 options.maxAge options.staleWindow now })

theorem normalized_fst (options : Options) (objects : ObjectTable) (touched : Touched) (v : Json) :
    (normalized options objects touched v).1 = (normalized options [] [] v).1 := by
  rw [normalized, normalized]
  split
  · exact Normalizer.normalizeWithin_fst _ _ v _ _
  · rfl

theorem containers_storeFields (options : Options) (now : Nat) (s : Store)
    (fields : List (Operation × String × Json)) :
    (storeFields options now s fields).1.containers =
      Recency.putAll (filled options now fields) s.containers := by
  have hfold : ∀ acc : Store × Touched,
      (fields.foldl (fun acc x => storeField options now x.1 acc x.2) acc).1.containers =
        Recency.putAll (filled options now fields) acc.1.containers := by
    induction fields with
    | nil => exact fun _ => rfl
    | cons x fields ih =>
        intro acc
        rw [List.foldl_cons, ih]
        simp only [storeField, fillContainer, Store.putContainer, normalized_fst options acc.1.objects]
        rfl
  exact hfold (s, [])

theorem placeholders_storeFields (options : Options) (now : Nat) (s : Store)
    (fields : List (Operation × String × Json)) :
    (storeFields options now s fields).1.placeholders = s.placeholders.filter
      (·.owner ∉ fields.map fun x => Owner.container { root := x.1, field := x.2.1 }) := by
  have hfold : ∀ acc : Store × Touched,
      (fields.foldl (fun acc x => storeField options now x.1 acc x.2) acc).1.placeholders =
        acc.1.placeholders.filter
          (·.owner ∉ fields.map fun x => Owner.container { root := x.1, field := x.2.1 }) := by
    induction fields with
    | nil => exact fun _ => (List.filter_eq_self.mpr fun mark _ => by simp).symm
    | cons x fields ih =>
        intro acc
        rw [List.foldl_cons, ih]
        simp only [storeField, fillContainer, Store.putContainer, Store.dropContainerPlaceholders,
          List.filter_filter, List.map_cons, List.mem_cons, not_or]
        exact List.filter_congr fun mark _ => by simp [-List.mem_map, Bool.and_comm]
  exact hfold (s, [])

/-! ### Objects -/

theorem touched_again (options : Options) (now : Nat) (s t : Store)
    (fields : List (Operation × String × Json)) :
    (storeFields options now t fields).2 = (storeFields options now s fields).2 := by
  cases hn : options.normalizer with
  | none => rw [touched_storeFields hn, touched_storeFields hn]
  | some n =>
      have hs := congrArg Normalizer.Progress.touched (progressOf_storeFields hn now s fields)
      have ht := congrArg Normalizer.Progress.touched (progressOf_storeFields hn now t fields)
      have hsame : (n.storeAll (depositsOf n fields) { table := t.objects }).touched =
          (n.storeAll (depositsOf n fields) { table := s.objects }).touched :=
        Normalizer.touched_storeAll rfl
      exact (ht.trans hsame).trans hs.symm

section Normalized

variable {n : Normalizer} (hn : options.normalizer = some n) (ordered : ∀ x ∈ fields, x.2.2.InOrder)

include hn ordered

theorem member?_storeFields (hr : n.resolver = none) (now : Nat) (s : Store) (id key : String) :
    (storeFields options now s fields).1.objects.member? id key =
      (Normalizer.given (depositsOf n fields) id key).foldl n.taken
        (s.objects.member? id key) := by
  have hnodup : ∀ object ∈ depositsOf n fields, (Fields.keys object.2).Nodup := by
    intro object ho
    obtain ⟨x, hx, ho⟩ := List.mem_flatMap.mp ho
    exact (Normalizer.ascending_of_mem_deposits (ordered x hx) ho).nodup_keys
  have hmember := n.member?_storeAll hr hnodup { table := s.objects } id key
  rwa [← progressOf_storeFields hn now s fields] at hmember

theorem exists_object_storeFields (merges : options.MergesByMember) (hs : s.InOrder) {id : String}
    (hid : id ∈ (storeFields options now s fields).2.ids) :
    ∃ fs, Fields.get? (storeFields options now s fields).1.objects id = some (.object fs) ∧
      Fields.Ascending fs := by
  have hprogress := progressOf_storeFields hn now s fields
  have hstored : id ∈ (progressOf (storeFields options now s fields)).touched.ids := hid
  rw [hprogress] at hstored
  obtain h | ⟨fs, hfs⟩ := Normalizer.exists_object_storeAll hstored
  · cases h
  · rw [← hprogress] at hfs
    have hinOrder : (storeFields options now s fields).1.InOrder :=
      hs.storeFields merges.inOrder ordered
    have hobject := hinOrder.objects.get? hfs
    exact ⟨fs, hfs, (Json.inOrder_object.mp hobject).1⟩

end Normalized

/-- An object stays what storing root fields made of it as they are stored again. -/
theorem get?_storeFields_again (merges : options.MergesByMember) (hs : s.InOrder) (ht : t.InOrder)
    (ordered : ∀ x ∈ fields, x.2.2.InOrder) {id : String}
    (same : Fields.get? t.objects id =
      Fields.get? (storeFields options now s fields).1.objects id) :
    Fields.get? (storeFields options now t fields).1.objects id =
      Fields.get? (storeFields options now s fields).1.objects id := by
  have htouched := touched_again options now s t fields
  by_cases hid : id ∈ (storeFields options now s fields).2.ids
  · cases hn : options.normalizer with
    | none =>
        rw [touched_storeFields hn] at hid
        cases hid
    | some n =>
        obtain ⟨fs, hfs, hfa⟩ := exists_object_storeFields hn ordered merges hs hid
        obtain ⟨gs, hgs, hga⟩ := exists_object_storeFields hn ordered merges ht (htouched ▸ hid)
        have hheld : ∀ key, t.objects.member? id key =
            (storeFields options now s fields).1.objects.member? id key :=
          fun key => congrArg (·.bind (·.member? key)) same
        have hmember : ∀ key, (storeFields options now t fields).1.objects.member? id key =
            (storeFields options now s fields).1.objects.member? id key := by
          intro key
          rw [member?_storeFields hn ordered (merges n hn) now t, hheld,
            member?_storeFields hn ordered (merges n hn) now s, n.foldl_taken_again]
        simp only [ObjectTable.member?, hfs, hgs] at hmember
        rw [hfs, hgs, hga.ext hfa hmember]
  · have htold := (storeFields_keeps options now t fields).1
    have hleft : id ∉ (storeFields options now t fields).2.ids := htouched ▸ hid
    exact (htold.same id hleft).trans same

theorem ascending_storeFields (h : Fields.Ascending s.objects) (now : Nat)
    (fields : List (Operation × String × Json)) :
    Fields.Ascending (storeFields options now s fields).1.objects := by
  rw [storeFields]
  exact List.foldlRecOn (motive := fun acc : Store × Touched => Fields.Ascending acc.1.objects)
    fields _ h fun acc hacc x _ => Store.ascending_normalized options hacc acc.2 x.2.2

/-! ### A payload that is stored again -/

/-- The contents after root fields were stored, without the placeholders that they replace. -/
def storedStore (options : Options) (now : Nat) (s : Store)
    (fields : List (Operation × String × Json)) : Store :=
  (storeFields options now s fields).1.dropReplacedPlaceholders
    (storeFields options now s fields).2

/-- The contents after root fields were stored and what is past its time was dropped. Containers
that there is no room for are still there. -/
def keptStore (options : Options) (now : Nat) (s : Store)
    (fields : List (Operation × String × Json)) : Store :=
  (storedStore options now s fields).sweep now

theorem containers_keptStore (nodup : (Recency.keys s.containers).Nodup) :
    (keptStore options now s fields).containers =
      (Recency.putAll (filled options now fields) s.containers).filter
        (!·.2.lifetime.isReclaimable now) := by
  have hstored : (storedStore options now s fields).containers =
      Recency.putAll (filled options now fields) s.containers :=
    containers_storeFields options now s fields
  have hnodup := Recency.nodup_keys_putAll nodup (filled options now fields)
  rw [← hstored] at hnodup ⊢
  exact Store.containers_sweep _ hnodup now

theorem inOrder_keptStore (merges : options.MergesByMember) (inOrder : s.InOrder)
    (ordered : ∀ x ∈ fields, x.2.2.InOrder) : (keptStore options now s fields).InOrder :=
  ((inOrder.storeFields merges.inOrder ordered).shrinks
    (Store.shrinks_dropReplacedPlaceholders _ _)).sweep now

theorem containers_again (nodup : (Recency.keys s.containers).Nodup) :
    (keptStore options now (keptStore options now s fields) fields).containers =
      (keptStore options now s fields).containers := by
  have hnodup : (Recency.keys (keptStore options now s fields).containers).Nodup := by
    rw [containers_keptStore nodup]
    exact (Recency.nodup_keys_putAll nodup _).sublist (List.filter_sublist.map _)
  rw [containers_keptStore hnodup, containers_keptStore nodup, Recency.putAll_again]

theorem get?_keptStore_eq_some_iff {id : String} {v : Json} :
    Fields.get? (keptStore options now s fields).objects id = some v ↔
      (∃ p ∈ (keptStore options now s fields).containers,
        Json.Leads (storeFields options now s fields).1.objects p.2.data id) ∧
      Fields.get? (storeFields options now s fields).1.objects id = some v :=
  Store.get?_sweep_eq_some_iff

theorem ascending_keptStore (h : Fields.Ascending s.objects) :
    Fields.Ascending (keptStore options now s fields).objects := by
  apply Store.ascending_sweep
  exact ascending_storeFields h now fields

theorem objects_again (merges : options.MergesByMember)
    (nodup : (Recency.keys s.containers).Nodup) (ascending : Fields.Ascending s.objects)
    (inOrder : s.InOrder) (ordered : ∀ x ∈ fields, x.2.2.InOrder) :
    (keptStore options now (keptStore options now s fields) fields).objects =
      (keptStore options now s fields).objects := by
  have hinOrder : (keptStore options now s fields).InOrder :=
    inOrder_keptStore merges inOrder ordered
  have hled : ∀ p ∈ (keptStore options now s fields).containers, ∀ id,
      Json.Leads (storeFields options now s fields).1.objects p.2.data id →
        Fields.get? (storeFields options now (keptStore options now s fields) fields).1.objects id =
          Fields.get? (storeFields options now s fields).1.objects id := by
    intro p hp id hl
    apply get?_storeFields_again merges inOrder hinOrder ordered
    apply Option.ext
    intro v
    rw [get?_keptStore_eq_some_iff]
    exact and_iff_right ⟨p, hp, hl⟩
  apply (ascending_keptStore (ascending_keptStore ascending)).ext (ascending_keptStore ascending)
  intro id
  apply Option.ext
  intro v
  rw [get?_keptStore_eq_some_iff, get?_keptStore_eq_some_iff, containers_again nodup]
  constructor
  · rintro ⟨⟨p, hp, hl⟩, hv⟩
    rw [Json.leads_congr (hled p hp)] at hl
    rw [hled p hp id hl] at hv
    exact ⟨⟨p, hp, hl⟩, hv⟩
  · rintro ⟨⟨p, hp, hl⟩, hv⟩
    rw [← hled p hp id hl] at hv
    rw [← Json.leads_congr (hled p hp)] at hl
    exact ⟨⟨p, hp, hl⟩, hv⟩

theorem owned_storedStore (owned : s.Owned) : (storedStore options now s fields).Owned :=
  (owned.storeFields fields).dropReplacedPlaceholders _

theorem placeholders_keptStore (owned : s.Owned) :
    (keptStore options now s fields).placeholders =
      (((s.placeholders.filter
        (·.owner ∉ fields.map fun x => Owner.container { root := x.1, field := x.2.1 })).filter
        (!Store.isReplaced (storeFields options now s fields).2 ·)).filter
        (·.owner ∉ ((storedStore options now s fields).reclaimable now).map Owner.container)).filter
        (Store.keepsOwner (keptStore options now s fields).objects ·.owner) := by
  rw [← placeholders_storeFields options now s]
  exact (owned_storedStore owned).placeholders_sweep now

/-- Of the containers that stay, none but those of the payload are past their time once the payload
is stored again. -/
theorem mem_filled_of_reclaimable (nodup : (Recency.keys s.containers).Nodup) {key : ContainerKey}
    (h : key ∈ (storedStore options now (keptStore options now s fields) fields).reclaimable now) :
    key ∈ fields.map fun x => { root := x.1, field := x.2.1 } := by
  have hkeys : Recency.keys (filled options now fields) =
      fields.map fun x => { root := x.1, field := x.2.1 } := List.map_map
  obtain ⟨p, hp, rfl⟩ := List.mem_map.mp h
  obtain ⟨hp, hold⟩ := List.mem_filter.mp hp
  have hstored : (storedStore options now (keptStore options now s fields) fields).containers =
      Recency.putAll (filled options now fields) (keptStore options now s fields).containers :=
    containers_storeFields options now _ fields
  rw [hstored, Recency.putAll_eq, List.mem_append] at hp
  rw [← hkeys]
  rcases hp with hp | hp
  · exact Recency.mem_keys_of_mem_putAll hp
  · have hkept := (List.mem_filter.mp hp).1
    rw [containers_keptStore nodup] at hkept
    have hfresh := (List.mem_filter.mp hkept).2
    rw [hold] at hfresh
    cases hfresh

theorem placeholders_again (owned : s.Owned) (nodup : (Recency.keys s.containers).Nodup)
    (objects : (keptStore options now (keptStore options now s fields) fields).objects =
      (keptStore options now s fields).objects) :
    (keptStore options now (keptStore options now s fields) fields).placeholders =
      (keptStore options now s fields).placeholders := by
  have hleft : ∀ mark ∈ (keptStore options now s fields).placeholders,
      (mark.owner ∉ fields.map fun x => Owner.container { root := x.1, field := x.2.1 }) ∧
      Store.isReplaced (storeFields options now s fields).2 mark = false ∧
      Store.keepsOwner (keptStore options now s fields).objects mark.owner = true := by
    intro mark hmark
    rw [placeholders_keptStore owned] at hmark
    simp only [List.mem_filter, decide_eq_true_iff, Bool.not_eq_true'] at hmark
    exact ⟨hmark.1.1.1.2, hmark.1.1.2, hmark.2⟩
  have hkept : (keptStore options now s fields).Owned := (owned_storedStore owned).sweep now
  rw [placeholders_keptStore hkept, objects, touched_again options now s]
  simp only [List.filter_filter]
  apply List.filter_eq_self.mpr
  intro mark hmark
  obtain ⟨hfields, hreplaced, howner⟩ := hleft mark hmark
  have hreclaimed : mark.owner ∉ ((storedStore options now (keptStore options now s fields)
      fields).reclaimable now).map Owner.container := by
    intro h
    obtain ⟨key, hkey, hown⟩ := List.mem_map.mp h
    have hfield := List.mem_map_of_mem (f := Owner.container) (mem_filled_of_reclaimable nodup hkey)
    rw [List.map_map, hown] at hfield
    exact hfields hfield
  simp only [Bool.and_eq_true, decide_eq_true_iff, Bool.not_eq_true']
  exact ⟨howner, hreclaimed, hreplaced, hfields⟩

theorem setStore_eq_keptStore (options : Options) (now : Nat) (s : Store)
    (fields : List (Operation × String × Json)) : setStore options now s fields =
      (keptStore options now s fields).enforceCapacity options.maxEntries := rfl

/-- Where there is room for the containers, storing root fields once more changes nothing. -/
theorem setStore_again (merges : options.MergesByMember) (owned : s.Owned)
    (nodup : (Recency.keys s.containers).Nodup) (ascending : Fields.Ascending s.objects)
    (inOrder : s.InOrder) (ordered : ∀ x ∈ fields, x.2.2.InOrder)
    (roomy : (setStore options now s fields).containers =
      (keptStore options now s fields).containers) :
    let first := setStore options now s fields
    let second := setStore options now first fields
    second.containers = first.containers ∧ second.objects = first.objects ∧
      second.placeholders = first.placeholders := by
  have hcontainers : (keptStore options now (keptStore options now s fields) fields).containers =
      (keptStore options now s fields).containers := containers_again nodup
  have hobjects : (keptStore options now (keptStore options now s fields) fields).objects =
      (keptStore options now s fields).objects :=
    objects_again merges nodup ascending inOrder ordered
  have hmarks := placeholders_again owned nodup hobjects
  rw [setStore_eq_keptStore] at roomy
  have hfirst := Store.fits_enforceCapacity options.maxEntries (keptStore options now s fields)
  rw [Store.Fits, roomy] at hfirst
  have hsecond : Store.Fits options.maxEntries
      (keptStore options now (keptStore options now s fields) fields) := by
    rw [Store.Fits, hcontainers]
    exact hfirst
  simp only [setStore_eq_keptStore, Store.Fits.enforceCapacity hfirst, hsecond.enforceCapacity]
  exact ⟨hcontainers, hobjects, hmarks⟩

/-- A payload for whose containers there is room changes nothing when it is stored once more at the
same instant, however its objects contradict each other. -/
theorem set_idempotent {last : Nat} {c : Cache} (merges : options.MergesByMember)
    (run : OrderedRun options last c) {roots : List (String × Json)}
    {rs : List (Operation × List (String × Json))} (valid : payloadRoots roots = .ok rs)
    (ordered : Json.InOrder (.object roots)) (now : Nat)
    (roomy : (setStore options now c.store (payloadFields rs)).containers =
      (keptStore options now c.store (payloadFields rs)).containers) (skip skip' : Bool) :
    ∃ d e notice notice', c.set now (.object roots) skip = .ok (d, notice) ∧
      d.set now (.object roots) skip' = .ok (e, notice') ∧
      e.store.containers = d.store.containers ∧ e.store.objects = d.store.objects ∧
      e.store.placeholders = d.store.placeholders := by
  obtain ⟨rfl, sound, _⟩ := run.reachable.sound
  have hfields : ∀ x ∈ payloadFields rs, x.2.2.InOrder :=
    payloadFields_everywhere valid (Json.inOrder_object.mp ordered).2
  exact ⟨_, _, _, _, c.set_eq now valid skip, set_eq _ now valid skip', setStore_again merges
    run.reachable.owned sound.nodup sound.ascending (run.inOrder merges.inOrder) hfields roomy⟩

/-! ### One user with two lists -/

def itemsOf (names : List String) : Json :=
  .array (names.map fun name => .object [("name", .string name)])

def userWith (names : List String) : Json :=
  .object [("__typename", .string "U"), ("id", .int 1), ("items", itemsOf names)]

/-- The fields of a payload in which one user has two items first, and another one then. -/
def contradictory : List (String × Json) :=
  [("first", userWith ["b", "c"]), ("second", userWith ["d"])]

/-- The stored list gives way to the first one on both times, and that one to the second. -/
theorem set_idempotent_contradictory :
    (awaitedFriend.options.MergesByMember ∧ OrderedRun {} 0 awaitedFriend ∧
      payloadRoots [("query", .object contradictory)] = .ok [(.query, contradictory)] ∧
      Json.InOrder (.object [("query", .object contradictory)]) ∧
      (setStore {} 0 awaitedFriend.store (payloadFields [(.query, contradictory)])).containers =
        (keptStore {} 0 awaitedFriend.store
          (payloadFields [(.query, contradictory)])).containers) ∧
    awaitedFriend.store.objects.member? "U:1" "items" ≠ some (itemsOf ["d"]) ∧
    supplied default (.object [("query", .object contradictory)]) "U:1" "items" =
      [itemsOf ["b", "c"], itemsOf ["d"]] ∧
    ∃ d e notice notice',
      awaitedFriend.set 0 (.object [("query", .object contradictory)]) false = .ok (d, notice) ∧
      d.set 0 (.object [("query", .object contradictory)]) false = .ok (e, notice') ∧
      e.store.containers = d.store.containers ∧ e.store.objects = d.store.objects ∧
      e.store.placeholders = d.store.placeholders := by
  have hitems : (itemsPayload ["a"]).InOrder := by decide +kernel
  have run : OrderedRun {} 0 awaitedFriend :=
    ((OrderedRun.new 0).act (Nat.le_refl 0) (e := .set (itemsPayload ["a"]) false) hitems).act
      (Nat.le_refl 0) (e := .seed _ (.object [])) ⟨List.Pairwise.nil, trivial⟩
  have valid : payloadRoots [("query", .object contradictory)] = .ok [(.query, contradictory)] := rfl
  have ordered : Json.InOrder (.object [("query", .object contradictory)]) := by decide +kernel
  have hfits : Store.Fits 4096
      (keptStore {} 0 awaitedFriend.store (payloadFields [(.query, contradictory)])) :=
    .inl (by decide +kernel)
  have roomy : (setStore {} 0 awaitedFriend.store
        (payloadFields [(.query, contradictory)])).containers =
      (keptStore {} 0 awaitedFriend.store (payloadFields [(.query, contradictory)])).containers :=
    congrArg Store.containers hfits.enforceCapacity
  refine ⟨⟨merges_awaitedFriend, run, valid, ordered, roomy⟩, ?_, rfl,
    set_idempotent merges_awaitedFriend run valid ordered 0 roomy false false⟩
  have hheld : awaitedFriend.store.objects.member? "U:1" "items" =
      some (.array [.object [("friend", .object []), ("name", .string "a")]]) := rfl
  rw [hheld]
  simp [itemsOf]

end Cache
end LazyGraph
