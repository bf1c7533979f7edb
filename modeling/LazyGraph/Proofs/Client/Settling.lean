import LazyGraph.Proofs.Cache.Normalization
import LazyGraph.Proofs.Client.Faithful

/-!
Normalization of a value that tells what a server holds, where no two positions have one identity:
all of the value can be found again through the table, and the objects of other positions stay.
-/
namespace LazyGraph

namespace Normalizer

variable {server : Server} {owns : String → List String → Prop}

/-! ### Merging -/

/-- Members without lists all take the place of those that are stored. -/
theorem mergeMembers_eq_overlay (n : Normalizer) {stored arriving : Fields Json}
    (h : ∀ q ∈ arriving, q.2.asArray? = none) :
    n.mergeMembers stored arriving = Fields.overlay stored arriving := by
  rw [mergeMembers, Fields.overlay]
  induction arriving generalizing stored with
  | nil => rfl
  | cons q arriving ih =>
      have hq : n.keepsStored (Fields.get? stored q.1) q.2 = false := by
        have harray := h q List.mem_cons_self
        rw [keepsStored]
        intro old new _ _ he
        rw [he] at harray
        cases harray
      have hrest := fun r hr => h r (List.mem_cons_of_mem q hr)
      rw [List.foldl_cons, List.foldl_cons, hq, if_neg Bool.false_ne_true]
      exact ih hrest

/-! ### What stands for a value -/

/-- The second value stands for the first one at a position: it has all of its parts, some of them
through the objects of a table, to which they were written. -/
inductive Told (owns : String → List String → Prop) (q : Progress) :
    List String → Json → Json → Prop
  | leaf {p : List String} {v : Json} (whole : v.asObject? = none ∧ v.asArray? = none) :
    Told owns q p v v
  | object {p : List String} {fs gs : Fields Json} (plain : Json.referenceIn? gs = none)
    (present : ∀ x ∈ fs, (Fields.get? gs x.1).isSome)
    (parts : ∀ x ∈ fs, ∀ v, Fields.get? gs x.1 = some v → Told owns q (p ++ [x.1]) x.2 v) :
    Told owns q p (.object fs) (.object gs)
  | reference {p : List String} {fs gs : Fields Json} {id : String} (owned : owns id p)
    (found : Fields.get? q.table id = some (.object gs))
    (present : ∀ x ∈ fs, (Fields.get? gs x.1).isSome)
    (written : ∀ x ∈ fs, q.touched.has id x.1 = true)
    (parts : ∀ x ∈ fs, ∀ v, Fields.get? gs x.1 = some v → Told owns q (p ++ [x.1]) x.2 v) :
    Told owns q p (.object fs) (.reference id)

/-- What stands for a value depends on the objects at and below its position. -/
theorem Told.frame {q r : Progress} {p : List String} {w v : Json} (h : Told owns q p w v)
    (htable : ∀ id rest, owns id (p ++ rest) → Fields.get? r.table id = Fields.get? q.table id)
    (htouched : ∀ id key, q.touched.has id key = true → r.touched.has id key = true) :
    Told owns r p w v := by
  induction h with
  | leaf hl => exact .leaf hl
  | @object p _ _ hr hn _ ih =>
      refine .object hr hn fun x hx v hv => ih x hx v hv fun id rest ho => htable id (x.1 :: rest) ?_
      rwa [List.append_cons]
  | @reference p fs gs id ho hf hn hw _ ih =>
      have hsame := htable id [] (by rwa [List.append_nil])
      refine .reference ho (hsame.trans hf) hn (fun x hx => htouched _ _ (hw x hx)) ?_
      refine fun x hx v hv => ih x hx v hv fun id rest ho => htable id (x.1 :: rest) ?_
      rwa [List.append_cons]

theorem told_self {p : List String} {w : Json} (h : server.Tells p w) (q : Progress) :
    Told owns q p w w := by
  induction w using Json.induction generalizing p with
  | null => exact .leaf ⟨rfl, rfl⟩
  | bool b => exact .leaf ⟨rfl, rfl⟩
  | number n => exact .leaf ⟨rfl, rfl⟩
  | string s => exact .leaf ⟨rfl, rfl⟩
  | array items => exact (Server.Holds.not_array h).elim
  | object fs ih =>
      obtain ⟨_, hm⟩ := h.members
      have hget := fun x (hx : x ∈ fs) => hm.ascending.get?_of_mem (show (x.1, x.2) ∈ fs from hx)
      refine .object hm.referenceIn? (fun x hx => Option.isSome_of_eq_some (hget x hx)) ?_
      intro x hx v hv
      cases (hget x hx).symm.trans hv
      exact ih x hx (hm.parts x hx)

/-! ### Normalizing -/

/-- What normalization of a value at a position leaves. -/
structure Settled (server : Server) (owns : String → List String → Prop) (p : List String)
    (q : Progress) (w : Json) (r : Json × Progress) : Prop where
  holds : server.Holds owns p r.1
  objects : server.HoldsObjects owns r.2.table
  elsewhere : ∀ id, (∀ rest, ¬ owns id (p ++ rest)) →
    Fields.get? r.2.table id = Fields.get? q.table id
  touched : ∀ id key, q.touched.has id key = true → r.2.touched.has id key = true
  told : Told owns r.2 p w r.1

theorem settled_self {p : List String} {q : Progress} {w : Json} (h : server.Tells p w)
    (hq : server.HoldsObjects owns q.table) : Settled server owns p q w (w, q) where
  holds := h.holds
  objects := hq
  elsewhere _ _ := rfl
  touched _ _ := id
  told := told_self h q

section

variable (hd : ∀ id p q, owns id p → owns id q → p = q)

include hd

/-- The object that is stored has the arriving members over those that were there. -/
theorem store_members {n : Normalizer} (hr : n.resolver = none) {p : List String} {q : Progress}
    {vs : Fields Json} (hvs : server.Members owns p vs) {id : String} (ho : owns id p)
    (hq : server.HoldsObjects owns q.table) :
    ∃ ms, (n.store id vs q).table = Fields.insert q.table id (.object ms) ∧
      server.Members owns p ms ∧ ∀ key v, Fields.get? vs key = some v → Fields.get? ms key = some v := by
  simp only [store]
  split
  · rename_i stored hstored
    obtain ⟨p', fs, ho', _, he, hm⟩ := hq id _ hstored
    cases he
    obtain rfl := hd id p p' ho ho'
    have harray : ∀ x ∈ vs, x.2.asArray? = none := by
      intro x hx
      have hx := hvs.parts x hx
      cases hv : x.2 with
      | array items =>
          rw [hv] at hx
          exact hx.not_array.elim
      | null => rfl
      | bool b => rfl
      | number m => rfl
      | string s => rfl
      | object gs => rfl
    rw [merge, hr]
    refine ⟨_, rfl, ?_, fun key v hv => ?_⟩
    · rw [n.mergeMembers_eq_overlay harray]
      exact hm.overlay hvs
    · rw [n.mergeMembers_eq_overlay harray]
      exact Fields.get?_foldl_insert (p := (key, v)) hvs.ascending.nodup_keys
        (Fields.mem_of_get? hv)
  · exact ⟨vs, rfl, hvs, fun key v hv => hv⟩

theorem settled_settle {n : Normalizer} (hr : n.resolver = none) {p : List String} {q : Progress}
    {ws vs : Fields Json} (hp : server.holding p = .object) (hvs : server.Members owns p vs)
    (hid : ∀ id, n.identity vs = some id → owns id p) (hq : server.HoldsObjects owns q.table)
    (hpresent : ∀ x ∈ ws, (Fields.get? vs x.1).isSome)
    (hparts : ∀ x ∈ ws, ∀ v, Fields.get? vs x.1 = some v → Told owns q (p ++ [x.1]) x.2 v) :
    Settled server owns p q (.object ws) (n.settle vs q) := by
  rw [settle]
  split
  · exact ⟨hvs.holds hp, hq, fun _ _ => rfl, fun _ _ => id,
      .object hvs.referenceIn? hpresent hparts⟩
  · rename_i id hi
    have ho := hid id hi
    obtain ⟨ms, htable, hms, hget⟩ := store_members hd hr hvs ho hq
    have htouched : ∀ other key, q.touched.has other key = true →
        (n.store id vs q).touched.has other key = true :=
      fun other key h => (Touched.has_add _ _ _ _ _).mpr (.inl h)
    refine ⟨.reference hp ho, fun other v hv => ?_, fun other hne => ?_, htouched, ?_⟩
    · rw [htable, Fields.get?_insert] at hv
      split at hv
      · rename_i e
        cases hv
        exact ⟨p, ms, e ▸ ho, hp, rfl, hms⟩
      · exact hq other v hv
    · rw [htable, Fields.get?_insert_of_ne]
      rintro rfl
      exact hne [] (by rwa [List.append_nil])
    · refine .reference ho (htable ▸ Fields.get?_insert_self _ _ _) ?_ ?_ ?_
      · intro x hx
        obtain ⟨v, hv⟩ := Option.isSome_iff_exists.mp (hpresent x hx)
        exact Option.isSome_of_eq_some (hget x.1 v hv)
      · intro x hx
        have hkey : x.1 ∈ Fields.keys vs := Fields.get?_isSome_iff.mp (hpresent x hx)
        exact (Touched.has_add _ _ _ _ _).mpr (.inr ⟨rfl, hkey⟩)
      · intro x hx v hv
        obtain ⟨u, hu⟩ := Option.isSome_iff_exists.mp (hpresent x hx)
        obtain rfl : u = v := Option.some.inj ((hget x.1 u hu).symm.trans hv)
        refine (hparts x hx u hu).frame (fun other rest hother => ?_) htouched
        have hne : other ≠ id := by
          rintro rfl
          have he := congrArg List.length (hd other p _ ho hother)
          simp at he
        rw [htable, Fields.get?_insert_of_ne _ hne]

/-- The members of an object are settled one after the other; none disturbs another one. -/
theorem settled_normalizeFields {n : Normalizer} {levels : Nat} {p : List String}
    {ws : Fields Json} (hn : (Fields.keys ws).Nodup)
    (h : ∀ x ∈ ws, ∀ q : Progress, server.HoldsObjects owns q.table →
      Settled server owns (p ++ [x.1]) q x.2 (n.normalizeWithin levels q x.2))
    {q : Progress} (hq : server.HoldsObjects owns q.table) :
    (∀ x ∈ (n.normalizeFields levels q ws).1, server.Holds owns (p ++ [x.1]) x.2) ∧
      server.HoldsObjects owns (n.normalizeFields levels q ws).2.table ∧
      (∀ id, (∀ key ∈ Fields.keys ws, ∀ rest, ¬ owns id (p ++ key :: rest)) →
        Fields.get? (n.normalizeFields levels q ws).2.table id = Fields.get? q.table id) ∧
      (∀ id key, q.touched.has id key = true →
        (n.normalizeFields levels q ws).2.touched.has id key = true) ∧
      ∀ x ∈ ws, ∃ v, (x.1, v) ∈ (n.normalizeFields levels q ws).1 ∧
        Told owns (n.normalizeFields levels q ws).2 (p ++ [x.1]) x.2 v := by
  induction ws generalizing q with
  | nil =>
      rw [normalizeFields]
      exact ⟨fun x hx => absurd hx List.not_mem_nil, hq, fun _ _ => rfl, fun _ _ => id,
        fun x hx => absurd hx List.not_mem_nil⟩
  | cons x ws ih =>
      obtain ⟨hx, hn⟩ := List.nodup_cons.mp hn
      have hfirst := h x List.mem_cons_self q hq
      have hrest := fun y hy => h y (List.mem_cons_of_mem x hy)
      rw [normalizeFields]
      obtain ⟨hholds, hobjects, helse, htouched, htold⟩ := ih hn hrest hfirst.objects
      refine ⟨?_, hobjects, fun id hid => ?_, fun id key ht => ?_, ?_⟩
      · exact List.forall_mem_cons.mpr ⟨hfirst.holds, hholds⟩
      · rw [helse id fun key hkey => hid key (List.mem_cons_of_mem _ hkey)]
        refine hfirst.elsewhere id fun rest => ?_
        rw [List.append_assoc]
        exact hid x.1 List.mem_cons_self rest
      · exact htouched id key (hfirst.touched id key ht)
      · refine List.forall_mem_cons.mpr ⟨⟨_, List.mem_cons_self, ?_⟩, fun y hy => ?_⟩
        · refine hfirst.told.frame (fun id rest ho => helse id fun key hkey rest' ho' => ?_) htouched
          rw [List.append_assoc, List.singleton_append] at ho
          have he := List.append_cancel_left (hd id _ _ ho ho')
          obtain ⟨rfl, _⟩ := List.cons.inj he
          exact hx hkey
        · obtain ⟨v, hv, ht⟩ := htold y hy
          exact ⟨v, List.mem_cons_of_mem _ hv, ht⟩

theorem settled_normalizeWithin {n : Normalizer} (hr : n.resolver = none)
    (hid : ∀ p fs id, server.holding p = .object → server.Members owns p fs →
      n.identity fs = some id → owns id p)
    (levels : Nat) {p : List String} {w : Json} (hw : server.Tells p w) {q : Progress}
    (hq : server.HoldsObjects owns q.table) :
    Settled server owns p q w (n.normalizeWithin levels q w) := by
  induction w using Json.induction generalizing levels p q with
  | null => exact settled_self hw hq
  | bool b => exact settled_self hw hq
  | number m => exact settled_self hw hq
  | string s => exact settled_self hw hq
  | array items => exact (Server.Holds.not_array hw).elim
  | object ws ih =>
      cases levels with
      | zero => exact settled_self hw hq
      | succ levels =>
          obtain ⟨hp, hm⟩ := hw.members
          have hparts := fun x hx q hq => ih x hx levels (hm.parts x hx) (q := q) hq
          obtain ⟨hholds, hobjects, helse, htouched, htold⟩ :=
            settled_normalizeFields hd hm.ascending.nodup_keys hparts hq
          have hkeys := keys_normalizeFields n levels q ws
          have hvs : server.Members owns p (n.normalizeFields levels q ws).1 :=
            ⟨hm.ascending.of_keys hkeys, hholds⟩
          have hget : ∀ x ∈ ws, ∃ v, Fields.get? (n.normalizeFields levels q ws).1 x.1 = some v ∧
              Told owns (n.normalizeFields levels q ws).2 (p ++ [x.1]) x.2 v := by
            intro x hx
            obtain ⟨v, hv, ht⟩ := htold x hx
            exact ⟨v, hvs.ascending.get?_of_mem hv, ht⟩
          simp only [normalizeWithin, hm.referenceIn?]
          have hpresent : ∀ x ∈ ws, (Fields.get? (n.normalizeFields levels q ws).1 x.1).isSome :=
            fun x hx => Option.isSome_of_eq_some (hget x hx).choose_spec.1
          have hsettle := settled_settle hd hr hp hvs (fun id => hid p _ id hp hvs) hobjects
            hpresent ?_
          · refine ⟨hsettle.holds, hsettle.objects, fun id hne => ?_, fun id key ht => ?_,
              hsettle.told⟩
            · rw [hsettle.elsewhere id hne]
              exact helse id fun key _ rest => hne (key :: rest)
            · exact hsettle.touched id key (htouched id key ht)
          · intro x hx v hv
            obtain ⟨u, hu, ht⟩ := hget x hx
            cases hu.symm.trans hv
            exact ht

end

end Normalizer
end LazyGraph
