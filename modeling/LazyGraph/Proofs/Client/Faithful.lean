import LazyGraph.Proofs.Cache.Store
import LazyGraph.Proofs.Client.Server

/-!
Contents that tell nothing but what the server holds: what is read from them is right, and
placeholders for objects keep them so.
-/
namespace LazyGraph

namespace Server

variable {server : Server} {owns : String → List String → Prop} {p : List String}

/-! ### Placeholders in a value -/

/-- A value that stays, or an object that stays one and is no reference. -/
def Kept (v w : Json) : Prop :=
  w = v ∨ ∃ fs gs, v = .object fs ∧ w = .object gs ∧ Json.referenceIn? fs = none ∧
    Json.referenceIn? gs = none

theorem Members.put {fs : Fields Json} {key : String} (h : server.Members owns p fs)
    (hp : server.holding (p ++ [key]) = .object) :
    server.Members owns p (Fields.insert fs key (.object [])) :=
  h.insert (Members.nil.holds hp)

/-- The value below a segment of an object that is no reference, or a value without a way down. -/
theorem Holds.members_of_step? {v u : Json} {key : String} (h : server.Holds owns p v)
    (hs : v.step? key = some u) :
    (∃ fs, v = .object fs ∧ server.holding p = .object ∧ server.Members owns p fs) ∨
      ∃ id, u = .string id := by
  cases v with
  | object fs =>
      obtain ⟨hp, ⟨id, rfl, _⟩ | hm⟩ := h.object_cases
      · rw [Json.step?, Fields.get?_cons] at hs
        split at hs
        · cases hs
          exact .inr ⟨id, rfl⟩
        · cases hs
      · exact .inl ⟨fs, rfl, hp, hm⟩
  | array items => exact h.not_array.elim
  | null => cases hs
  | bool b => cases hs
  | number n => cases hs
  | string s => cases hs

theorem writeAt?_string (s : String) (value : Json) {path : List String} (hn : path ≠ []) :
    (Json.string s).writeAt? value path = none := by
  cases path with
  | nil => exact absurd rfl hn
  | cons key rest => cases rest <;> rfl

/-- Where one member is written, what the others give stays the same. -/
theorem kept_insert {fs : Fields Json} {key : String} {v : Json} (hf : server.Members owns p fs)
    (hg : server.Members owns p (Fields.insert fs key v))
    (hkey : ∀ way u, (Json.object fs).walk? (key :: way) = some u →
      ∃ u', v.walk? way = some u' ∧ Kept u u') :
    ∀ way u, (Json.object fs).walk? way = some u →
      ∃ u', (Json.object (Fields.insert fs key v)).walk? way = some u' ∧ Kept u u' := by
  intro way u hu
  cases way with
  | nil =>
      cases hu
      exact ⟨_, rfl, .inr ⟨_, _, rfl, rfl, hf.referenceIn?, hg.referenceIn?⟩⟩
  | cons other way =>
      rw [Json.walk?_cons, Json.step?]
      by_cases ho : other = key
      · subst ho
        rw [Fields.get?_insert_self]
        exact hkey way u hu
      · rw [Fields.get?_insert_of_ne v ho]
        exact ⟨u, hu, .inl rfl⟩

/-- A placeholder for an object at a free position of a value keeps it true, and what else is
there stays. -/
theorem Holds.seedAt {v w : Json} {path : List String} (h : server.Holds owns p v)
    (hn : path ≠ []) (hp : server.holding (p ++ path) = .object)
    (hparent : ∀ u, v.walk? path.dropLast = some u → u.referenceId? = none)
    (hfree : v.walk? path = none) (hw : v.writeAt? (.object []) path = some w) :
    ∃ fs gs, v = .object fs ∧ w = .object gs ∧ server.holding p = .object ∧
      server.Members owns p fs ∧ server.Members owns p gs ∧
      ∀ way u, v.walk? way = some u → ∃ u', w.walk? way = some u' ∧ Kept u u' := by
  induction path generalizing v w p with
  | nil => exact absurd rfl hn
  | cons key rest ih =>
      cases rest with
      | nil =>
          rw [Json.walk?_singleton] at hfree
          cases v with
          | object fs =>
              obtain ⟨hobject, ⟨id, rfl, _⟩ | hm⟩ := h.object_cases
              · cases hparent _ rfl
              · cases hw
                have hput := hm.put hp
                refine ⟨fs, _, rfl, rfl, hobject, hm, hput, kept_insert hm hput fun way u hu => ?_⟩
                rw [Json.walk?_cons, hfree] at hu
                cases hu
          | array items => exact h.not_array.elim
          | null => cases hw
          | bool b => cases hw
          | number n => cases hw
          | string s => cases hw
      | cons next rest =>
          rw [Json.writeAt?_cons v _ key (List.cons_ne_nil next rest)] at hw
          obtain ⟨u, u', hs, hu', hw⟩ := Json.alter?_cases hw
          rcases h.members_of_step? hs with ⟨fs, rfl, hobject, hm⟩ | ⟨id, rfl⟩
          · have hbelow := hm.parts (key, u) (Fields.mem_of_get? hs)
            rw [Json.walk?_cons, hs, Option.bind_some] at hfree
            rw [List.append_cons] at hp
            have hfurther : ∀ x, u.walk? (next :: rest).dropLast = some x →
                x.referenceId? = none := by
              intro x hx
              refine hparent x ?_
              rw [List.dropLast_cons_cons, Json.walk?_cons, hs]
              exact hx
            obtain ⟨as, bs, rfl, rfl, hat, _, hbs, hrest⟩ := ih hbelow
              (List.cons_ne_nil next rest) hp hfurther hfree hu'
            rcases hw with ⟨_, he, rfl⟩ | ⟨_, _, he, _⟩
            · cases he
              have hput := hm.insert (hbs.holds hat)
              refine ⟨fs, _, rfl, rfl, hobject, hm, hput, kept_insert hm hput fun way x hx => ?_⟩
              rw [Json.walk?_cons, hs] at hx
              exact hrest way x hx
            · cases he
          · rw [writeAt?_string id _ (List.cons_ne_nil next rest)] at hu'
            cases hu'

/-- Every object of a table tells what the server holds at the position of its identity. -/
def HoldsObjects (server : Server) (owns : String → List String → Prop) (table : ObjectTable) :
    Prop :=
  ∀ id v, Fields.get? table id = some v → ∃ p fs, owns id p ∧ server.holding p = .object ∧
    v = .object fs ∧ server.Members owns p fs

end Server

/-- The segments from the operation down. -/
def CachePath.position (path : CachePath) : List String :=
  path.root.text :: path.field :: path.rest

namespace Cache

/-- The positions at which the value of an owner stands. -/
def Owner.Stands (owns : String → List String → Prop) : Owner → List String → Prop
  | .container key, p => p = [key.root.text, key.field]
  | .object id, p => owns id p

/-- The contents tell what a server holds, and query data lasts for ever. -/
structure Store.Faithful (server : Server) (owns : String → List String → Prop) (s : Store) :
    Prop where
  containers : ∀ q ∈ s.containers, server.Holds owns [q.1.root.text, q.1.field] q.2.data
  lifetimes : ∀ q ∈ s.containers, q.1.root = .query → q.2.lifetime = .unlimited
  objects : server.HoldsObjects owns s.objects

namespace Store

variable {server : Server} {owns : String → List String → Prop} {s t : Store}

theorem faithful_empty : ({} : Store).Faithful server owns where
  containers _ h := absurd h List.not_mem_nil
  lifetimes _ h := absurd h List.not_mem_nil
  objects _ _ h := nomatch h

namespace Faithful

theorem direct (h : s.Faithful server owns) : s.Direct := by
  intro id v hv
  obtain ⟨p, fs, _, _, rfl, hm⟩ := h.objects id v hv
  exact hm.referenceIn?

/-! ### Reading -/

section Reading

variable (hd : ∀ id p q, owns id p → owns id q → p = q)

include hd

theorem get? (h : s.Faithful server owns) {id : String} {p : List String} {v : Json}
    (hv : Fields.get? s.objects id = some v) (hp : owns id p) :
    ∃ fs, v = .object fs ∧ server.holding p = .object ∧ server.Members owns p fs := by
  obtain ⟨q, fs, hq, hobject, rfl, hm⟩ := h.objects id v hv
  obtain rfl := hd id p q hp hq
  exact ⟨fs, rfl, hobject, hm⟩

theorem ownerValue? (h : s.Faithful server owns) {owner : Owner} {p : List String} {v : Json}
    (hv : s.ownerValue? owner = some v) (hp : owner.Stands owns p) : server.Holds owns p v := by
  cases owner with
  | container key =>
      obtain ⟨c, hc, rfl⟩ := Option.map_eq_some_iff.mp hv
      cases hp
      exact h.containers _ (Recency.mem_of_peek? hc)
  | object id =>
      obtain ⟨fs, rfl, hobject, hm⟩ := h.get? hd hv hp
      exact hm.holds hobject

/-- Where a way down enters the object of a reference, it stays at its position. -/
theorem enter? (h : s.Faithful server owns) {v u : Json} {slot t : Slot} {b p : List String}
    (hb : slot.owner.Stands owns b) (hat : b ++ slot.path = p) (hp : server.Holds owns p v)
    (he : enter? s.objects v slot = some (u, t)) :
    (∃ b, t.owner.Stands owns b ∧ b ++ t.path = p) ∧ server.Holds owns p u := by
  rw [Store.enter?] at he
  cases hr : v.referenceId? with
  | none =>
      simp only [hr] at he
      cases he
      exact ⟨⟨b, hb, hat⟩, hp⟩
  | some id =>
      simp only [hr] at he
      obtain ⟨w, hw, he⟩ := Option.map_eq_some_iff.mp he
      cases he
      obtain rfl := Json.referenceId?_eq_some_iff.mp hr
      have ho := hp.owned
      obtain ⟨fs, rfl, hobject, hm⟩ := h.get? hd hw ho
      exact ⟨⟨p, ho, List.append_nil p⟩, hm.holds hobject⟩

/-- A slot at the end of a way down lies at its position, and what is there is right. -/
theorem slotFrom? (h : s.Faithful server owns) {v : Json} {slot t : Slot} {b p rest : List String}
    (hb : slot.owner.Stands owns b) (hat : b ++ slot.path = p) (hp : server.Holds owns p v)
    (hv : s.slotValue? slot = some v) (hs : slotFrom? s.objects v slot rest = some t) :
    (∃ b, t.owner.Stands owns b ∧ b ++ t.path = p ++ rest) ∧
      ∀ u, s.slotValue? t = some u → server.Holds owns (p ++ rest) u := by
  induction rest generalizing v slot b p with
  | nil =>
      cases hs
      rw [List.append_nil]
      refine ⟨⟨b, hb, hat⟩, fun u hu => ?_⟩
      cases hv.symm.trans hu
      exact hp
  | cons segment rest ih =>
      cases rest with
      | nil =>
          rw [slotFrom?_singleton] at hs
          obtain ⟨⟨w, q⟩, hq, rfl⟩ := Option.map_eq_some_iff.mp hs
          obtain ⟨⟨b', hb', hat'⟩, hw⟩ := h.enter? hd hb hat hp hq
          obtain ⟨hwv, hr⟩ := slotValue?_enter? h.direct hv hq
          refine ⟨⟨b', hb', by rw [← hat', List.append_assoc]⟩, fun u hu => ?_⟩
          rw [slotValue?_child, hwv] at hu
          exact hw.step? hr hu
      | cons next rest =>
          rw [slotFrom?_cons] at hs
          obtain ⟨⟨w, q⟩, hq, hs⟩ := Option.bind_eq_some_iff.mp hs
          obtain ⟨x, hx, hs⟩ := Option.bind_eq_some_iff.mp hs
          obtain ⟨⟨b', hb', hat'⟩, hw⟩ := h.enter? hd hb hat hp hq
          obtain ⟨hwv, hr⟩ := slotValue?_enter? h.direct hv hq
          let below : Slot := { q with path := q.path ++ [segment] }
          have hbelow : s.slotValue? below = some x := by
            rw [slotValue?_child, hwv]
            exact hx
          have hstands : below.owner.Stands owns b' := hb'
          have hat'' : b' ++ below.path = p ++ [segment] := by
            rw [← hat', List.append_assoc]
          rw [List.append_cons]
          exact ih hstands hat'' (hw.step? hr hx) hbelow hs

theorem slot? (h : s.Faithful server owns) {path : CachePath} {slot : Slot}
    (hs : s.slot? path = some slot) :
    (∃ b, slot.owner.Stands owns b ∧ b ++ slot.path = path.position) ∧
      ∀ u, s.slotValue? slot = some u → server.Holds owns path.position u := by
  obtain ⟨c, hc, hs⟩ := Option.bind_eq_some_iff.mp hs
  have hroot := h.containers _ (Recency.mem_of_peek? hc)
  let start : Slot := { owner := .container (keyOf path), path := [] }
  have hdata : s.slotValue? start = some c.data := by
    rw [slotValue?, Store.ownerValue?, hc]
    rfl
  have hstands : start.owner.Stands owns [path.root.text, path.field] := rfl
  exact h.slotFrom? hd hstands (List.append_nil _) hroot hdata hs

/-- What is read at a path is right. -/
theorem valueAt? (h : s.Faithful server owns) {path : CachePath} {v : Json}
    (hv : (s.valueAt? path).bind (·.resolve? s.objects) = some v) :
    server.Holds owns path.position v := by
  obtain ⟨u, hu, hv⟩ := Option.bind_eq_some_iff.mp hv
  obtain ⟨slot, hs, hu⟩ := Option.bind_eq_some_iff.mp hu
  have hp := (h.slot? hd hs).2 u hu
  rw [Json.resolve?] at hv
  cases hr : u.referenceId? with
  | none =>
      simp only [hr] at hv
      cases hv
      exact hp
  | some id =>
      simp only [hr] at hv
      obtain rfl := Json.referenceId?_eq_some_iff.mp hr
      have ho := hp.owned
      obtain ⟨fs, rfl, hobject, hm⟩ := h.get? hd hv ho
      exact hm.holds hobject

end Reading

end Faithful
end Store
end Cache
end LazyGraph
