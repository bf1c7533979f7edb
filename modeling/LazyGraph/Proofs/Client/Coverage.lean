import LazyGraph.Cache
import LazyGraph.Proofs.Client.Faithful

/-!
Contents that hold all of a value that was stored, through references and without placeholders:
every way down the value can be read, and what happens to other data leaves it so.
-/
namespace LazyGraph.Cache.Store

open Server (Kept)

variable {s t u : Store} {O : Owner → Prop}

/-! ### What stays -/

/-- What the owners hold stays, and no placeholder takes the place of data. -/
structure Keeps (O : Owner → Prop) (s t : Store) : Prop where
  values : ∀ slot v, O slot.owner → s.slotValue? slot = some v →
    ∃ w, t.slotValue? slot = some w ∧ Kept v w
  marks : ∀ slot ∈ t.placeholders, O slot.owner →
    slot ∈ s.placeholders ∨ s.slotValue? slot = none

theorem Kept.trans {v w x : Json} (h : Kept v w) (h' : Kept w x) : Kept v x := by
  rcases h with rfl | ⟨fs, gs, rfl, rfl, hf, hg⟩
  · exact h'
  · rcases h' with rfl | ⟨as, bs, he, rfl, _, hb⟩
    · exact .inr ⟨fs, gs, rfl, rfl, hf, hg⟩
    · exact .inr ⟨fs, bs, rfl, rfl, hf, hb⟩

theorem Keeps.refl (O : Owner → Prop) (s : Store) : Keeps O s s :=
  ⟨fun _ v _ hv => ⟨v, hv, .inl rfl⟩, fun _ hm _ => .inl hm⟩

theorem Keeps.trans (h : Keeps O s t) (h' : Keeps O t u) : Keeps O s u := by
  refine ⟨fun slot v ho hv => ?_, fun slot hm ho => ?_⟩
  · obtain ⟨w, hw, hvw⟩ := h.values slot v ho hv
    obtain ⟨x, hx, hwx⟩ := h'.values slot w ho hw
    exact ⟨x, hx, Kept.trans hvw hwx⟩
  · rcases h'.marks slot hm ho with hm | hn
    · exact h.marks slot hm ho
    · refine .inr (Option.eq_none_iff_forall_ne_some.mpr fun v hv => ?_)
      obtain ⟨w, hw, _⟩ := h.values slot v ho hv
      cases hn.symm.trans hw

/-- Where owners keep their values, what they hold stays. -/
theorem keeps_of_ownerValue? (ho : ∀ o, O o → t.ownerValue? o = s.ownerValue? o)
    (hm : t.placeholders ⊆ s.placeholders) : Keeps O s t := by
  refine ⟨fun slot v hO hv => ⟨v, ?_, .inl rfl⟩, fun slot hs _ => .inl (hm hs)⟩
  rw [slotValue?, ho slot.owner hO]
  exact hv

/-! ### Coverage -/

/-- A slot holds all of a value. A reference leads to an object with all of its members. -/
inductive Covers (s : Store) : Slot → Json → Prop
  | leaf {slot : Slot} {v : Json} (at_ : s.slotValue? slot = some v) (clear : slot ∉ s.placeholders)
    (whole : v.asObject? = none ∧ v.asArray? = none) : Covers s slot v
  | object {slot : Slot} {fs gs : Fields Json} (at_ : s.slotValue? slot = some (.object gs))
    (clear : slot ∉ s.placeholders) (plain : Json.referenceIn? gs = none)
    (parts : ∀ q ∈ fs, Covers s { slot with path := slot.path ++ [q.1] } q.2) :
    Covers s slot (.object fs)
  | reference {slot : Slot} {fs : Fields Json} {id : String}
    (at_ : s.slotValue? slot = some (.reference id)) (clear : slot ∉ s.placeholders)
    (known : (Fields.get? s.objects id).isSome)
    (parts : ∀ q ∈ fs, Covers s { owner := .object id, path := [q.1] } q.2) :
    Covers s slot (.object fs)

theorem Keeps.clear (h : Keeps O s t) {slot : Slot} {v : Json} (ho : O slot.owner)
    (hv : s.slotValue? slot = some v) (hc : slot ∉ s.placeholders) : slot ∉ t.placeholders := by
  intro hm
  rcases h.marks slot hm ho with hm | hn
  · exact hc hm
  · cases hn.symm.trans hv

/-- Coverage stays where what the owners hold stays, and where these refer to no others. -/
theorem Covers.keeps {slot : Slot} {w : Json} (h : s.Covers slot w) (hst : Keeps O s t)
    (hclosed : ∀ slot id, O slot.owner → s.slotValue? slot = some (.reference id) →
      O (.object id)) (ho : O slot.owner) : t.Covers slot w := by
  induction h with
  | leaf hv hc hl =>
      obtain ⟨w, hw, rfl | ⟨_, _, rfl, _⟩⟩ := hst.values _ _ ho hv
      · exact .leaf hw (hst.clear ho hv hc) hl
      · cases hl.1
  | object hv hc hr _ ih =>
      obtain ⟨w, hw, rfl | ⟨_, gs, _, rfl, _, hg⟩⟩ := hst.values _ _ ho hv
      · exact .object hw (hst.clear ho hv hc) hr fun q hq => ih q hq ho
      · exact .object hw (hst.clear ho hv hc) hg fun q hq => ih q hq ho
  | @reference slot fs id hv hc hk _ ih =>
      have hid := hclosed _ _ ho hv
      obtain ⟨w, hw, rfl | ⟨_, _, he, _, hr, _⟩⟩ := hst.values _ _ ho hv
      · obtain ⟨x, hx⟩ := Option.isSome_iff_exists.mp hk
        let whole : Slot := { owner := .object id, path := [] }
        have hxv : s.slotValue? whole = some x := by
          rw [slotValue?, ownerValue?, hx]
          rfl
        obtain ⟨y, hy, _⟩ := hst.values whole x hid hxv
        have hknown : (Fields.get? t.objects id).isSome := by
          obtain ⟨z, hz, _⟩ := Option.bind_eq_some_iff.mp hy
          exact Option.isSome_of_eq_some hz
        exact .reference hw (hst.clear ho hv hc) hknown fun q hq => ih q hq hid
      · cases he
        cases hr

/-! ### Reading what is covered -/

theorem Covers.value {slot : Slot} {w : Json} (h : s.Covers slot w) :
    ∃ v, s.slotValue? slot = some v ∧ slot ∉ s.placeholders ∧ (v.resolve? s.objects).isSome := by
  cases h with
  | leaf hv hc hl =>
      refine ⟨_, hv, hc, ?_⟩
      rw [Json.resolve?]
      cases w with
      | object fs => cases hl.1
      | null => rfl
      | bool b => rfl
      | number n => rfl
      | string s => rfl
      | array items => rfl
  | object hv hc hr _ =>
      refine ⟨_, hv, hc, ?_⟩
      rw [Json.resolve?, Json.referenceId?, hr]
      rfl
  | reference hv hc hk _ =>
      refine ⟨_, hv, hc, ?_⟩
      rw [Json.resolve?, Json.referenceId?_eq_some_iff.mpr rfl]
      exact hk

/-- The value that a key of a covered one applies to, with its slot, and the part below. -/
theorem Covers.enter? {slot : Slot} {v w y : Json} {key : String} (h : s.Covers slot w)
    (hv : s.slotValue? slot = some v) (hy : w.step? key = some y) :
    ∃ q : Json × Slot, enter? s.objects v slot = some q ∧ s.slotValue? q.2 = some q.1 ∧
      s.Covers { q.2 with path := q.2.path ++ [key] } y := by
  cases h with
  | leaf _ _ hl =>
      cases w with
      | object fs => cases hl.1
      | array items => cases hl.2
      | null => cases hy
      | bool b => cases hy
      | number n => cases hy
      | string s => cases hy
  | object hg _ hr parts =>
      cases hv.symm.trans hg
      refine ⟨(_, slot), ?_, hg, parts (key, y) (Fields.mem_of_get? hy)⟩
      rw [Store.enter?, Json.referenceId?, hr]
  | @reference _ fs id hg _ hk parts =>
      cases hv.symm.trans hg
      obtain ⟨z, hz⟩ := Option.isSome_iff_exists.mp hk
      refine ⟨(z, { owner := .object id, path := [] }), ?_, ?_,
        parts (key, y) (Fields.mem_of_get? hy)⟩
      · rw [Store.enter?, Json.referenceId?_eq_some_iff.mpr rfl]
        simp only [hz, Option.map_some]
      · rw [slotValue?, ownerValue?, hz]
        rfl

/-- A way down a covered value ends at a slot that covers what it leads to. -/
theorem Covers.slotFrom? {slot : Slot} {v w x : Json} {rest : List String}
    (h : s.Covers slot w) (hv : s.slotValue? slot = some v) (hw : w.walk? rest = some x) :
    ∃ t, slotFrom? s.objects v slot rest = some t ∧ s.Covers t x := by
  induction rest generalizing slot v w with
  | nil =>
      cases hw
      exact ⟨slot, rfl, h⟩
  | cons key rest ih =>
      obtain ⟨y, hy, hw⟩ := Option.bind_eq_some_iff.mp hw
      obtain ⟨q, hq, hqv, hbelow⟩ := h.enter? hv hy
      cases rest with
      | nil =>
          cases hw
          refine ⟨_, ?_, hbelow⟩
          rw [slotFrom?_singleton, hq]
          rfl
      | cons next rest =>
          obtain ⟨z, hz, _⟩ := hbelow.value
          obtain ⟨t, ht, hx⟩ := ih hbelow hz hw
          refine ⟨t, ?_, hx⟩
          rw [slotValue?_child, hqv, Option.bind_some] at hz
          rw [slotFrom?_cons, hq, Option.bind_some, hz]
          exact ht

end LazyGraph.Cache.Store
