import LazyGraph.Proofs.Cache.Step
import LazyGraph.Proofs.Client.Settling
import LazyGraph.Proofs.Client.Upkeep

/-!
The arrival of a reply: its root fields are covered from then on, and those of others stay covered.
-/
namespace LazyGraph

open Normalizer (Told Settled)

variable {server : Server} {owns : String → List String → Prop}

/-- Without a normalizer no object has an identity. -/
def Cache.Options.identity (options : Cache.Options) (fs : Fields Json) : Option String :=
  options.normalizer.bind (·.identity fs)

namespace Cache

namespace Store

variable {s : Store}

/-! ### One root field -/

/-- What stands for a value covers it where no placeholder is left that its writes replace. -/
theorem covers_of_told {q : Normalizer.Progress} {key : ContainerKey} (ht : s.objects = q.table)
    (hclear : ∀ mark ∈ s.placeholders, mark.owner ≠ .container key ∧
      isReplaced q.touched mark = false)
    {p : List String} {w v : Json} (h : Told owns q p w v) {slot : Slot}
    (hv : s.slotValue? slot = some v)
    (hslot : slot.owner = .container key ∨ isReplaced q.touched slot = true) :
    s.Covers slot w := by
  have hfree : ∀ {slot : Slot}, slot.owner = .container key ∨ isReplaced q.touched slot = true →
      slot ∉ s.placeholders := by
    intro slot hslot hm
    obtain ⟨howner, hreplaced⟩ := hclear slot hm
    rcases hslot with he | he
    · exact howner he
    · exact Bool.false_ne_true (hreplaced.symm.trans he)
  have hchild : ∀ {slot : Slot} {segment : String},
      slot.owner = .container key ∨ isReplaced q.touched slot = true →
      ({ slot with path := slot.path ++ [segment] } : Slot).owner = .container key ∨
        isReplaced q.touched { slot with path := slot.path ++ [segment] } = true := by
    rintro ⟨owner, path⟩ segment hslot
    refine hslot.imp_right fun he => ?_
    cases owner with
    | container other => cases he
    | object id =>
        cases path with
        | nil => cases he
        | cons first rest => exact he
  induction h generalizing slot with
  | leaf hl => exact .leaf hv (hfree hslot) hl
  | object hr hn _ ih =>
      refine .object hv (hfree hslot) hr fun x hx => ?_
      obtain ⟨u, hu⟩ := Option.isSome_iff_exists.mp (hn x hx)
      refine ih x hx u hu ?_ (hchild hslot)
      rw [slotValue?_child, hv]
      exact hu
  | @reference p fs gs id _ hf hn hw _ ih =>
      rw [← ht] at hf
      refine .reference hv (hfree hslot) (Option.isSome_of_eq_some hf) fun x hx => ?_
      obtain ⟨u, hu⟩ := Option.isSome_iff_exists.mp (hn x hx)
      refine ih x hx u hu ?_ (.inr (hw x hx))
      rw [slotValue?, ownerValue?, hf, Option.bind_some, Json.walk?_singleton]
      exact hu

theorem isReplaced_mono {t t' : Touched}
    (h : ∀ id key, t.has id key = true → t'.has id key = true) {slot : Slot}
    (hs : isReplaced t slot = true) : isReplaced t' slot = true := by
  obtain ⟨owner, path⟩ := slot
  cases owner with
  | container key => cases hs
  | object id =>
      cases path with
      | nil => cases hs
      | cons key rest => exact h id key hs

end Store

/-- The owners of what lies below a root field of the query. -/
def Owner.Under (owns : String → List String → Prop) (field : String) : Owner → Prop
  | .container key => key = { root := .query, field }
  | .object id => ∃ rest, owns id (Operation.query.text :: field :: rest)

theorem Operation.text_eq_query {root : Operation} (h : root.text = Operation.query.text) :
    root = .query := by
  cases root with
  | query => rfl
  | mutation => exact absurd h (by decide)
  | subscription => exact absurd h (by decide)

section

variable (hd : ∀ id p q, owns id p → owns id q → p = q)

include hd

/-- What lies below a root field refers to nothing that lies below another one. -/
theorem Store.Faithful.under {s : Store} (h : s.Faithful server owns) {field : String} {slot : Slot}
    {id : String} (ho : slot.owner.Under owns field)
    (hv : s.slotValue? slot = some (.reference id)) : (Owner.object id).Under owns field := by
  obtain ⟨owner, path⟩ := slot
  obtain ⟨v, hown, hv⟩ := Option.bind_eq_some_iff.mp hv
  cases owner with
  | container key =>
      cases ho
      exact ⟨path, (h.ownerValue? hd hown rfl).walk?_reference hv⟩
  | object other =>
      obtain ⟨rest, ho⟩ := ho
      exact ⟨rest ++ path, (h.ownerValue? hd hown ho).walk?_reference hv⟩

variable {options : Options} (hr : ∀ n, options.normalizer = some n → n.resolver = none)
  (hid : ∀ p fs id, server.holding p = .object → server.Members owns p fs →
    options.identity fs = some id → owns id p)

include hr hid

theorem settled_normalized {p : List String} {w : Json} (hw : server.Tells p w)
    {objects : ObjectTable} (ho : server.HoldsObjects owns objects) (touched : Touched) :
    Settled server owns p { table := objects, touched } w
      (normalized options objects touched w) := by
  rw [normalized]
  split
  · rename_i n hn
    refine Normalizer.settled_normalizeWithin hd (hr n hn) (fun p fs id hp hm hi => ?_) _ hw ho
    refine hid p fs id hp hm ?_
    rw [Options.identity, hn]
    exact hi
  · exact Normalizer.settled_self hw ho

variable (now : Nat)

/-- What is under another root field stays where a root field arrives. -/
theorem keeps_storeField {s : Store} (touched : Touched) (h : s.Faithful server owns)
    {root : Operation} {field other : String} {w : Json} (hw : server.Tells [root.text, field] w)
    (hne : (root, field) ≠ (.query, other)) :
    let acc := storeField options now root (s, touched) (field, w)
    Store.Keeps (Owner.Under owns other) (s.dropReplacedPlaceholders touched)
      (acc.1.dropReplacedPlaceholders acc.2) := by
  intro acc
  have hsettled := settled_normalized hd hr hid hw h.objects touched
  have hacc : acc.1 = Store.putContainer
      { s with objects := (normalized options s.objects touched w).2.table } { root, field }
      { data := (normalized options s.objects touched w).1
        lifetime := .ofRoot root options.maxAge options.staleWindow now } := rfl
  refine Store.keeps_of_ownerValue? (fun o ho => ?_) (fun mark hm => ?_)
  · rw [Store.ownerValue?_dropReplacedPlaceholders, Store.ownerValue?_dropReplacedPlaceholders,
      hacc, Store.ownerValue?_putContainer]
    cases o with
    | container key =>
        cases ho
        refine if_neg fun e => hne ?_
        cases e
        rfl
    | object id =>
        obtain ⟨rest, ho⟩ := ho
        rw [if_neg fun e => Owner.noConfusion e]
        refine hsettled.elsewhere id fun rest' ho' => hne ?_
        have he := List.cons.inj (hd id _ _ ho ho')
        obtain rfl := Operation.text_eq_query he.1.symm
        rw [(List.cons.inj he.2).1]
  · obtain ⟨hm, hreplaced⟩ := List.mem_filter.mp hm
    obtain ⟨hm, _⟩ := List.mem_filter.mp hm
    refine List.mem_filter.mpr ⟨hm, ?_⟩
    rw [Bool.not_eq_true'] at hreplaced ⊢
    refine Bool.eq_false_iff.mpr fun ht => ?_
    have hlater := Store.isReplaced_mono hsettled.touched ht
    exact Bool.false_ne_true (hreplaced.symm.trans hlater)

variable (hage : options.maxAge = none)

include hage

/-- One root field of a reply. -/
theorem storeField_covers {s : Store} (touched : Touched) (h : s.Faithful server owns)
    {root : Operation} {field : String} {w : Json} (hw : server.Tells [root.text, field] w) :
    let acc := storeField options now root (s, touched) (field, w)
    acc.1.Faithful server owns ∧
      (root = .query → (acc.1.dropReplacedPlaceholders acc.2).CoversField field w) ∧
      ∀ other u, (root, field) ≠ (.query, other) →
        (s.dropReplacedPlaceholders touched).CoversField other u →
        (acc.1.dropReplacedPlaceholders acc.2).CoversField other u := by
  intro acc
  have hsettled := settled_normalized hd hr hid hw h.objects touched
  have hacc : acc.1 = Store.putContainer
      { s with objects := (normalized options s.objects touched w).2.table } { root, field }
      { data := (normalized options s.objects touched w).1
        lifetime := .ofRoot root options.maxAge options.staleWindow now } := rfl
  have hlasts : root = .query →
      Lifetime.ofRoot root options.maxAge options.staleWindow now = .unlimited := by
    rintro rfl
    rw [hage]
    rfl
  refine ⟨?_, ?_, ?_⟩
  · refine ⟨fun q hq => ?_, fun q hq => ?_, hsettled.objects⟩
    · rcases Recency.mem_put.mp hq with rfl | ⟨hq, _⟩
      · exact hsettled.holds
      · exact h.containers q hq
    · rcases Recency.mem_put.mp hq with rfl | ⟨hq, _⟩
      · exact hlasts
      · exact h.lifetimes q hq
  · rintro rfl
    refine Store.covers_of_told rfl (fun mark hm => ?_) hsettled.told ?_ (.inl rfl)
    · obtain ⟨hm, hreplaced⟩ := List.mem_filter.mp hm
      obtain ⟨_, howner⟩ := List.mem_filter.mp hm
      exact ⟨of_decide_eq_true howner, (Bool.not_eq_true' _).mp hreplaced⟩
    · rw [Store.slotValue?, Store.ownerValue?_dropReplacedPlaceholders, hacc,
        Store.ownerValue?_putContainer, if_pos rfl]
      rfl
  · intro other u hne hu
    have hkeeps := keeps_storeField hd hr hid now touched h hw hne
    exact Store.Covers.keeps hu hkeeps (fun slot id ho hv => h.under hd ho hv) rfl

/-- The root fields of a reply, one after the other. -/
theorem storeFields_covers {fields : List (Operation × String × Json)}
    (hw : ∀ x ∈ fields, server.Tells [x.1.text, x.2.1] x.2.2)
    (hn : (fields.map fun x => (x.1, x.2.1)).Nodup) {acc : Store × Touched}
    (h : acc.1.Faithful server owns) :
    let acc' := fields.foldl (fun acc (root, p) => storeField options now root acc p) acc
    acc'.1.Faithful server owns ∧
      (∀ x ∈ fields, x.1 = .query →
        (acc'.1.dropReplacedPlaceholders acc'.2).CoversField x.2.1 x.2.2) ∧
      ∀ other u, (Operation.query, other) ∉ fields.map (fun x => (x.1, x.2.1)) →
        (acc.1.dropReplacedPlaceholders acc.2).CoversField other u →
        (acc'.1.dropReplacedPlaceholders acc'.2).CoversField other u := by
  induction fields generalizing acc with
  | nil => exact ⟨h, fun x hx => absurd hx List.not_mem_nil, fun _ _ _ => id⟩
  | cons x fields ih =>
      obtain ⟨root, field, w⟩ := x
      obtain ⟨s, touched⟩ := acc
      obtain ⟨hx, hrest⟩ := List.nodup_cons.mp hn
      obtain ⟨hfaithful, hcovers, hkept⟩ :=
        storeField_covers hd hr hid now hage touched h (hw _ List.mem_cons_self)
      obtain ⟨hfaithful', hcovers', hkept'⟩ :=
        ih (fun y hy => hw y (List.mem_cons_of_mem _ hy)) hrest hfaithful
      refine ⟨hfaithful', fun y hy hq => ?_, fun other u ho hu => ?_⟩
      · rcases List.mem_cons.mp hy with rfl | hy
        · cases hq
          exact hkept' field w hx (hcovers rfl)
        · exact hcovers' y hy hq
      · rw [List.map_cons, List.mem_cons, not_or] at ho
        exact hkept' other u ho.2 (hkept other u (Ne.symm ho.1) hu)

/-- A reply is stored whatever was there before. Each of its root fields is then covered by what
it says, and those that it does not have stay covered. -/
theorem set_covers {c : Cache} (hoptions : c.options = options) (h : c.store.Faithful server owns)
    {root : Operation} {fs : Fields Json}
    (hm : server.Members (fun _ _ => False) [root.text] fs) :
    ∃ d notice, c.set now (.object [(root.text, .object fs)]) false = .ok (d, notice) ∧
      notice.payload = .object [(root.text, .object fs)] ∧ d.options = options ∧
      d.store.Faithful server owns ∧
      (root = .query → ∀ q ∈ fs, d.store.CoversField q.1 q.2) ∧
      ∀ other u, (root = .query → other ∉ Fields.keys fs) → c.store.CoversField other u →
        d.store.CoversField other u := by
  subst hoptions
  obtain ⟨d, notice, hset, hpayload⟩ : ∃ d notice,
      c.set now (.object [(root.text, .object fs)]) false = .ok (d, notice) ∧
        notice.payload = .object [(root.text, .object fs)] := by
    simp only [set, payloadRoots_fieldPayload]
    exact ⟨_, _, rfl, rfl⟩
  obtain ⟨roots, rs, he, hroots, ho, hstore⟩ := set_eq_ok hset
  cases he
  rw [payloadRoots_fieldPayload] at hroots
  cases hroots
  have hfields : payloadFields [(root, fs)] = fs.map (root, ·) := List.append_nil _
  rw [hfields] at hstore
  have hkeys : (fs.map (root, ·)).map (fun x => (x.1, x.2.1)) = (Fields.keys fs).map (root, ·) := by
    rw [Fields.keys, List.map_map, List.map_map]
    rfl
  have hn : ((fs.map (root, ·)).map fun x => (x.1, x.2.1)).Nodup := by
    rw [hkeys]
    exact List.pairwise_map.mpr (hm.ascending.nodup_keys.imp fun hne e => hne (Prod.mk.inj e).2)
  have htells : ∀ x ∈ fs.map (root, ·), server.Tells [x.1.text, x.2.1] x.2.2 := by
    intro x hx
    obtain ⟨q, hq, rfl⟩ := List.mem_map.mp hx
    exact hm.parts q hq
  obtain ⟨hfaithful, hcovers, hkept⟩ := storeFields_covers hd hr hid now hage htells hn
    (show Store.Faithful server owns (c.store, ([] : Touched)).1 from h)
  have hdrop := hfaithful.shrinks (Store.shrinks_dropReplacedPlaceholders _
    (storeFields c.options now c.store (fs.map (root, ·))).2)
  have hsweep := hdrop.sweep now
  have hlast : ∀ {field u}, ((storeFields c.options now c.store (fs.map (root, ·))).1
      |>.dropReplacedPlaceholders (storeFields c.options now c.store (fs.map (root, ·))).2
      |>.CoversField field u) → d.store.CoversField field u := by
    intro field u hu
    rw [hstore]
    exact (hdrop.covers_sweep hu now).keeps (hsweep.keeps_enforceCapacity _)
  refine ⟨d, notice, hset, hpayload, ho, ?_, fun hq q hqm => ?_, fun other u hne hu => ?_⟩
  · rw [hstore]
    exact hsweep.shrinks (Store.shrinks_enforceCapacity _ _)
  · exact hlast (hcovers (root, q) (List.mem_map_of_mem hqm) hq)
  · refine hlast (hkept other u ?_ ?_)
    · rw [hkeys]
      intro hmem
      obtain ⟨key, hkey, he⟩ := List.mem_map.mp hmem
      cases he
      exact hne rfl hkey
    · refine hu.keeps (Store.keeps_of_ownerValue? (fun o _ => ?_) List.filter_sublist.subset)
      exact Store.ownerValue?_dropReplacedPlaceholders _ _ o

end

end Cache
end LazyGraph
