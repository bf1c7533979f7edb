import LazyGraph.Proofs.Cache.Position
import LazyGraph.Proofs.Cache.RoundTrip
import LazyGraph.Proofs.Json.Expansion

/-!
A write below a root field changes one position, and every path that resolves to that position
reads the value, unless it goes through the position on its way or the write makes a reference of
what the position lies in.
-/
namespace LazyGraph

/-! ### Values that are stored as they are -/

namespace Normalizer

variable {n : Normalizer} {levels : Nat}

theorem normalizeItems_of_kept {items : List Json}
    (h : ∀ v ∈ items, ∀ p, n.normalizeWithin levels p v = (v, p)) (p : Progress) :
    n.normalizeItems levels p items = (items, p) := by
  induction items with
  | nil => rw [normalizeItems]
  | cons v items ih =>
      have hrest := ih fun u hu => h u (List.mem_cons_of_mem v hu)
      simp only [normalizeItems, h v List.mem_cons_self, hrest]

theorem normalizeFields_of_kept {fs : List (String × Json)}
    (h : ∀ q ∈ fs, ∀ p, n.normalizeWithin levels p q.2 = (q.2, p)) (p : Progress) :
    n.normalizeFields levels p fs = (fs, p) := by
  induction fs with
  | nil => rw [normalizeFields]
  | cons q fs ih =>
      have hrest := ih fun u hu => h u (List.mem_cons_of_mem q hu)
      simp only [normalizeFields, h q List.mem_cons_self, hrest]

/-- A value without identified objects stays as it is, and so does the table. -/
theorem normalizeWithin_of_unidentified {v : Json}
    (h : v.Everywhere fun fs => n.identity fs = none) (levels : Nat) (p : Progress) :
    n.normalizeWithin levels p v = (v, p) := by
  induction v using Json.induction generalizing levels p with
  | null => rw [normalizeWithin.eq_def]
  | bool b => rw [normalizeWithin.eq_def]
  | number m => rw [normalizeWithin.eq_def]
  | string s => rw [normalizeWithin.eq_def]
  | array items ih =>
      have hitems := Json.everywhere_array.mp h
      cases levels with
      | zero => rw [normalizeWithin]
      | succ levels =>
          rw [normalizeWithin, normalizeItems_of_kept fun v hv p => ih v hv (hitems v hv) levels p]
  | object fs ih =>
      obtain ⟨hnone, hfields⟩ := Json.everywhere_object.mp h
      cases levels with
      | zero => rw [normalizeWithin]
      | succ levels =>
          rw [normalizeWithin]
          split
          · rfl
          · have hkept := normalizeFields_of_kept fun q hq p => ih q hq (hfields q hq) levels p
            simp only [hkept, settle, hnone]

end Normalizer

namespace Cache

/-- No object of the value has an identity. -/
def Options.Anonymous (options : Options) : Json → Prop :=
  Json.Everywhere fun fs => ∀ n, options.normalizer = some n → n.identity fs = none

theorem Options.Anonymous.normalized {options : Options} {v : Json} (h : options.Anonymous v)
    (objects : ObjectTable) :
    normalized options objects [] v = (v, { table := objects, touched := [] }) := by
  rw [Cache.normalized]
  split
  · rename_i n hn
    exact Normalizer.normalizeWithin_of_unidentified (h.mono fun _ hP => hP n hn) _ _
  · rfl

/-- No object of the value has an identity or the key of references. -/
def Options.Unidentified (options : Options) : Json → Prop :=
  Json.Everywhere fun fs => referenceKey ∉ Fields.keys fs ∧
    ∀ n, options.normalizer = some n → n.identity fs = none

theorem Options.Unidentified.plain {options : Options} {v : Json}
    (h : options.Unidentified v) : v.Plain := Json.Everywhere.mono (fun _ h => h.1) h

theorem Options.Unidentified.normalized {options : Options} {v : Json}
    (h : options.Unidentified v) (objects : ObjectTable) :
    normalized options objects [] v = (v, { table := objects, touched := [] }) :=
  Options.Anonymous.normalized (Json.Everywhere.mono (fun _ h => h.2) h) objects

namespace Store

/-! ### One way down, before and after -/

variable {s t : Store} {p : Position} {value : Json}

/-- What stands at a position before and after a value was put at `p`: the same beside `p`, and
what leads to `p` above it. -/
inductive Tracks (s t : Store) (p : Position) (value : Json) (q : Position) : Json → Json → Prop
  | beside {x : Json} (outside : ¬ p.Encloses q) (apart : ¬ q.Encloses p) : Tracks s t p value q x x
  | above {x y : Json} {rest : List Json.Place} (place : p = { q with places := q.places ++ rest })
    (put : Json.Put value rest x y) (before : s.at? q = some x) (after : t.at? q = some y) :
    Tracks s t p value q x y

/-- The value of an owner, before and after. -/
theorem Puts.tracks_root (h : s.Puts p value t) {owner : Owner} {u : Json}
    (hu : s.ownerValue? owner = some u) :
    ∃ w, t.ownerValue? owner = some w ∧ Tracks s t p value { owner, places := [] } u w := by
  obtain ⟨x, y, hx, hy, hput⟩ := h.put
  by_cases ho : owner = p.owner
  · subst ho
    obtain rfl : u = x := Option.some.inj (hu.symm.trans hx)
    refine ⟨y, hy, .above rfl hput ?_ ?_⟩
    · rw [at?, hu]
      rfl
    · rw [at?, hy]
      rfl
  · refine ⟨u, (h.elsewhere owner ho).trans hu, .beside (fun e => ho e.1.symm) fun e => ho e.1⟩

/-- One segment further down: the value itself stands at `p`, and no other change. -/
theorem Tracks.child {q : Position} {x y : Json} (h : Tracks s t p value q x y) {segment : String}
    {place : Json.Place} (hp : x.place? segment = some place) :
    y.place? segment = some place ∧ (p = q.child place → y.child? place = some value) ∧
    (¬ p.Encloses (q.child place) → ∀ x', x.child? place = some x' →
      ∃ y', y.child? place = some y' ∧ Tracks s t p value (q.child place) x' y') := by
  cases h with
  | beside outside apart =>
      refine ⟨hp, fun e => absurd (e ▸ q.encloses_child place) apart, fun hout x' hx => ?_⟩
      exact ⟨x', hx, .beside hout fun hc => apart ((q.encloses_child place).trans hc)⟩
  | above hplace hput before after =>
      rename_i rest
      refine ⟨(hput.place? segment).trans hp, ?_⟩
      have hat : ∀ {r : Store} {z : Json}, r.at? q = some z →
          r.at? (q.child place) = z.child? place := by
        intro r z hz
        obtain ⟨v, hv, hz⟩ := Option.bind_eq_some_iff.mp hz
        rw [at?, Position.child, hv, Option.bind_some, Json.at?_append, hz, Option.bind_some,
          Json.at?_singleton]
      cases rest with
      | nil => exact absurd rfl hput.ne_nil
      | cons first rest =>
          by_cases hf : place = first
          · subst hf
            have hchild : p = { q.child place with places := (q.child place).places ++ rest } := by
              rw [hplace, Position.child, List.append_assoc]
              rfl
            cases rest with
            | nil =>
                rw [List.append_nil] at hchild
                exact ⟨fun _ => hput.child?_last, fun hout => absurd (hchild ▸ .refl p) hout⟩
            | cons next rest =>
                obtain ⟨x', y', hx, hy, hbelow⟩ := hput.child?_above (List.cons_ne_nil next rest)
                refine ⟨fun e => ?_, fun _ x'' hx'' => ?_⟩
                · have hlength := congrArg (·.places.length) (e.symm.trans hchild)
                  simp at hlength
                · obtain rfl : x' = x'' := Option.some.inj (hx.symm.trans hx'')
                  have hbefore := (hat before).trans hx
                  exact ⟨y', hy, .above hchild hbelow hbefore ((hat after).trans hy)⟩
          · have hne : ¬ (q.child place).Encloses p := by
              rintro ⟨_, hprefix⟩
              rw [hplace, Position.child, List.prefix_append_right_inj, List.cons_prefix_cons]
                at hprefix
              exact hf hprefix.1
            refine ⟨fun e => absurd (e ▸ .refl p) hne, fun hout x' hx => ?_⟩
            exact ⟨x', (hput.child?_of_ne hf).trans hx, .beside hout hne⟩

/-- The next segment applies to what stands at one position before and after. What the write changes
in place is a reference neither before nor after, so the segment goes through one on both sides or
on none. -/
theorem Tracks.enter (h : s.Puts p value t) (hs : ¬ s.InReference p) (ht : ¬ t.InReference p)
    {slot slot' : Slot} {q : Position} {x y u : Json} (hq : s.positionOf? slot = some q)
    (hx : s.slotValue? slot = some x) (hobject : ¬ q.IsObject) (track : Tracks s t p value q x y)
    (he : enter? s.objects x slot = some (u, slot')) :
    ∃ q' w, s.positionOf? slot' = some q' ∧ s.slotValue? slot' = some u ∧
      y.resolve? t.objects = some w ∧ Tracks s t p value q' u w := by
  have hdirect : (x.referenceId? = none ∧ y.referenceId? = none) ∨ x = y := by
    cases track with
    | beside outside apart => exact .inr rfl
    | above place put before after =>
        rename_i rest
        cases rest with
        | nil => exact absurd rfl put.ne_nil
        | cons first rest =>
            cases rest with
            | cons next rest => exact .inl put.referenceId?_eq_none
            | nil =>
                have hparent : p.parent = q := by
                  rw [place, Position.parent, List.dropLast_concat]
                have hnone : ∀ {r : Store} {z : Json}, ¬ r.InReference p → r.at? q = some z →
                    z.referenceId? = none := by
                  intro r z hr hz
                  refine Decidable.byContradiction fun hn => hr ⟨?_, z, ?_, hn⟩
                  · rw [hparent]
                    exact hobject
                  · rw [hparent]
                    exact hz
                exact .inl ⟨hnone hs before, hnone ht after⟩
  cases hr : x.referenceId? with
  | none =>
      simp only [enter?, hr] at he
      cases he
      refine ⟨q, y, hq, hx, ?_, track⟩
      rw [Json.resolve?]
      rcases hdirect with ⟨_, hy⟩ | rfl
      · rw [hy]
      · rw [hr]
  | some id =>
      simp only [enter?, hr] at he
      obtain ⟨v, hid, he⟩ := Option.map_eq_some_iff.mp he
      cases he
      obtain rfl : x = y := hdirect.resolve_left fun hd =>
        Option.some_ne_none id (hr.symm.trans hd.1)
      have howner : s.ownerValue? (.object id) = some u := hid
      obtain ⟨w, hw, hroot⟩ := h.tracks_root howner
      refine ⟨_, w, positionOf?_root hid, ?_, ?_, hroot⟩
      · rw [slotValue?, ownerValue?, hid]
        rfl
      · rw [Json.resolve?, hr]
        exact hw

/-- A way down to `p` that does not go through it ends on the value that was put there. -/
theorem Puts.descend? (h : s.Puts p value t) (hs : ¬ s.InReference p) (ht : ¬ t.InReference p)
    {slot last : Slot} {q : Position} {x y : Json} {rest : List String} (hn : rest ≠ [])
    (hq : s.positionOf? slot = some q) (hx : s.slotValue? slot = some x) (hobject : ¬ q.IsObject)
    (track : Tracks s t p value q x y) (hlast : slotFrom? s.objects x slot rest = some last)
    (hp : s.positionOf? last = some p)
    (clear : ∀ before, before <+: rest → before ≠ [] → before ≠ rest → ∀ mid m,
      slotFrom? s.objects x slot before = some mid → s.positionOf? mid = some m → ¬ p.Encloses m) :
    Json.descend? t.objects y rest = some value := by
  induction rest generalizing slot q x y with
  | nil => exact absurd rfl hn
  | cons segment rest ih =>
      cases rest with
      | nil =>
          rw [slotFrom?_singleton] at hlast
          obtain ⟨⟨u, slot'⟩, he, rfl⟩ := Option.map_eq_some_iff.mp hlast
          obtain ⟨q', w, hq', hu, hw, track'⟩ := track.enter h hs ht hq hx hobject he
          rw [positionOf?_child hq' hu] at hp
          obtain ⟨place, hplace, rfl⟩ := Option.map_eq_some_iff.mp hp
          obtain ⟨hy, hput, _⟩ := track'.child hplace
          rw [Json.descend?, hw, Option.bind_some, Json.step?_of_place? hy, hput rfl]
          rfl
      | cons next rest =>
          have hprefix : [segment] <+: segment :: next :: rest := ⟨next :: rest, rfl⟩
          have hfirst := clear [segment] hprefix (List.cons_ne_nil _ _) fun e =>
            List.cons_ne_nil next rest (List.cons.inj e).2.symm
          rw [slotFrom?_singleton] at hfirst
          rw [slotFrom?_cons] at hlast
          obtain ⟨⟨u, slot'⟩, he, hlast⟩ := Option.bind_eq_some_iff.mp hlast
          obtain ⟨x', hstep, hlast⟩ := Option.bind_eq_some_iff.mp hlast
          obtain ⟨q', w, hq', hu, hw, track'⟩ := track.enter h hs ht hq hx hobject he
          have hchild := positionOf?_child hq' hu segment
          rw [Json.step?_eq_child?] at hstep
          obtain ⟨place, hplace, hx'⟩ := Option.bind_eq_some_iff.mp hstep
          rw [hplace, Option.map_some] at hchild
          rw [he, Option.map_some] at hfirst
          obtain ⟨hy, _, hbelow⟩ := track'.child hplace
          obtain ⟨y', hy', track''⟩ := hbelow (hfirst _ _ rfl hchild) x' hx'
          rw [Json.descend?, hw, Option.bind_some, Json.step?_of_place? hy, hy', Option.bind_some]
          refine ih (List.cons_ne_nil next rest) hchild ?_ (q'.child_not_isObject place) track''
            hlast fun before hb hne hother mid m hmid hm => ?_
          · rw [slotValue?_child, hu, Option.bind_some, Json.step?_of_place? hplace]
            exact hx'
          · obtain ⟨first, tail, rfl⟩ := List.exists_cons_of_ne_nil hne
            refine clear (segment :: first :: tail) (List.cons_prefix_cons.mpr ⟨rfl, hb⟩)
              (List.cons_ne_nil _ _) (fun e => hother (List.cons.inj e).2) mid m ?_ hm
            rw [slotFrom?_cons, he, Option.bind_some, Json.step?_of_place? hplace, hx',
              Option.bind_some]
            exact hmid

/-- Every path that resolved to `p` and does not go through it has the value there. -/
theorem Puts.valueAt? (h : s.Puts p value t) (hs : ¬ s.InReference p) (ht : ¬ t.InReference p)
    {path : CachePath} (resolved : s.position? path = some p)
    (clear : ∀ before, before <+: path.rest → before ≠ path.rest → ∀ m,
      s.position? { path with rest := before } = some m → ¬ p.Encloses m) :
    t.valueAt? path = some value := by
  obtain ⟨last, hslot, hp⟩ := Option.bind_eq_some_iff.mp resolved
  obtain ⟨c, hc, hlast⟩ := Option.bind_eq_some_iff.mp hslot
  have howner : s.ownerValue? (.container (keyOf path)) = some c.data := by
    rw [ownerValue?, hc]
    rfl
  have hroot := positionOf?_root howner
  have hvalue : s.slotValue? { owner := .container (keyOf path), path := [] } = some c.data := by
    rw [slotValue?, howner]
    rfl
  have hn : path.rest ≠ [] := by
    intro hempty
    obtain ⟨_, _, _, _, hput⟩ := h.put
    rw [hempty] at hlast
    cases hlast
    rw [hroot] at hp
    cases hp
    exact hput.ne_nil rfl
  obtain ⟨w, hw, track⟩ := h.tracks_root howner
  obtain ⟨c', hc', rfl⟩ := Option.map_eq_some_iff.mp hw
  rw [valueAt?_eq_descend?, hc', Option.bind_some]
  refine h.descend? hs ht hn hroot hvalue ?_ track hlast hp ?_
  · rintro ⟨_, id, ho⟩
    cases ho
  intro before hb _ hne mid m hmid hm
  refine clear before hb hne m ?_
  rw [position?, slot?]
  have hkey : keyOf { path with rest := before } = keyOf path := rfl
  rw [hkey, hc]
  exact Option.bind_eq_some_iff.mpr ⟨mid, hmid, hm⟩

end Store

/-- A write of a value without identified objects below a root field puts the value at the position
of its path, and nothing else changes: not the lifetimes, nor what any other position holds. Unless
the write has made a reference of what the position lies in, every path that resolved to the
position, and did not go through it, then reads the value. -/
theorem write_reads_back {c d : Cache} {now : Nat} {path : CachePath} {value : Json}
    {notice : Notice} (below : path.rest ≠ []) (plain : c.options.Unidentified value)
    (written : c.write now path value = (d, some notice)) :
    ∃ p, c.store.position? path = some p ∧ c.store.Puts p value d.store ∧
      (∀ q : Position, ¬ q.Encloses p → ¬ p.Encloses q → d.store.at? q = c.store.at? q) ∧
      (¬ d.store.InReference p → ∀ (q : CachePath) (time : Nat), c.store.position? q = some p →
        (∀ before, before <+: q.rest → before ≠ q.rest → ∀ m,
          c.store.position? { q with rest := before } = some m → ¬ p.Encloses m) →
        (d.get time q true).1.data = some value) := by
  obtain ⟨slot, t, touched, hslot, ht, hd⟩ := write_done below written
  have hmerged : mergedStore c.options c.store value = c.store := by
    rw [mergedStore, plain.normalized]
  rw [hmerged, plain.normalized] at ht
  obtain ⟨p, hp, hput⟩ := Store.puts_of_writeSlot? (Store.slot?_path below hslot).1 ht
  have hputs : c.store.Puts p value d.store := by
    rw [hd]
    exact ⟨hput.put, hput.elsewhere, hput.lifetimes⟩
  refine ⟨p, ?_, hputs, fun q => hputs.at?_apart, fun hreference q time resolved clear => ?_⟩
  · rw [Store.position?, hslot]
    exact hp
  · have hvalue := hputs.valueAt? (Store.not_inReference_of_slot? below hslot hp) hreference
      resolved clear
    obtain ⟨k, hk, _⟩ := Option.bind_eq_some_iff.mp (d.store.valueAt?_eq_descend? q ▸ hvalue)
    rw [get_data hk, hvalue, Option.map_some, plain.plain.expand]

/-- One user under two root fields. -/
def sharedUser : Cache :=
  let user : Json := .object [("__typename", .string "U"), ("id", .int 1), ("name", .string "x")]
  ((new {}).act 0 (.set (.object [("query", .object [("me", user), ("user", user)])]) false)).cache

theorem eq_nil_of_prefix_singleton {segment : String} {before : List String}
    (h : before <+: [segment]) (hne : before ≠ [segment]) : before = [] := by
  rcases List.prefix_cons_iff.mp h with rfl | ⟨rest, rfl, hr⟩
  · rfl
  · exact absurd (congrArg _ (List.prefix_nil.mp hr)) hne

/-- A name written through the one root field is read through the other. -/
theorem write_reads_back_shared :
    (sharedUser.write 0 { root := .query, field := "user", rest := ["name"] }
      (.string "y")).2.isSome = true ∧
    ((sharedUser.write 0 { root := .query, field := "user", rest := ["name"] }
      (.string "y")).1.get 5 { root := .query, field := "me", rest := ["name"] } true).1.data =
      some (.string "y") := by
  have done : (sharedUser.write 0 { root := .query, field := "user", rest := ["name"] }
      (.string "y")).2.isSome = true := by cbv
  obtain ⟨notice, hnotice⟩ := Option.isSome_iff_exists.mp done
  have plain : sharedUser.options.Unidentified (.string "y") := trivial
  obtain ⟨p, hp, _, _, reads⟩ := write_reads_back (List.cons_ne_nil "name" []) plain
    (Prod.ext rfl hnotice : sharedUser.write 0 _ (.string "y") = (_, some notice))
  have at_name : sharedUser.store.position? { root := .query, field := "user", rest := ["name"] } =
      some { owner := .object "U:1", places := [.key "name"] } := by cbv
  obtain rfl := Option.some.inj (at_name.symm.trans hp)
  refine ⟨done, reads (fun h => h.1 ⟨rfl, "U:1", rfl⟩) _ 5 (by cbv) fun before hb hne m hm => ?_⟩
  obtain rfl := eq_nil_of_prefix_singleton hb hne
  have at_root : sharedUser.store.position? { root := .query, field := "me" } =
      some { owner := .container { root := .query, field := "me" }, places := [] } := by cbv
  obtain rfl := Option.some.inj (at_root.symm.trans hm)
  rintro ⟨ho, _⟩
  cases ho

/-- A root field that holds an empty object. -/
def emptyField : Cache :=
  ((new {}).act 0 (.set (.object [("query", .object [("a", .object [])])]) false)).cache

/-- The path of the key of references in that object. -/
def referenceMember : CachePath := { root := .query, field := "a", rest := [referenceKey] }

/-- A text written under the key of references makes a reference of an empty object, and is not
read back, though no other path is in play. -/
theorem reference_member_not_read :
    Reachable {} 0 emptyField ∧ emptyField.options.Unidentified (.string "U:1") ∧
    (emptyField.write 0 referenceMember (.string "U:1")).2.isSome = true ∧
    (∃ p, emptyField.store.position? referenceMember = some p ∧
      ∀ before, before <+: referenceMember.rest → before ≠ referenceMember.rest → ∀ m,
        emptyField.store.position? { referenceMember with rest := before } = some m →
        ¬ p.Encloses m) ∧
    ((emptyField.write 0 referenceMember (.string "U:1")).1.get 0 referenceMember true).1.data =
      none := by
  refine ⟨.act (.new 0) (Nat.le_refl 0) _, trivial, by cbv, ?_, by cbv⟩
  refine ⟨{ owner := .container (keyOf referenceMember), places := [.key referenceKey] }, by cbv,
    fun before hb hne m hm => ?_⟩
  obtain rfl := eq_nil_of_prefix_singleton hb hne
  have at_root : emptyField.store.position? { referenceMember with rest := [] } =
      some { owner := .container { root := .query, field := "a" }, places := [] } := by cbv
  obtain rfl := Option.some.inj (at_root.symm.trans hm)
  exact fun h => absurd h.2 (by decide)

end Cache
end LazyGraph
