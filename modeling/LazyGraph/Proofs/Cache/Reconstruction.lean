import LazyGraph.Proofs.Cache.Normalization
import LazyGraph.Proofs.Json.Mirror

/-!
Normalization loses nothing. What it leaves of a value mirrors the value, and every object of its
table mirrors the original of its identity, however often and from whatever depth it was stored. So
expansion through the table gives the value back, provided that objects with one identity are equal.
-/
namespace LazyGraph

open Json (Mirrors MirrorsMembers TableMirrors Partwise)

namespace Normalizer

/-! ### Identities -/

/-- What normalization does not change about values, it does not change about members. -/
theorem bind_get?_normalizeFields {α : Type} {n : Normalizer} {levels : Nat} {f : Json → Option α}
    (hf : ∀ p v, f (n.normalizeWithin levels p v).1 = f v) (p : Progress) (fs : Fields Json)
    (key : String) :
    (Fields.get? (n.normalizeFields levels p fs).1 key).bind f = (Fields.get? fs key).bind f := by
  induction fs generalizing p with
  | nil => rw [normalizeFields]
  | cons q fs ih =>
      rw [normalizeFields, Fields.get?_cons, Fields.get?_cons]
      split
      · exact hf p q.2
      · exact ih _

/-- Normalization leaves scalars, and puts none in the place of a list or an object. -/
theorem normalizeWithin_scalars (n : Normalizer) (levels : Nat) (p : Progress) (v : Json) :
    identityText? (n.normalizeWithin levels p v).1 = identityText? v ∧
      (n.normalizeWithin levels p v).1.asString? = v.asString? := by
  cases v with
  | array items =>
      cases levels with
      | zero => exact ⟨rfl, rfl⟩
      | succ levels =>
          rw [normalizeWithin]
          exact ⟨rfl, rfl⟩
  | object fs =>
      cases levels with
      | zero => exact ⟨rfl, rfl⟩
      | succ levels =>
          rw [normalizeWithin]
          split
          · exact ⟨rfl, rfl⟩
          · simp only [settle]
            split <;> exact ⟨rfl, rfl⟩
  | _ => exact ⟨rfl, rfl⟩

/-- An identity by fields is found in the same way before and after the parts are normalized. -/
theorem identityByFields_normalizeFields (fields : List String) (n : Normalizer) (levels : Nat)
    (p : Progress) (fs : Fields Json) :
    identityByFields fields (n.normalizeFields levels p fs).1 = identityByFields fields fs := by
  have htext := bind_get?_normalizeFields (fun p v => (n.normalizeWithin_scalars levels p v).1) p fs
  have hname := bind_get?_normalizeFields (fun p v => (n.normalizeWithin_scalars levels p v).2) p fs
  simp only [identityByFields, htext, hname]

/-! ### What is stored -/

section Stored

variable {n : Normalizer} {view : Json → Json} {origin : String → Json → Prop} {levels : Nat}

theorem mirrors_normalizeItems {items : List Json}
    (hparts : ∀ v ∈ items, ∀ p : Progress, TableMirrors view origin p.table →
      Mirrors view origin (n.normalizeWithin levels p v).1 (view v) ∧
        TableMirrors view origin (n.normalizeWithin levels p v).2.table)
    {p : Progress} (hp : TableMirrors view origin p.table) :
    List.Forall₂ (fun w v => Mirrors view origin w (view v)) (n.normalizeItems levels p items).1
        items ∧
      TableMirrors view origin (n.normalizeItems levels p items).2.table := by
  induction items generalizing p with
  | nil =>
      rw [normalizeItems]
      exact ⟨.nil, hp⟩
  | cons v items ih =>
      obtain ⟨hv, hrest⟩ := List.forall_mem_cons.mp hparts
      obtain ⟨hfirst, htable⟩ := hv p hp
      obtain ⟨hitems, hlast⟩ := ih hrest htable
      rw [normalizeItems]
      exact ⟨.cons hfirst hitems, hlast⟩

theorem mirrors_normalizeFields {fs : List (String × Json)}
    (hparts : ∀ q ∈ fs, ∀ p : Progress, TableMirrors view origin p.table →
      Mirrors view origin (n.normalizeWithin levels p q.2).1 (view q.2) ∧
        TableMirrors view origin (n.normalizeWithin levels p q.2).2.table)
    {p : Progress} (hp : TableMirrors view origin p.table) :
    List.Forall₂ (fun r q : String × Json => r.1 = q.1 ∧ Mirrors view origin r.2 (view q.2))
        (n.normalizeFields levels p fs).1 fs ∧
      TableMirrors view origin (n.normalizeFields levels p fs).2.table := by
  induction fs generalizing p with
  | nil =>
      rw [normalizeFields]
      exact ⟨.nil, hp⟩
  | cons q fs ih =>
      obtain ⟨hq, hrest⟩ := List.forall_mem_cons.mp hparts
      obtain ⟨hfirst, htable⟩ := hq p hp
      obtain ⟨hfields, hlast⟩ := ih hrest htable
      rw [normalizeFields]
      exact ⟨.cons ⟨rfl, hfirst⟩ hfields, hlast⟩

/-- A merge of members under keys that are there already adds no key. -/
theorem keys_mergeMembers {stored arriving : Fields Json} (ascending : Fields.Ascending stored)
    (hsub : Fields.keys arriving ⊆ Fields.keys stored) :
    Fields.keys (n.mergeMembers stored arriving) = Fields.keys stored := by
  rw [mergeMembers]
  induction arriving generalizing stored with
  | nil => rfl
  | cons q arriving ih =>
      rw [Fields.keys, List.map_cons, List.cons_subset] at hsub
      rw [List.foldl_cons]
      split
      · exact ih ascending hsub.2
      · have hsame := ascending.keys_insert_of_mem hsub.1 q.2
        rw [ih (ascending.insert q.1 q.2) (hsame ▸ hsub.2), hsame]

/-- Members of two stored objects of one original are merged to members of it. -/
theorem mirrorsMembers_mergeMembers {stored arriving xs : Fields Json}
    (hs : MirrorsMembers view origin stored xs) (ha : MirrorsMembers view origin arriving xs) :
    MirrorsMembers view origin (n.mergeMembers stored arriving) xs := by
  have hstored := hs.ascending_stored
  have harriving := ha.ascending_stored
  have hkeys : Fields.keys (n.mergeMembers stored arriving) = Fields.keys stored :=
    keys_mergeMembers hstored (by simp [ha.keys, hs.keys])
  refine ⟨hs.plain, hs.ascending, hkeys.trans hs.keys, fun key w x hw hx => ?_⟩
  rcases mem_of_mem_mergeMembers (Fields.mem_of_get? hw) with hm | hm
  · exact hs.parts key w x (hstored.get?_of_mem hm) hx
  · exact ha.parts key w x (harriving.get?_of_mem hm) hx

/-- An object that is stored for its original keeps the table a mirror. -/
theorem tableMirrors_store (hr : n.resolver = none)
    (unique : ∀ id x y, origin id x → origin id y → x = y) {id : String} {gs xs : Fields Json}
    {p : Progress} (hp : TableMirrors view origin p.table) (known : origin id (.object xs))
    (h : MirrorsMembers view origin gs xs) :
    TableMirrors view origin (n.store id gs p).table := by
  obtain ⟨merged, htable, hmerged⟩ : ∃ merged,
      (n.store id gs p).table = Fields.insert p.table id (.object merged) ∧
        MirrorsMembers view origin merged xs := by
    rw [store]
    split
    · rename_i stored hstored
      obtain ⟨ss, ys, hobject, horigin, hs⟩ := hp id _ hstored
      obtain ⟨⟩ := hobject
      obtain ⟨⟩ := unique id _ _ known horigin
      refine ⟨_, rfl, ?_⟩
      rw [merge, hr]
      exact mirrorsMembers_mergeMembers hs h
    · exact ⟨gs, rfl, h⟩
  intro other u hu
  rw [htable, Fields.get?_insert] at hu
  split at hu
  · rename_i hsame
    obtain rfl := Option.some.inj hu
    exact ⟨merged, xs, rfl, hsame ▸ known, hmerged⟩
  · exact hp other u hu

/-- What a value is normalized to mirrors it, and so do the objects of the table their originals. -/
theorem mirrors_normalizeWithin (hr : n.resolver = none)
    (steady : ∀ levels p fs, n.identity (n.normalizeFields levels p fs).1 = n.identity fs)
    (partwise : Partwise view) (unique : ∀ id x y, origin id x → origin id y → x = y)
    (levels : Nat) (p : Progress) {v : Json} (plain : v.Plain) (ordered : v.InOrder)
    (known : ∀ fs ∈ v.objects, ∀ id, n.identity fs = some id → origin id (view (.object fs)))
    (hp : TableMirrors view origin p.table) :
    Mirrors view origin (n.normalizeWithin levels p v).1 (view v) ∧
      TableMirrors view origin (n.normalizeWithin levels p v).2.table := by
  induction v using Json.induction generalizing levels p with
  | array items ih =>
      cases levels with
      | zero => exact ⟨Json.mirrors_self partwise plain ordered, hp⟩
      | succ levels =>
          have hparts := fun v (hv : v ∈ items) (p : Progress) =>
            ih v hv levels p (Json.everywhere_array.mp plain v hv)
              (Json.inOrder_array.mp ordered v hv)
              fun fs hfs => known fs (Json.mem_objects_array.mpr ⟨v, hv, hfs⟩)
          obtain ⟨hitems, htable⟩ := mirrors_normalizeItems hparts hp
          rw [normalizeWithin]
          exact ⟨Json.mirrors_items partwise hitems, htable⟩
  | object fs ih =>
      cases levels with
      | zero => exact ⟨Json.mirrors_self partwise plain ordered, hp⟩
      | succ levels =>
          obtain ⟨hplain, hplains⟩ := Json.everywhere_object.mp plain
          obtain ⟨hascending, hordered⟩ := Json.inOrder_object.mp ordered
          have hparts := fun q (hq : q ∈ fs) (p : Progress) =>
            ih q hq levels p (hplains q hq) (hordered q hq)
              fun gs hgs => known gs (Json.mem_objects_object.mpr (.inr ⟨q, hq, hgs⟩))
          obtain ⟨hfields, htable⟩ := mirrors_normalizeFields hparts hp
          have hmembers := Json.mirrorsMembers_of_forall₂ hplain hascending hfields
          have hview := partwise.object fs
          have hknown := known fs (Json.mem_objects_object.mpr (.inl rfl))
          rw [← steady levels p fs] at hknown
          rw [normalizeWithin]
          simp only [Json.referenceIn?_eq_none hplain]
          rw [settle]
          rw [hview] at hknown ⊢
          split
          · exact ⟨hmembers.mirrors, htable⟩
          · rename_i id hid
            exact ⟨.reference (hknown id hid),
              tableMirrors_store hr unique htable (hknown id hid) hmembers⟩
  | _ => exact ⟨.scalar rfl rfl rfl, hp⟩

end Stored

/-! ### Back again -/

/-- A value that was normalized into an empty table, expanded through the table that this gives. -/
def reconstruct (n : Normalizer) (v : Json) : Json :=
  let r := n.normalize [] v
  r.1.expand r.2.table

/-- The view of a value is seen again after it was normalized into an empty table and expanded, if
the objects with one identity have one view. -/
theorem view_reconstruct {n : Normalizer} (hr : n.resolver = none)
    (steady : ∀ levels p fs, n.identity (n.normalizeFields levels p fs).1 = n.identity fs)
    {view : Json → Json} (partwise : Partwise view) {v : Json} (plain : v.Plain)
    (ordered : v.InOrder)
    (coherent : ∀ fs ∈ v.objects, ∀ gs ∈ v.objects, ∀ id, n.identity fs = some id →
      n.identity gs = some id → view (.object fs) = view (.object gs)) :
    view (n.reconstruct v) = view v := by
  let origin : String → Json → Prop := fun id x =>
    ∃ fs ∈ v.objects, n.identity fs = some id ∧ view (.object fs) = x
  have unique : ∀ id x y, origin id x → origin id y → x = y := by
    rintro id _ _ ⟨fs, hfs, hid, rfl⟩ ⟨gs, hgs, hid', rfl⟩
    exact coherent fs hfs gs hgs id hid hid'
  obtain ⟨hmirrors, htable⟩ := mirrors_normalizeWithin hr steady partwise unique (maxDepth + 1)
    { table := [] } plain ordered (fun fs hfs id hid => ⟨fs, hfs, hid, rfl⟩)
    (fun _ _ hu => nomatch hu)
  have hgrounded : Keeps (Fields.contains (n.normalize [] v).2.table · = true) { table := [] }
      (n.normalize [] v) := normalizeWithin_grounded hr (maxDepth + 1) { table := [] } plain
  obtain ⟨hvalue, hentries⟩ := hgrounded (fun id hid => Fields.contains_iff.mpr hid)
    (fun _ hp => nomatch hp)
  rw [reconstruct, Json.expand_eq_expandBelow]
  exact Json.view_expandBelow partwise unique htable (fun id u hu => (hentries.get? hu).2) hmirrors
    hvalue fun _ hid => absurd hid List.not_mem_nil

/-- Expansion undoes normalization into an empty table, at any depth, for objects that are
identified by fields and either way of merging lists: a value in which the objects with one
identity are the same comes back as it is, and one in which they are equal comes back equal. -/
theorem reconstruct_exact (fields : List String) (arrayMerge : ArrayMerge) (v : Json)
    (plain : v.Plain) (ordered : v.InOrder) :
    let n := withIdentityFields fields arrayMerge
    ((∀ fs ∈ v.objects, ∀ gs ∈ v.objects, ∀ id, n.identity fs = some id →
      n.identity gs = some id → fs = gs) → n.reconstruct v = v) ∧
    ((∀ fs ∈ v.objects, ∀ gs ∈ v.objects, ∀ id, n.identity fs = some id →
      n.identity gs = some id → (Json.object fs).equal (.object gs) = true) →
      (n.reconstruct v).equal v = true) := by
  intro n
  have steady : ∀ levels p fs, n.identity (n.normalizeFields levels p fs).1 = n.identity fs :=
    fun levels p fs => identityByFields_normalizeFields fields n levels p fs
  constructor
  · intro same
    exact view_reconstruct rfl steady Json.partwise_id plain ordered
      fun fs hfs gs hgs id hid hid' => congrArg Json.object (same fs hfs gs hgs id hid hid')
  · intro equal
    rw [Json.equal_iff_form]
    exact view_reconstruct rfl steady Json.partwise_form plain ordered
      fun fs hfs gs hgs id hid hid' => (Json.equal_iff_form _ _).mp (equal fs hfs gs hgs id hid hid')

/-- A value inside a number of lists. -/
def buried (v : Json) : Nat → Json
  | 0 => v
  | depth + 1 => .array [buried v depth]

def friendRecord : Fields Json := [("__typename", .string "F"), ("id", .int 2)]

def hostRecord : Fields Json :=
  [("__typename", .string "U"), ("friends", .array [.object friendRecord]), ("id", .int 1)]

/-- A host who stands in a list twice, in a member, and deeper than values are normalized. -/
def gathering : Fields Json :=
  [("all", .array [.object hostRecord, .object hostRecord]),
    ("deep", buried (.object hostRecord) 20), ("first", .object hostRecord)]

/-- A point, with one of the zeros. -/
def pointRecord (negative : Bool) : Fields Json :=
  [("__typename", .string "P"), ("id", .int 3), ("x", .number (.double (.zero negative)))]

/-- The gathering comes back as it is. Of two points with the one zero and the other, which are
equal, the later one comes back twice. -/
theorem reconstruct_exact_gathering :
    ((withIdentityFields ["id"]).normalize [] (.object gathering)).2.table.keys =
      ["F:2", "U:1"] ∧
    (withIdentityFields ["id"]).reconstruct (.object gathering) = .object gathering ∧
    (withIdentityFields ["id"] .replace).reconstruct
        (.array [.object (pointRecord true), .object (pointRecord false)]) =
      .array [.object (pointRecord false), .object (pointRecord false)] ∧
    ((withIdentityFields ["id"] .replace).reconstruct
        (.array [.object (pointRecord true), .object (pointRecord false)])).equal
      (.array [.object (pointRecord true), .object (pointRecord false)]) = true := by
  refine ⟨rfl, ?_, rfl, ?_⟩
  · apply (reconstruct_exact ["id"] .keepEqualLength (.object gathering) (by decide) (by decide)).1
    have holders : ∀ fs ∈ (Json.object gathering).objects,
        fs = gathering ∨ fs = hostRecord ∨ fs = friendRecord := by
      have hobjects : (Json.object gathering).objects = [gathering, hostRecord, friendRecord,
          hostRecord, friendRecord, hostRecord, friendRecord, hostRecord, friendRecord] := by rfl
      simp [hobjects]
    have nameless : (withIdentityFields ["id"]).identity gathering = none := by decide
    have host : (withIdentityFields ["id"]).identity hostRecord = some "U:1" := by decide
    have friend : (withIdentityFields ["id"]).identity friendRecord = some "F:2" := by decide
    have identified : ∀ fs ∈ (Json.object gathering).objects, ∀ id,
        (withIdentityFields ["id"]).identity fs = some id →
        fs = if id = "U:1" then hostRecord else friendRecord := by
      intro fs hfs id hid
      rcases holders fs hfs with rfl | rfl | rfl
      · rw [nameless] at hid
        cases hid
      · rw [host] at hid
        cases hid
        rfl
      · rw [friend] at hid
        cases hid
        rfl
    intro fs hfs gs hgs id hid hid'
    rw [identified fs hfs id hid, identified gs hgs id hid']
  · apply (reconstruct_exact ["id"] .replace _ (by decide) (by decide)).2
    have points : ∀ fs ∈ (Json.array [.object (pointRecord true),
        .object (pointRecord false)]).objects, ∀ gs ∈ (Json.array [.object (pointRecord true),
        .object (pointRecord false)]).objects, (Json.object fs).equal (.object gs) = true := by
      decide
    exact fun fs hfs gs hgs _ _ _ => points fs hfs gs hgs

end Normalizer
end LazyGraph
