import LazyGraph.Cache.Normalizer
import LazyGraph.Document
import LazyGraph.Proofs.Json.Position
import LazyGraph.Proofs.Fields

/-!
A server with one fixed tree of data: what it replies to a document, and which stored values tell
what it holds.

A position is the text of an operation with the response keys below it.
-/
namespace LazyGraph

inductive Leaf
  | bool (value : Bool)
  | number (value : Number)
  | string (value : String)

def Leaf.json : Leaf → Json
  | .bool b => .bool b
  | .number n => .number n
  | .string s => .string s

theorem Leaf.not_object (v : Leaf) (fs : Fields Json) : v.json ≠ .object fs := by
  cases v <;> exact fun h => Json.noConfusion h

inductive Holding
  | absent
  | object
  | leaf (value : Leaf)

/-- The tree of a server. The key of references is no field of it. -/
structure Server where
  holding : List String → Holding
  reserved : ∀ p, holding (p ++ [referenceKey]) = .absent

namespace Server

open Document (Head FieldTree)

variable (server : Server)

mutual
/-- The members of the object at a position that a tree of fields asks for. -/
def members (p : List String) : FieldTree → Fields Json
  | .node children => membersOf p children

def membersOf (p : List String) : List (Head × FieldTree) → Fields Json
  | [] => []
  | (.field aliasName name _, t) :: rest =>
    Fields.insert (membersOf p rest) (aliasName.getD name)
      (match server.holding (p ++ [aliasName.getD name]) with
      | .absent => .null
      | .object => .object (members (p ++ [aliasName.getD name]) t)
      | .leaf v => v.json)
  | (.branch _, t) :: rest => Fields.overlay (membersOf p rest) (members p t)
end

/-- The data for a document: the part of the tree that it asks for. -/
def data (d : Document) : Fields Json := server.members [d.operation.text] d.fields

def reply (d : Document) : ExecutionResult := { data := some (.object (server.data d)) }

/-- The value tells what the server holds at a position, as far as it goes. A reference stands for
the object at the position that its identity belongs to. -/
inductive Holds (owns : String → List String → Prop) : List String → Json → Prop
  | absent {p : List String} (h : server.holding p = .absent) : Holds owns p .null
  | leaf {p : List String} {v : Leaf} (h : server.holding p = .leaf v) : Holds owns p v.json
  | reference {p : List String} {id : String} (h : server.holding p = .object) (ho : owns id p) :
    Holds owns p (.reference id)
  | object {p : List String} {fs : Fields Json} (h : server.holding p = .object)
    (ascending : Fields.Ascending fs) (parts : ∀ q ∈ fs, Holds owns (p ++ [q.1]) q.2) :
    Holds owns p (.object fs)

/-- The members tell what the server holds below a position. -/
structure Members (owns : String → List String → Prop) (p : List String) (fs : Fields Json) :
    Prop where
  ascending : Fields.Ascending fs
  parts : ∀ q ∈ fs, server.Holds owns (p ++ [q.1]) q.2

/-- A value without references tells what the server holds. -/
def Tells : List String → Json → Prop := server.Holds fun _ _ => False

variable {server} {owns other : String → List String → Prop} {p : List String}

/-! ### Values and the positions that they stand at -/

theorem Holds.object_cases {fs : Fields Json} (h : server.Holds owns p (.object fs)) :
    server.holding p = .object ∧
      ((∃ id, fs = [(referenceKey, .string id)] ∧ owns id p) ∨ server.Members owns p fs) := by
  generalize hv : Json.object fs = v at h
  cases h with
  | absent => cases hv
  | leaf => exact absurd hv.symm (Leaf.not_object _ fs)
  | reference h ho =>
      cases hv
      exact ⟨h, .inl ⟨_, rfl, ho⟩⟩
  | object h ascending parts =>
      cases hv
      exact ⟨h, .inr ⟨ascending, parts⟩⟩

theorem Members.nil : server.Members owns p [] := ⟨.nil, fun _ h => absurd h List.not_mem_nil⟩

theorem Members.insert {fs : Fields Json} {key : String} {v : Json} (h : server.Members owns p fs)
    (hv : server.Holds owns (p ++ [key]) v) : server.Members owns p (Fields.insert fs key v) := by
  refine ⟨h.ascending.insert key v, fun q hq => ?_⟩
  rcases Fields.mem_of_mem_insert hq with rfl | hq
  · exact hv
  · exact h.parts q hq

theorem Members.overlay {fs gs : Fields Json} (h : server.Members owns p fs)
    (hg : server.Members owns p gs) : server.Members owns p (Fields.overlay fs gs) := by
  refine ⟨Fields.foldl_insert_ascending gs h.ascending, fun q hq => ?_⟩
  exact (Fields.mem_of_mem_foldl_insert hq).elim (hg.parts q) (h.parts q)

/-- The server has no field that could make an object look like a reference. -/
theorem Members.referenceIn? {fs : Fields Json} (h : server.Members owns p fs) :
    Json.referenceIn? fs = none := by
  cases hr : Json.referenceIn? fs with
  | none => rfl
  | some id =>
      rw [Json.referenceIn?_eq_some_iff.mp hr] at h
      have hid := h.parts _ List.mem_cons_self
      generalize hv : Json.string id = v at hid
      cases hid with
      | absent => cases hv
      | leaf hl => cases (server.reserved p).symm.trans hl
      | reference hl => cases (server.reserved p).symm.trans hl
      | object hl => cases (server.reserved p).symm.trans hl

theorem Members.holds {fs : Fields Json} (h : server.Members owns p fs)
    (hp : server.holding p = .object) : server.Holds owns p (.object fs) :=
  .object hp h.ascending h.parts

theorem Holds.mono {v : Json} (h : server.Holds owns p v)
    (hi : ∀ id q, owns id q → other id q) : server.Holds other p v := by
  induction h with
  | absent h => exact .absent h
  | leaf h => exact .leaf h
  | reference h ho => exact .reference h (hi _ _ ho)
  | object h ascending _ ih => exact .object h ascending ih

theorem Tells.holds {v : Json} (h : server.Tells p v) : server.Holds owns p v :=
  Holds.mono h fun _ _ => False.elim

theorem Tells.members {fs : Fields Json} (h : server.Tells p (.object fs)) :
    server.holding p = .object ∧ server.Members (fun _ _ => False) p fs := by
  obtain ⟨hp, ⟨_, _, hf⟩ | hm⟩ := Holds.object_cases h
  · exact hf.elim
  · exact ⟨hp, hm⟩

theorem Holds.not_array {items : List Json} (h : server.Holds owns p (.array items)) : False := by
  generalize hv : Json.array items = v at h
  cases h with
  | leaf =>
      rename_i l _
      cases l <;> cases hv
  | absent => cases hv
  | reference => cases hv
  | object => cases hv

/-- A value where the server holds a leaf is that leaf. -/
theorem Holds.eq_leaf {v : Json} {l : Leaf} (h : server.Holds owns p v)
    (hp : server.holding p = .leaf l) : v = l.json := by
  cases h with
  | absent h => cases hp.symm.trans h
  | leaf h =>
      cases hp.symm.trans h
      rfl
  | reference h => cases hp.symm.trans h
  | object h => cases hp.symm.trans h

theorem Holds.exists_object {v : Json} (h : server.Holds owns p v)
    (hp : server.holding p = .object) : ∃ fs, v = .object fs := by
  cases h with
  | absent h => cases hp.symm.trans h
  | leaf h => cases hp.symm.trans h
  | reference h => exact ⟨_, rfl⟩
  | object h => exact ⟨_, rfl⟩

/-! ### The way down -/

theorem Holds.step? {v u : Json} {key : String} (h : server.Holds owns p v)
    (hr : v.referenceId? = none) (hs : v.step? key = some u) :
    server.Holds owns (p ++ [key]) u := by
  cases v with
  | object fs =>
      obtain ⟨_, ⟨id, rfl, _⟩ | hm⟩ := h.object_cases
      · cases hr
      · exact hm.parts (key, u) (Fields.mem_of_get? hs)
  | array items => exact h.not_array.elim
  | null => cases hs
  | bool b => cases hs
  | number n => cases hs
  | string s => cases hs

theorem Holds.owned {id : String} (h : server.Holds owns p (.reference id)) : owns id p := by
  obtain ⟨_, ⟨other, he, ho⟩ | hm⟩ := h.object_cases
  · cases he
    exact ho
  · cases hm.referenceIn?

/-- Where a way down ends at a reference, it crosses none. -/
theorem Holds.walk?_reference {v : Json} {path : List String} {id : String}
    (h : server.Holds owns p v) (hw : v.walk? path = some (.reference id)) :
    owns id (p ++ path) := by
  induction path generalizing v p with
  | nil =>
      cases hw
      rw [List.append_nil]
      exact h.owned
  | cons key path ih =>
      obtain ⟨u, hs, hw⟩ := Option.bind_eq_some_iff.mp hw
      cases hr : v.referenceId? with
      | none =>
          have hu := ih (h.step? hr hs) hw
          rwa [List.append_assoc, List.singleton_append] at hu
      | some other =>
          rw [Json.referenceId?_eq_some_iff.mp hr, Json.reference, Json.step?, Fields.get?_cons] at hs
          split at hs
          · cases hs
            cases path with
            | nil => cases hw
            | cons next path => cases hw
          · cases hs

/-! ### Replies -/

mutual
theorem members_tells (p : List String) (t : FieldTree) :
    server.Members (fun _ _ => False) p (server.members p t) := by
  cases t with
  | node children => exact membersOf_tells p children

theorem membersOf_tells (p : List String) (children : List (Head × FieldTree)) :
    server.Members (fun _ _ => False) p (server.membersOf p children) := by
  cases children with
  | nil => exact .nil
  | cons child rest =>
      obtain ⟨head, t⟩ := child
      have hrest := membersOf_tells p rest
      cases head with
      | field aliasName name arguments =>
          rw [membersOf]
          refine hrest.insert ?_
          split
          · exact .absent ‹_›
          · exact (members_tells (p ++ [aliasName.getD name]) t).holds ‹_›
          · exact .leaf ‹_›
      | branch type =>
          rw [membersOf]
          exact hrest.overlay (members_tells p t)
end

theorem data_tells (server : Server) (d : Document) :
    server.Members (fun _ _ => False) [d.operation.text] (server.data d) :=
  members_tells [d.operation.text] d.fields

/-! ### Identities -/

/-- What stands for the part of the server at a position, from the outside. -/
def Shows (server : Server) (p : List String) (v : Json) : Prop :=
  match server.holding p with
  | .absent => v = .null
  | .object => ∃ fs, v = .object fs
  | .leaf l => v = l.json

theorem Holds.shows {v : Json} (h : server.Holds owns p v) : server.Shows p v := by
  rw [Shows]
  cases h with
  | absent h => rw [h]
  | leaf h => rw [h]
  | reference h =>
      rw [h]
      exact ⟨_, rfl⟩
  | object h =>
      rw [h]
      exact ⟨_, rfl⟩

/-- Some of the members of the object at a position give it an identity. -/
def Carries (server : Server) (identity : Fields Json → Option String) (id : String)
    (p : List String) : Prop :=
  server.holding p = .object ∧ ∃ fs : Fields Json, Fields.Ascending fs ∧
    (∀ q ∈ fs, server.Shows (p ++ [q.1]) q.2) ∧ identity fs = some id

/-- No two positions carry the same identity. -/
def Distinct (server : Server) (identity : Fields Json → Option String) : Prop :=
  ∀ id p q, server.Carries identity id p → server.Carries identity id q → p = q

theorem Members.carries {fs : Fields Json} {identity : Fields Json → Option String} {id : String}
    (h : server.Members owns p fs) (hp : server.holding p = .object)
    (hid : identity fs = some id) : server.Carries identity id p :=
  ⟨hp, fs, h.ascending, fun q hq => (h.parts q hq).shows, hid⟩

/-- One of the fields that identify objects tells where an identity belongs. -/
theorem Carries.leaf {fields : List String} {id : String}
    (h : server.Carries (Normalizer.identityByFields fields) id p) :
    ∃ f ∈ fields, ∃ l, server.holding (p ++ [f]) = .leaf l := by
  obtain ⟨_, fs, _, hshows, hid⟩ := h
  obtain ⟨_, _, hid⟩ := Option.bind_eq_some_iff.mp hid
  obtain ⟨text, hfound, _⟩ := Option.bind_eq_some_iff.mp hid
  obtain ⟨f, hf, hv⟩ := List.exists_of_findSome?_eq_some hfound
  obtain ⟨v, hget, htext⟩ := Option.bind_eq_some_iff.mp hv
  have hv := hshows _ (Fields.mem_of_get? hget)
  refine ⟨f, hf, ?_⟩
  rw [Shows] at hv
  split at hv
  · obtain rfl : v = .null := hv
    cases htext
  · obtain ⟨gs, rfl⟩ := hv
    cases htext
  · exact ⟨_, ‹_›⟩

end Server
end LazyGraph
