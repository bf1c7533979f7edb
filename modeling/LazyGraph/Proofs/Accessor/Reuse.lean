import LazyGraph.Proofs.Accessor.Memory
import LazyGraph.Proofs.Accessor.Placeholder

/-!
Reads and the memory of accessors. A read that finds an object asks the memory for it once, with the
value that the cache holds then; so accessors are handed out again as long as the data stays.
-/
namespace LazyGraph

/-! ### What reads find -/

def Scene.memory (s : Scene) : Memory := s.context.memory

/-- The value at a path, with a reference at its end resolved once. -/
def Scene.shallow (s : Scene) (path : CachePath) : Option Json := (s.cache.read path).1.value

/-- An object over the cache, as it was found. -/
def FieldValue.finding? (data : Json) : FieldValue → Option Finding
  | .object (some a) =>
    match a.path with
    | some path => if a.isPlaceholder then none else some ⟨⟨a.selection.id, path⟩, data, a.id⟩
    | none => none
  | _ => none

/-- The name of an object. -/
def FieldValue.accessor? (v : FieldValue) : Option Nat := v.object?.map (·.id)

/-- The value that is seen at the path of an item. -/
def ListAccessor.data (l : ListAccessor) (position : Nat) (s : Scene) : Json :=
  ((l.cachedLength.run s).2.shallow (l.path.child (toString position))).getD (.object [])

/-- The value for which a read gives an object. Where a field is missing it is the placeholder that
is put there, and where the data of a branch is missing it is null. -/
def Look.data : Look → Scene → Json
  | .field a name arguments, s =>
    match (a.child name arguments).run s with
    | (.ok (_, _, path), t) => (t.shallow path).getD (.object [])
    | (.error _, _) => .null
  | .item l position, s => l.data position s
  | .byKey l key, s =>
    match Text.index? key with
    | some position => l.data position s
    | none => .null
  | .branch u _, s => ((u.typename.run s).2.shallow u.path).getD .null
  | _, _ => .null

/-- The object over the cache that a read finds. -/
def Look.finding? (look : Look) (s : Scene) : Option Finding :=
  ((Deed.read look).gives s).findSome? (·.finding? (look.data s))

namespace Deed

/-- The items of a list are read one after the other. -/
def IsSingle : Deed → Prop
  | .read (.items _) => False
  | _ => True

/-- The objects that are obtained. -/
def obtained (d : Deed) (s : Scene) : List Nat := (d.gives s).filterMap FieldValue.accessor?

/-- What is told of a deed: the object that a read found, or the spot of a field or an item that was
set. -/
def event? (d : Deed) (s : Scene) : Option Memory.Event :=
  match d with
  | .read look => (look.finding? s).map (.found · s.context.held)
  | .set a name arguments value =>
    match ((a.set name arguments value).run s).1, ((a.child name arguments).run s).1 with
    | .ok _, .ok (x, _, path) => some (.written ⟨x.id, path⟩)
    | _, _ => none
  | .setItem l position value =>
    match ((l.set position value).run s).1 with
    | .ok _ =>
      let item := ((Walk.child l.selection (.index position)).run s).1
      some (.written ⟨item.id, l.path.child (toString position)⟩)
    | .error _ => none

end Deed

namespace Scene

/-- The scene in which accessors are held. -/
def holding (s : Scene) (held : List Nat) : Scene := { s with context := { s.context with held } }

/-- The scene after a deed. Whatever was obtained is held. -/
def after (s : Scene) (d : Deed) : Scene :=
  (d.run.run s).2.holding (d.obtained s ++ s.context.held)

end Scene

/-- Reads and writes in a context, with what is told of them. Between them the cache changes in any
way, passes start, and accessors are let go. -/
inductive Course (start : Scene) : Scene → List Memory.Event → Prop
  | start : Course start start []
  | meanwhile {s : Scene} {log : List Memory.Event} (course : Course start s log) (cache : Cache)
    (now : Nat) : Course start { s with cache, now } log
  | reset {s : Scene} {log : List Memory.Event} (course : Course start s log) :
    Course start { s with context := s.context.reset } log
  | drop {s : Scene} {log : List Memory.Event} (course : Course start s log) {kept : List Nat}
    (sub : kept ⊆ s.context.held) : Course start (s.holding kept) log
  | deed {s : Scene} {log : List Memory.Event} (course : Course start s log) (d : Deed)
    (single : d.IsSingle) : Course start (s.after d) (log ++ (d.event? s).toList)

/-! ### Walks that leave the memory as it is -/

namespace Walk

theorem memory_select (x : Selection) (s : Scene) : ((select x).run s).2.memory = s.memory := by
  have hrun : ((select x).run s).2.memory = (s.context.select x).memory := rfl
  rw [hrun, Context.select]
  split <;> rfl

theorem memory_selectChild (x : Selection) (name : String) (s : Scene) :
    ((child x (.field name) >>= select).run s).2.memory = s.memory :=
  memory_select _ _

theorem memory_selectIdentity (x : Selection) (type : String) (s : Scene) :
    ((selectIdentity x type).run s).2.memory = s.memory :=
  selectIdentity_induction (motive := fun t => t.memory = s.memory) rfl fun name _ t _ ht =>
    (memory_selectChild x name t).trans ht

theorem memory_register (x : Selection) (type : TypeRef) (s : Scene) :
    ((register x type).run s).2.memory = s.memory :=
  register_induction (motive := fun t => t.memory = s.memory) (memory_select x s)
    fun name _ t _ ht => (memory_selectChild x name t).trans ht

theorem memory_touchItem (l : ListAccessor) (position : Nat) (s : Scene) :
    ((touchItem l position).run s).2.memory = s.memory := by
  rw [touchItem, run_bind]
  exact memory_register _ _ _

theorem memory_resolveList (x : Selection) (itemType : TypeRef) (path : CachePath)
    (operation : Operation) (isPlaceholder : Bool) (s : Scene) :
    ((resolveList x itemType path operation isPlaceholder).run s).2.memory = s.memory ∧
      ((resolveList x itemType path operation isPlaceholder).run s).1.object? = none := by
  rw [resolveList]
  split
  · exact ⟨memory_touchItem _ 0 _, rfl⟩
  · rw [run_bind]
    split
    · exact ⟨memory_touchItem _ 0 _, rfl⟩
    · exact ⟨rfl, rfl⟩
    · exact ⟨memory_touchItem _ 0 _, rfl⟩

theorem memory_resolveUnion (x : Selection) (type : String) (path : CachePath)
    (operation : Operation) (isPlaceholder : Bool) (s : Scene) :
    ((resolveUnion x type path operation isPlaceholder).run s).2.memory = s.memory ∧
      ((resolveUnion x type path operation isPlaceholder).run s).1.object? = none := by
  rw [resolveUnion]
  split
  · exact ⟨rfl, rfl⟩
  · rw [run_bind]
    split <;> exact ⟨rfl, rfl⟩

theorem memory_resolveScalar (path : CachePath) (operation : Operation) (isPlaceholder : Bool)
    (s : Scene) :
    ((resolveScalar path operation isPlaceholder).run s).2.memory = s.memory ∧
      ((resolveScalar path operation isPlaceholder).run s).1.object? = none := by
  rw [resolveScalar]
  split <;> exact ⟨rfl, rfl⟩

end Walk

theorem ListAccessor.memory_cachedLength (l : ListAccessor) (s : Scene) :
    (l.cachedLength.run s).2.memory = s.memory := by
  rw [cachedLength]
  split
  · rfl
  · rw [Walk.run_bind]
    split <;> rfl

theorem UnionAccessor.memory_typename (u : UnionAccessor) (s : Scene) :
    (u.typename.run s).2.memory = s.memory := by
  rw [typename]
  split
  · rfl
  · rw [Walk.run_bind]
    split <;> rfl

theorem UnionAccessor.memory_touch (u : UnionAccessor) (type : String) (s : Scene) :
    ((u.touch type).run s).2.memory = s.memory :=
  Walk.memory_selectIdentity _ type _

theorem Accessor.memory_child (a : Accessor) (name : String) (arguments : Fields Json)
    (s : Scene) : ((a.child name arguments).run s).2.memory = s.memory := by
  rcases a.child_cases name arguments s with ⟨_, hrun⟩ | ⟨_, _, _, _, hrun⟩ <;>
    exact congrArg (·.2.memory) hrun

/-! ### Reads ask the memory once -/

/-- What a read does to the memory, and gives: at most one object over the cache, for which the
memory was asked, and placeholders, which are new. -/
inductive Memory.Consults (m : Memory) (data : Json) : Memory → List FieldValue → Prop
  | idle {next : Nat} {vs : List FieldValue} (later : m.next ≤ next)
    (unfound : ∀ v ∈ vs, v.finding? data = none)
    (new : ∀ v ∈ vs, ∀ a, v.object? = some a → m.next ≤ a.id ∧ a.id < next) :
    Consults m data { m with next } vs
  | reuse {v : FieldValue} {f : Finding} (found : v.finding? data = some f)
    (reused : m.lookup? f.spot f.data = some f.accessor) : Consults m data m [v]
  | remember {v : FieldValue} {f : Finding} (found : v.finding? data = some f)
    (unknown : m.lookup? f.spot f.data = none) (fresh : f.accessor = m.next) :
    Consults m data (m.remember f) [v]

namespace Memory.Consults

variable {m m' : Memory} {data : Json} {vs : List FieldValue} {v : FieldValue}

theorem nothing (m : Memory) (data : Json) : m.Consults data m [] :=
  .idle (Nat.le_refl m.next) (List.forall_mem_nil _) (List.forall_mem_nil _)

theorem finding?_eq_none (h : v.object? = none) : v.finding? data = none := by
  cases v with
  | object a =>
      cases a with
      | none => rfl
      | some a => cases h
  | _ => rfl

/-- A value that is no object asks nothing. -/
theorem other (h : v.object? = none) : m.Consults data m [v] := by
  refine .idle (Nat.le_refl m.next) (List.forall_mem_singleton.mpr (finding?_eq_none h)) ?_
  refine List.forall_mem_singleton.mpr fun a ha => ?_
  rw [h] at ha
  cases ha

/-- A new accessor beside the cache is not remembered. -/
theorem beside {a : Accessor} (h : a.path = none ∨ a.isPlaceholder = true) (fresh : a.id = m.next) :
    m.Consults data { m with next := m.next + 1 } [.object (some a)] := by
  refine .idle (Nat.le_succ m.next) (List.forall_mem_singleton.mpr ?_) ?_
  · rw [FieldValue.finding?]
    rcases h with hpath | hplaceholder
    · rw [hpath]
    · rw [hplaceholder]
      cases a.path <;> rfl
  · refine List.forall_mem_singleton.mpr fun b hb => ?_
    obtain rfl := Option.some.inj hb
    exact ⟨Nat.le_of_eq fresh.symm, fresh ▸ Nat.lt_succ_self m.next⟩

/-- A finding is an object that was obtained. -/
theorem accessor?_of_finding? {f : Finding} (h : v.finding? data = some f) :
    v.accessor? = some f.accessor := by
  cases v with
  | object a =>
      cases a with
      | none => cases h
      | some a =>
          simp only [FieldValue.finding?] at h
          split at h
          · split at h
            · cases h
            · obtain rfl := Option.some.inj h
              rfl
          · cases h
  | _ => cases h

/-- What is asked is told, and what is given is held. -/
theorem moves (h : m.Consults data m' vs) :
    m.Moves { m' with held := vs.filterMap FieldValue.accessor? ++ m.held }
      ((vs.findSome? (·.finding? data)).map (.found · m.held)) := by
  cases h with
  | idle later unfound new =>
      rw [List.findSome?_eq_none_iff.mpr unfound]
      refine .idle later fun a ha => (List.mem_append.mp ha).symm.imp id fun ha => ?_
      obtain ⟨v, hv, hid⟩ := List.mem_filterMap.mp ha
      obtain ⟨o, ho, rfl⟩ := Option.map_eq_some_iff.mp hid
      exact new v hv o ho
  | @reuse v f found reused =>
      rw [List.filterMap_cons_some (accessor?_of_finding? found), List.findSome?_cons, found]
      exact .reuse f reused
  | @remember v f found unknown fresh =>
      rw [List.filterMap_cons_some (accessor?_of_finding? found), List.findSome?_cons, found]
      exact .remember f unknown fresh

end Memory.Consults

namespace Walk

variable (s : Scene) (x : Selection) (path : CachePath) (operation : Operation)
  (isPlaceholder : Bool)

theorem consults_accessorFor (type : String) (data : Json) :
    s.memory.Consults data ((accessorFor x type operation path data).run s).2.memory
      [.object (some ((accessorFor x type operation path data).run s).1)] := by
  rw [accessorFor, run_get_bind]
  split
  · rename_i id hreused
    exact .reuse (f := ⟨⟨x.id, path⟩, data, id⟩) rfl hreused
  · rename_i hunknown
    exact .remember (f := ⟨⟨x.id, path⟩, data, s.context.nextAccessor⟩) rfl hunknown rfl

theorem consults_resolveObject (type : String) :
    s.memory.Consults ((s.shallow path).getD (.object []))
      ((resolveObject x type path operation isPlaceholder).run s).2.memory
      [((resolveObject x type path operation isPlaceholder).run s).1] := by
  rw [resolveObject]
  split
  · exact .beside (.inr rfl) rfl
  · have hshallow : s.shallow path = ((read path operation).run s).1 := rfl
    rw [hshallow, run_bind]
    split
    · rename_i fs hvalue
      rw [hvalue]
      exact consults_accessorFor ((read path operation).run s).2 x path operation type (.object fs)
    · exact .other rfl
    · rename_i hvalue
      rw [hvalue]
      exact consults_accessorFor ((seed path (.object [])).run ((read path operation).run s).2).2 x
        path operation type (.object [])

/-- Whatever is resolved, the memory is asked for the object at its path. -/
theorem consults_resolve (type : TypeRef) :
    s.memory.Consults ((s.shallow path).getD (.object []))
      ((resolve x type path operation isPlaceholder).run s).2.memory
      [((resolve x type path operation isPlaceholder).run s).1] := by
  have hmemory := memory_register x type s
  have hcache := (inert_register x type s).cache
  generalize hdata : (s.shallow path).getD (.object []) = data
  have hother : ∀ {t t' : Scene} {v : FieldValue}, t'.memory = t.memory ∧ v.object? = none →
      t.memory = s.memory → s.memory.Consults data t'.memory [v] := by
    rintro t t' v ⟨h, hv⟩ ht
    rw [h, ht]
    exact .other hv
  rw [resolve, run_bind]
  split
  · exact hother (memory_resolveList x type.item path operation isPlaceholder _) hmemory
  · rw [run_get_bind]
    split
    · exact hother (memory_resolveScalar path operation isPlaceholder _) hmemory
    · have hobject := consults_resolveObject ((register x type).run s).2 x path operation
        isPlaceholder type.name
      rw [hmemory, Scene.shallow, hcache] at hobject
      exact hdata ▸ hobject
    · exact hother (memory_resolveUnion x type.name path operation isPlaceholder _) hmemory

end Walk

namespace ListAccessor

theorem consults_get (l : ListAccessor) (position : Nat) (s : Scene) :
    s.memory.Consults (l.data position s) ((l.get position).run s).2.memory
      ((l.get position).run s).1.toList := by
  have hmemory := l.memory_cachedLength s
  rw [get, Walk.run_bind]
  split
  · rw [← hmemory]
    exact .nothing _ _
  · have hitem := Walk.consults_resolve
      ((Walk.child l.selection (.index position)).run (l.cachedLength.run s).2).2
    rw [← hmemory]
    exact hitem _ _ _ _ _

end ListAccessor

namespace UnionAccessor

theorem consults_enter (u : UnionAccessor) (type : String) (s : Scene) :
    s.memory.Consults ((s.shallow u.path).getD .null) ((u.enter type).run s).2.memory
      [.object (some ((u.enter type).run s).1)] := by
  have hmemory := u.memory_touch type s
  have hcache : ((u.touch type).run s).2.cache = s.cache :=
    (Walk.inert_selectIdentity _ _ _).cache
  rw [u.enter_eq, opened, ← hmemory, Scene.shallow, ← hcache]
  split
  · exact .beside (.inr rfl) rfl
  · exact Walk.consults_accessorFor ((Walk.peek u.path).run ((u.touch type).run s).2).2 _ u.path
      u.operation type _

theorem consults_on (u : UnionAccessor) (type : String) (s : Scene) :
    s.memory.Consults (((u.typename.run s).2.shallow u.path).getD .null)
      ((u.on type).run s).2.memory
      (((u.on type).run s).1.toOption.getD none |>.toList.map fun a => .object (some a)) := by
  have hmemory := u.memory_typename s
  rw [on_eq]
  split
  · simp only
    split
    · rw [hmemory]
      exact .nothing _ _
    · rw [← hmemory]
      exact u.consults_enter type (u.typename.run s).2
  · exact .nothing _ _

end UnionAccessor

namespace Accessor

theorem consults_field (a : Accessor) (name : String) (arguments : Fields Json) (s : Scene) :
    s.memory.Consults ((Look.field a name arguments).data s)
      ((a.field name arguments).run s).2.memory
      ((a.field name arguments).run s).1.toOption.toList := by
  have hmemory := a.memory_child name arguments s
  rw [field_eq, Look.data]
  cases hchild : (a.child name arguments).run s with
  | mk r t =>
      rw [hchild] at hmemory
      cases r with
      | error e =>
          rw [hmemory]
          exact .nothing _ _
      | ok found =>
          obtain ⟨x, type, path⟩ := found
          rw [← hmemory]
          exact Walk.consults_resolve t x path a.operation a.isPlaceholder type

/-- A field is set, and forgotten, or nothing happens to the memory. -/
theorem memory_set (a : Accessor) (name : String) (arguments : Fields Json) (value : Json)
    (s : Scene) :
    (∃ x type path, ((a.child name arguments).run s).1 = .ok (x, type, path) ∧
      ((a.set name arguments value).run s).1 = .ok () ∧
      ((a.set name arguments value).run s).2.memory = s.memory.forget ⟨x.id, path⟩) ∨
    (∃ e, ((a.set name arguments value).run s).1 = .error e) ∧
      ((a.set name arguments value).run s).2.memory = s.memory := by
  have hmemory := a.memory_child name arguments s
  rw [set]
  cases hchild : (a.child name arguments).run s with
  | mk r t =>
      rw [hchild] at hmemory
      cases r with
      | error e =>
          rw [Attempt.run_bind_error hchild]
          exact .inr ⟨⟨e, rfl⟩, hmemory⟩
      | ok found =>
          obtain ⟨x, type, path⟩ := found
          rw [Attempt.run_bind_ok hchild]
          cases hplaceholder : a.isPlaceholder with
          | true => exact .inr ⟨⟨_, rfl⟩, hmemory⟩
          | false =>
              simp only [Bool.false_eq_true, if_false]
              rw [Attempt.run_bind_ok (run_lift (Walk.write path value) t)]
              cases ((Walk.write path value).run t).1 with
              | true =>
                  have hforgotten := congrArg (Memory.forget · ⟨x.id, path⟩) hmemory
                  exact .inl ⟨x, type, path, rfl, rfl, hforgotten⟩
              | false => exact .inr ⟨⟨_, rfl⟩, hmemory⟩

end Accessor

/-- A single read consults the memory once, for the value that it sees. -/
theorem Look.consults (look : Look) (single : (Deed.read look).IsSingle) (s : Scene) :
    s.memory.Consults (look.data s) (look.run.run s).2.memory ((Deed.read look).gives s) := by
  cases look with
  | root operation => exact .beside (.inl rfl) rfl
  | field a name arguments =>
      have hfield := a.consults_field name arguments s
      rw [Deed.gives, Deed.run, run, Attempt.run_map]
      cases hvalue : ((a.field name arguments).run s).1 with
      | ok v => rwa [hvalue] at hfield
      | error e => rwa [hvalue] at hfield
  | length l =>
      have hmemory : ((Look.length l).run.run s).2.memory = s.memory :=
        (l.memory_cachedLength _).trans (Walk.memory_touchItem l 0 s)
      rw [hmemory]
      exact .nothing _ _
  | item l position => exact l.consults_get position s
  | byKey l key =>
      have hgives : (Deed.read (.byKey l key)).gives s = ((l.byKey key).run s).1.toList := rfl
      have hrun : ((Look.byKey l key).run.run s).2 = ((l.byKey key).run s).2 := rfl
      rw [hgives, hrun, ListAccessor.byKey, data]
      cases Text.index? key with
      | some position => exact l.consults_get position s
      | none => exact .nothing _ _
  | items l => exact single.elim
  | typename u =>
      have hmemory : ((Look.typename u).run.run s).2.memory = s.memory := u.memory_typename s
      rw [hmemory]
      exact .nothing _ _
  | branch u type =>
      have hbranch := u.consults_on type s
      rw [Deed.gives, Deed.run, run, Attempt.run_map]
      cases hvalue : ((u.on type).run s).1 with
      | ok a => rwa [hvalue] at hbranch
      | error e => rwa [hvalue] at hbranch

namespace ListAccessor

/-- An item is set, and forgotten, or nothing happens to the memory. -/
theorem memory_set (l : ListAccessor) (position : Nat) (value : Json) (s : Scene) :
    (((l.set position value).run s).1 = .ok () ∧ ((l.set position value).run s).2.memory =
      s.memory.forget ⟨((Walk.child l.selection (.index position)).run s).1.id,
        l.path.child (toString position)⟩) ∨
    (∃ e, ((l.set position value).run s).1 = .error e) ∧
      ((l.set position value).run s).2.memory = s.memory := by
  have hmemory := l.memory_cachedLength s
  have hitem : ((Walk.child l.selection (.index position)).run s).1 =
      ((Walk.child l.selection (.index position)).run (l.cachedLength.run s).2).1 :=
    congrArg (fun f => (Selection.Forest.child f l.selection (.index position) none [] false).1)
      (l.quiet_cachedLength s).forest.symm
  rw [set, Attempt.run_bind_ok (Accessor.run_lift l.cachedLength s), hitem]
  cases hrefused : decide (position > (l.cachedLength.run s).1) || l.isPlaceholder with
  | true =>
      simp only [if_true]
      exact .inr ⟨⟨_, rfl⟩, hmemory⟩
  | false =>
      simp only [Bool.false_eq_true, if_false]
      rw [Attempt.run_bind_ok (Accessor.run_lift (Walk.write _ value) _)]
      generalize (l.cachedLength.run s).2 = counted at hmemory
      cases ((Walk.write (l.path.child (toString position)) value).run counted).1 with
      | true =>
          have hforgotten := congrArg (Memory.forget · ⟨((Walk.child l.selection
            (.index position)).run counted).1.id, l.path.child (toString position)⟩) hmemory
          exact .inl ⟨rfl, hforgotten⟩
      | false => exact .inr ⟨⟨_, rfl⟩, hmemory⟩

end ListAccessor

namespace Deed

variable {s : Scene}

/-- What a write leaves: nothing was obtained. -/
theorem memory_after {α : Type} {d : Deed} {m : Attempt α}
    (run : d.run = m >>= fun _ => pure []) :
    (s.after d).memory = { (m.run s).2.memory with held := s.memory.held } := by
  have hrun := Attempt.run_map m (fun _ => ([] : List FieldValue)) s
  have hnone : d.obtained s = [] := by
    rw [obtained, gives, run, hrun]
    cases (m.run s).1 <;> rfl
  rw [Scene.after, hnone, run, hrun]
  rfl

/-- Whatever is done moves the memory as it is told. -/
theorem moves (d : Deed) (single : d.IsSingle) :
    s.memory.Moves (s.after d).memory (d.event? s) := by
  have hsame : s.memory.Moves s.memory none :=
    .idle (Nat.le_refl _) fun a ha => .inl ha
  cases d with
  | read look => exact (look.consults single s).moves
  | set a name arguments value =>
      rw [memory_after (m := a.set name arguments value) rfl, event?]
      rcases a.memory_set name arguments value s with
        ⟨x, type, path, hchild, hset, h⟩ | ⟨⟨e, hset⟩, h⟩
      · rw [h, hset, hchild]
        exact .write ⟨x.id, path⟩
      · rw [h, hset]
        exact hsame
  | setItem l position value =>
      rw [memory_after (m := l.set position value) rfl, event?]
      rcases l.memory_set position value s with ⟨hset, h⟩ | ⟨⟨e, hset⟩, h⟩
      · rw [h, hset]
        exact .write _
      · rw [h, hset]
        exact hsame

end Deed

/-! ### Courses -/

namespace Course

variable {start s : Scene} {log : List Memory.Event}

/-- An object that is found is told. -/
theorem find (course : Course start s log) {look : Look} {f : Finding}
    (found : look.finding? s = some f) (single : (Deed.read look).IsSingle) :
    Course start (s.after (.read look)) (log ++ [.found f s.context.held]) := by
  have hcourse := course.deed (.read look) single
  rwa [Deed.event?, found] at hcourse

/-- A course is a run of the memory. -/
theorem run (course : Course start s log) : Memory.Run start.memory s.memory log := by
  induction course with
  | start => exact .start
  | meanwhile _ cache now ih => exact ih
  | reset _ ih => exact ih
  | drop _ sub ih =>
      have hmove := ih.move (.idle (Nat.le_refl _) fun a ha => .inl (sub ha))
      rwa [Option.toList_none, List.append_nil] at hmove
  | deed _ d single ih => exact ih.move (d.moves single)

variable {f g : Finding} {before between after : List Memory.Event} {heldThen heldNow : List Nat}

/-- Accessors follow the data. Of two findings at a spot the second one is of the accessor of the
first one, if that is still held and at the spot nothing was written and the same value found all
the time. Where the values differ, so do the accessors. -/
theorem reuses (new : start.context.remembered = [])
    (course : Course start s
      (before ++ .found f heldThen :: (between ++ .found g heldNow :: after)))
    (spot : g.spot = f.spot) :
    (f.accessor ∈ heldNow → Memory.Unmoved f between → g.data.equal f.data = true →
      g.accessor = f.accessor) ∧
    (g.data.equal f.data = false → g.accessor ≠ f.accessor) := by
  have hrun := course.run
  refine ⟨fun held unmoved same => hrun.again new unmoved spot held same, fun differ same => ?_⟩
  have hequal := hrun.equal new (List.mem_append_right before List.mem_cons_self)
    (List.mem_append_right before
      (List.mem_cons_of_mem _ (List.mem_append_right between List.mem_cons_self))) same
  exact Bool.eq_false_iff.mp differ hequal

end Course

/-! ### A user who is read again -/

namespace Friendless

def meet : Look := .field reader "user" []

def visit : Look := .field ann "friend" []

/-- The user was read. -/
def met : Scene := scene.after (.read meet)

/-- In the next pass the user was read again. -/
def metAgain : Scene := { met with context := met.context.reset }.after (.read meet)

/-- The friend was read, for whom a placeholder was put into the user. -/
def visited : Scene := metAgain.after (.read visit)

/-- The same user is given by the same accessor, and by another one once there is a friend. -/
theorem reuses_ann : ∃ (f g friend h : Finding) (held₁ held₂ held₃ : List Nat),
    Course scene (visited.after (.read meet))
      [.found f [], .found g held₁, .found friend held₂, .found h held₃] ∧
    g.accessor = f.accessor ∧ h.accessor ≠ g.accessor := by
  let resumed : Scene := { met with context := met.context.reset }
  obtain ⟨f, hf⟩ := Option.isSome_iff_exists.mp
    (by decide +kernel : (meet.finding? scene).isSome = true)
  obtain ⟨g, hg⟩ := Option.isSome_iff_exists.mp
    (by decide +kernel : (meet.finding? resumed).isSome = true)
  obtain ⟨friend, hfriend⟩ := Option.isSome_iff_exists.mp
    (by decide +kernel : (visit.finding? metAgain).isSome = true)
  obtain ⟨h, hh⟩ := Option.isSome_iff_exists.mp
    (by decide +kernel : (meet.finding? visited).isSome = true)
  have twice : Course scene metAgain ([] ++ .found f [] :: ([] ++ [.found g _])) :=
    ((Course.start.find hf trivial).reset).find hg trivial
  have thrice : Course scene (visited.after (.read meet))
      ([.found f []] ++ .found g _ :: ([.found friend _] ++ [.found h _])) :=
    (twice.find hfriend trivial).find hh trivial
  have hfirst : (meet.finding? resumed).any fun g => (meet.finding? scene).any fun f =>
      decide (g.spot = f.spot) && resumed.context.held.contains f.accessor
        && g.data.equal f.data := by decide +kernel
  have hlast : (meet.finding? visited).any fun h => (meet.finding? resumed).any fun g =>
      decide (h.spot = g.spot) && !h.data.equal g.data := by decide +kernel
  simp only [hf, hg, hh, Option.any_some, Bool.and_eq_true, decide_eq_true_eq,
    List.contains_iff_mem, Bool.not_eq_true'] at hfirst hlast
  obtain ⟨⟨hspot, hheld⟩, hequal⟩ := hfirst
  obtain ⟨hspot', hdiffer⟩ := hlast
  have unmoved : Memory.Unmoved f [] := ⟨List.not_mem_nil, fun _ _ hm => absurd hm List.not_mem_nil⟩
  refine ⟨f, g, friend, h, _, _, _, thrice, ?_, ?_⟩
  · exact (Course.reuses rfl twice hspot).1 hheld unmoved hequal
  · exact (Course.reuses rfl thrice hspot').2 hdiffer

end Friendless

end LazyGraph
