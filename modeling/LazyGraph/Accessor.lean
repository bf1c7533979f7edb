import LazyGraph.Accessor.Context

/-!
Accessors: reading the cache field by field.

A read touches the selection of the field and gives what the cache holds for it. Objects and lists
that are missing are given as accessors over a placeholder, which is put into the cache, so that
the fields below them can be touched before any data arrives. An accessor that stands outside the
cache touches selections and reads nothing.
-/
namespace LazyGraph

/-- An object. The roots of operations have no path. -/
structure Accessor where
  id : Nat
  selection : Selection
  type : String
  operation : Operation
  path : Option CachePath
  isPlaceholder : Bool
  deriving Inhabited

structure ListAccessor where
  selection : Selection
  itemType : TypeRef
  operation : Operation
  path : CachePath
  isPlaceholder : Bool
  deriving Inhabited

/-- A field of abstract type. -/
structure UnionAccessor where
  selection : Selection
  type : String
  operation : Operation
  path : CachePath
  isPlaceholder : Bool
  deriving Inhabited

/-- What a read gives. None stands for null, and for a scalar that is not there. -/
inductive FieldValue
  | scalar (value : Option Json)
  | object (accessor : Option Accessor)
  | list (accessor : Option ListAccessor)
  | union (accessor : Option UnionAccessor)
  deriving Inhabited

namespace FieldValue

def isNull : FieldValue → Bool
  | .scalar v => v.isNone
  | .object a => a.isNone
  | .list a => a.isNone
  | .union a => a.isNone

def scalar? : FieldValue → Option Json
  | .scalar v => v
  | _ => none

def object? : FieldValue → Option Accessor
  | .object a => a
  | _ => none

def list? : FieldValue → Option ListAccessor
  | .list a => a
  | _ => none

def union? : FieldValue → Option UnionAccessor
  | .union a => a
  | _ => none

end FieldValue

/-- What accessors work on at one instant. -/
structure Scene where
  schema : Schema
  /-- The fields that are selected of every object that declares them. -/
  identityFields : List String
  now : Nat
  forest : Selection.Forest
  cache : Cache
  context : Context
  /-- The notices of writes, oldest first. -/
  notices : List Cache.Notice := []
  deriving Inhabited

/-- An action that always succeeds. -/
abbrev Walk (α : Type) := StateM Scene α

/-- An action that may be refused. What it did before stays done. -/
abbrev Attempt (α : Type) := ExceptT ValidationError (StateM Scene) α

namespace Walk

def inContext (f : Context → Context) : Walk Unit :=
  modify fun s => { s with context := f s.context }

/-- The child of a selection, remembered or new. -/
def child (parent : Selection) (key : Selection.Key) (arguments : Fields Selection.Argument := [])
    (isBranch : Bool := false) : Walk Selection :=
  modifyGet fun s =>
    let (c, forest) := s.forest.child parent key none arguments isBranch
    (c, { s with forest })

def select (s : Selection) : Walk Unit := inContext (·.select s)

/-- Reads a value one level deep. -/
def peek (path : CachePath) : Walk Cache.Reading :=
  modifyGet fun s =>
    let (r, cache) := s.cache.read path
    (r, { s with cache })

/-- Reads a value one level deep and notes how fresh it is. -/
def read (path : CachePath) (operation : Operation) : Walk (Option Json) := do
  let r ← peek path
  modify fun s => { s with
    context := { s.context with freshness := s.context.freshness.observe s.now operation r } }
  pure r.value

/-- Puts a placeholder where nothing is stored. -/
def seed (path : CachePath) (value : Json) : Walk Unit :=
  modify fun s => { s with cache := (s.cache.seed s.now path value).2 }

/-- Writes through to the cache. Whether the parent was there. -/
def write (path : CachePath) (value : Json) : Walk Bool :=
  modifyGet fun s =>
    let (cache, notice) := s.cache.write s.now path value
    (notice.isSome, { s with cache, notices := s.notices ++ notice.toList })

/-- Selects the fields that identify objects of a type. -/
def selectIdentity (s : Selection) (type : String) : Walk Unit := do
  let scene ← get
  (scene.schema.identityFields type scene.identityFields).forM fun field => do
    select (← child s (.field field))

/-- Touches a selection and the fields that its type selects by itself: an object its type name
and its identity, a union its type name. -/
def register (s : Selection) (type : TypeRef) : Walk Unit := do
  select s
  if type.isList then pure ()
  else match (← get).schema.kind type.name with
    | .object =>
      select (← child s (.field "__typename"))
      selectIdentity s type.name
    | .abstract => select (← child s (.field "__typename"))
    | .scalar => pure ()

/-- A new accessor for data at a path. -/
def newAccessor (selection : Selection) (type : String) (operation : Operation)
    (path : Option CachePath) (isPlaceholder : Bool) : Walk Accessor :=
  modifyGet fun s =>
    let (id, context) := s.context.freshAccessor
    ({ id, selection, type, operation, path, isPlaceholder }, { s with context })

/-- The accessor for data at a path: the one handed out for the same data before if it is still
held, or else a new one. -/
def accessorFor (selection : Selection) (type : String) (operation : Operation) (path : CachePath)
    (data : Json) : Walk Accessor := do
  match (← get).context.remembered? selection.id path data with
  | some id => pure { id, selection, type, operation, path := some path, isPlaceholder := false }
  | none =>
    let a ← newAccessor selection type operation (some path) false
    inContext (·.remember selection.id path data a.id)
    pure a

/-- Touches an item of a list without reading it. -/
def touchItem (l : ListAccessor) (position : Nat) : Walk Unit := do
  register (← child l.selection (.index position)) l.itemType

/-- A list field at a path. -/
def resolveList (selection : Selection) (itemType : TypeRef) (path : CachePath)
    (operation : Operation) (isPlaceholder : Bool) : Walk FieldValue := do
  let present (isPlaceholder : Bool) : Walk FieldValue := do
    let l : ListAccessor := { selection, itemType, operation, path, isPlaceholder }
    touchItem l 0
    pure (.list (some l))
  if isPlaceholder then present true
  else match ← read path operation with
    | some (.array _) => present false
    | some _ => pure (.list none)
    | none => do
      seed path (.array [])
      present false

/-- An object field at a path. -/
def resolveObject (selection : Selection) (type : String) (path : CachePath)
    (operation : Operation) (isPlaceholder : Bool) : Walk FieldValue := do
  if isPlaceholder then
    pure (.object (some (← newAccessor selection type operation (some path) true)))
  else match ← read path operation with
    | some (.object fs) =>
      pure (.object (some (← accessorFor selection type operation path (.object fs))))
    | some _ => pure (.object none)
    | none => do
      seed path (.object [])
      pure (.object (some (← accessorFor selection type operation path (.object []))))

/-- A field of abstract type at a path. -/
def resolveUnion (selection : Selection) (type : String) (path : CachePath)
    (operation : Operation) (isPlaceholder : Bool) : Walk FieldValue := do
  let present : FieldValue :=
    .union (some { selection, type, operation, path, isPlaceholder })
  if isPlaceholder then pure present
  else match ← read path operation with
    | some (.object _) => pure present
    | some _ => pure (.union none)
    | none => do
      seed path (.object [])
      pure present

/-- A scalar field at a path; null counts as absent. -/
def resolveScalar (path : CachePath) (operation : Operation) (isPlaceholder : Bool) :
    Walk FieldValue := do
  if isPlaceholder then pure (.scalar none)
  else
    let v ← read path operation
    pure (.scalar (v.filter (!·.isNull)))

/-- Touches a field and gives its value at a path. -/
def resolve (selection : Selection) (type : TypeRef) (path : CachePath) (operation : Operation)
    (isPlaceholder : Bool) : Walk FieldValue := do
  register selection type
  if type.isList then resolveList selection type.item path operation isPlaceholder
  else match (← get).schema.kind type.name with
    | .scalar => resolveScalar path operation isPlaceholder
    | .object => resolveObject selection type.name path operation isPlaceholder
    | .abstract => resolveUnion selection type.name path operation isPlaceholder

end Walk

namespace Accessor

/-- The accessor of an operation's root. -/
def root (operation : Operation) : Walk Accessor := do
  Walk.newAccessor ((← get).context.roots.get operation) operation.text operation none false

/-- The arguments with their declared types. -/
def typedArguments (field : String) (d : FieldDef) (arguments : Fields Json) :
    Except ValidationError (Fields Selection.Argument) :=
  arguments.mapM fun (name, value) =>
    match Fields.get? d.arguments name with
    | some type => .ok (name, { type, value })
    | none => .error (.unknownArgument field name)

/-- The selection of a declared field, its type, and where its value stands. -/
def child (a : Accessor) (name : String) (arguments : Fields Json) :
    Attempt (Selection × TypeRef × CachePath) := do
  let d ← ofExcept ((← get).schema.requireField a.type name)
  let arguments ← ofExcept (typedArguments name d arguments)
  let s ← Walk.child a.selection (.field name) arguments
  let path := match a.path with
    | some path => path.child s.node.label
    | none => { root := a.operation, field := s.node.label }
  pure (s, d.typeRef, path)
where
  ofExcept {α : Type} : Except ValidationError α → Attempt α
    | .ok v => pure v
    | .error e => throw e

/-- Reads a field. -/
def field (a : Accessor) (name : String) (arguments : Fields Json := []) : Attempt FieldValue := do
  let (s, type, path) ← a.child name arguments
  Walk.resolve s type path a.operation a.isPlaceholder

/-- Writes a field through to the cache. A write to an identified object is seen on every path to
it. -/
def set (a : Accessor) (name : String) (arguments : Fields Json) (value : Json) : Attempt Unit := do
  let (s, _, path) ← a.child name arguments
  let written ← if a.isPlaceholder then pure false else Walk.write path value
  if written then Walk.inContext fun c => (c.forget s.id path).tell s
  else throw (.malformedPath path.text .noParent)

end Accessor

namespace ListAccessor

/-- The number of items that the cache holds. -/
def cachedLength (l : ListAccessor) : Walk Nat := do
  if l.isPlaceholder then pure 0
  else match (← Walk.peek l.path).value with
    | some (.array items) => pure items.length
    | _ => pure 0

/-- The number of items; the first one is touched. -/
def length (l : ListAccessor) : Walk Nat := do
  Walk.touchItem l 0
  l.cachedLength

def isEmpty (l : ListAccessor) : Walk Bool := do
  pure ((← l.length) == 0)

/-- The item at a position. Past the end there is none, save that the first item of an empty list
is given as a placeholder. -/
def get (l : ListAccessor) (position : Nat) : Walk (Option FieldValue) := do
  let length ← l.cachedLength
  if length ≤ position ∧ position ≠ 0 then pure none
  else
    let item ← Walk.child l.selection (.index position)
    let isPlaceholder := if position < length then l.isPlaceholder else true
    let path := l.path.child (toString position)
    let v ← Walk.resolve item l.itemType path l.operation isPlaceholder
    pure (some v)

/-- The item under a key, which has to be a position. -/
def byKey (l : ListAccessor) (key : String) : Walk (Option FieldValue) :=
  match Text.index? key with
  | some position => l.get position
  | none => pure none

/-- Replaces an item, or adds one at the end. -/
def set (l : ListAccessor) (position : Nat) (value : Json) : Attempt Unit := do
  let length ← l.cachedLength
  let path := l.path.child (toString position)
  let written ←
    if position > length || l.isPlaceholder then pure false else Walk.write path value
  if written then
    let item ← Walk.child l.selection (.index position)
    Walk.inContext fun c => (c.forget item.id path).tell item
  else throw (.invalidArrayAssignment position length)

end ListAccessor

namespace UnionAccessor

def possibleTypes (u : UnionAccessor) : Walk (List String) := do
  pure ((← get).schema.possibleTypesOf u.type)

/-- The type of the object that the cache holds, once it is known. -/
def typename (u : UnionAccessor) : Walk (Option String) := do
  if u.isPlaceholder then pure none
  else match (← Walk.peek u.path).value with
    | some (.object fs) => pure ((Fields.get? fs "__typename").bind Json.asString?)
    | _ => pure none

/-- The branch of a possible type; there is none when the object is known to be of another. -/
def on (u : UnionAccessor) (type : String) : Attempt (Option Accessor) := do
  if !(← u.possibleTypes).contains type then throw (.unknownType type)
  let actual ← u.typename
  if actual.any (· ≠ type) then pure none
  else
    let marker ← Walk.child u.selection (.field unionMarker)
    let branch ← Walk.child marker (.field type) [] true
    Walk.selectIdentity branch type
    if u.isPlaceholder then
      pure (some (← Walk.newAccessor branch type u.operation (some u.path) true))
    else
      let data := (← Walk.peek u.path).value.getD .null
      pure (some (← Walk.accessorFor branch type u.operation u.path data))

end UnionAccessor
end LazyGraph
