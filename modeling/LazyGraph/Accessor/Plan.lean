import LazyGraph.Accessor

/-!
Reading plans: which fields to read, and the JSON value that the reads give together.

A read that is refused ends the plan.
-/
namespace LazyGraph

inductive Plan.Read
  /-- Reads a field and puts its value under a key. The parts are read of an object, or of each
  item of a list; the branches are read of a union. -/
  | field (name : String) (arguments : Fields Json) (key : String)
    (parts : List Plan.Read) (branches : List (String × List Plan.Read))
  deriving Inhabited

/-- A read at the root of an operation, and what is read next if its value is not null. -/
inductive Plan.Step
  | root (operation : Operation) (read : Plan.Read) (next : List Plan.Step)
  deriving Inhabited

abbrev Plan := List Plan.Step

namespace Plan

def Read.key : Read → String
  | .field _ _ key _ _ => key

/-- The number of list levels of a value. -/
def listLevels : FieldValue → Nat
  | .list (some l) => l.itemType.listDepth + 1
  | _ => 0

/-- Items of a list read one after the other, those that are not there passed over. -/
def readItems (item : Nat → Walk (Option FieldValue)) (render : FieldValue → Attempt Json) :
    List Nat → Attempt (List Json)
  | [] => pure []
  | position :: rest => do
    match ← item position with
    | none => readItems item render rest
    | some v => do
      let v ← render v
      pure (v :: (← readItems item render rest))

/-- Reads lists down to the values in them. Of a list without items the first item is read all
the same, so that its fields are touched, and its value is thrown away. -/
def readLevels (render : FieldValue → Attempt Json) : Nat → FieldValue → Attempt Json
  | levels + 1, .list (some l) => do
    let length ← (l.length : Walk Nat)
    let items ← readItems l.get (readLevels render levels) (List.range length)
    if items.isEmpty then
      match ← (l.get 0 : Walk (Option FieldValue)) with
      | some v => let _ ← readLevels render levels v
      | none => pure ()
    pure (.array items)
  | _, v => render v

mutual
/-- Reads a field of an object. -/
def read (a : Accessor) : Read → Attempt Json
  | .field name arguments _ parts branches => do
    let v ← a.field name arguments
    readLevels (fun v => match v with
      | .scalar v => pure (v.getD .null)
      | .object (some o) => do pure (.record (← readAll o parts))
      | .union (some u) => do
        let typename ← (u.typename : Walk (Option String))
        let branches ← readBranches u branches
        pure (.record (("typename", Json.optional .string typename) :: branches))
      | _ => pure .null) (listLevels v) v

/-- Reads fields of an object in their order. -/
def readAll (a : Accessor) : List Read → Attempt (List (String × Json))
  | [] => pure []
  | r :: rest => do
    let v ← read a r
    pure ((r.key, v) :: (← readAll a rest))

/-- Reads the branches of a union; one of another type than the object's gives null. -/
def readBranches (u : UnionAccessor) :
    List (String × List Read) → Attempt (List (String × Json))
  | [] => pure []
  | (type, parts) :: rest => do
    let v ← match ← u.on type with
      | some a => do pure (Json.record (← readAll a parts))
      | none => pure Json.null
    pure ((type, v) :: (← readBranches u rest))
end

mutual
/-- The values of one step and of those that follow from it. -/
def stepValues : Step → Attempt (List (String × Json))
  | .root operation r next => do
    let v ← read (← (Accessor.root operation : Walk Accessor)) r
    let following ← if v.isNull then pure [] else stepsValues next
    pure ((r.key, v) :: following)

def stepsValues : List Step → Attempt (List (String × Json))
  | [] => pure []
  | s :: rest => do
    let values ← stepValues s
    pure (values ++ (← stepsValues rest))
end

/-- Runs a plan; of two values under one key the later one counts. -/
def run (p : Plan) : Attempt Json := do
  pure (.record (← stepsValues p))

end Plan
end LazyGraph
