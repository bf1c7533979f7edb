import LazyGraph.Fields
import LazyGraph.Number.Double

/-!
JSON values. Integers of 64 bits stay integers; all other numbers are doubles.
-/
namespace LazyGraph

inductive Number
  | int (value : Int)
  | double (value : Double)
  deriving DecidableEq, Repr, Inhabited

namespace Number

/-- An integer never equals a double; doubles compare as numbers. -/
def equal : Number → Number → Bool
  | .int m, .int n => m == n
  | .double x, .double y => x.equal y
  | _, _ => false

end Number

/-- The members of an object stand in ascending order of their keys. -/
inductive Json
  | null
  | bool (value : Bool)
  | number (value : Number)
  | string (value : String)
  | array (items : List Json)
  | object (fields : List (String × Json))
  deriving Inhabited

namespace Json

def int (n : Int) : Json := .number (.int n)

def nat (n : Nat) : Json := .number (.int n)

/-- An object of the given members, put in order. -/
def record (members : List (String × Json)) : Json := .object (Fields.ofList members)

/-- Null stands for an absent value. -/
def optional {α : Type} (f : α → Json) : Option α → Json
  | none => .null
  | some a => f a

def isNull : Json → Bool
  | .null => true
  | _ => false

def asString? : Json → Option String
  | .string s => some s
  | _ => none

def asObject? : Json → Option (Fields Json)
  | .object fs => some fs
  | _ => none

def asArray? : Json → Option (List Json)
  | .array items => some items
  | _ => none

/-- The member of an object under a key. -/
def member? (v : Json) (key : String) : Option Json :=
  match v with
  | .object fs => Fields.get? fs key
  | _ => none

mutual
/-- Equality of values: structural, with numbers compared by `Number.equal`. -/
def equal : Json → Json → Bool
  | .null, .null => true
  | .bool a, .bool b => a == b
  | .number a, .number b => a.equal b
  | .string a, .string b => a == b
  | .array a, .array b => equalItems a b
  | .object a, .object b => equalFields a b
  | _, _ => false

def equalItems : List Json → List Json → Bool
  | [], [] => true
  | a :: as, b :: bs => equal a b && equalItems as bs
  | _, _ => false

def equalFields : List (String × Json) → List (String × Json) → Bool
  | [], [] => true
  | (k, a) :: as, (l, b) :: bs => k == l && equal a b && equalFields as bs
  | _, _ => false
end

end Json
end LazyGraph
