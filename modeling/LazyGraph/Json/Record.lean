import LazyGraph.Json
import LazyGraph.Transport

/-!
Records read from JSON values: requests, responses and their parts.

A record is given as an object, whose unknown members are passed over, or as an array of its
members in their order. Null stands for an absent optional member.
-/
namespace LazyGraph.Json

/-- The members of a record under their names. An array may be shorter than the names, and not
longer. -/
def recordMembers? (names : List String) : Json → Option (Fields Json)
  | .object fs => some fs
  | .array items =>
    if items.length ≤ names.length then some (Fields.ofList (names.zip items)) else none
  | _ => none

/-- An optional member: absent, null, or of the form `read?` asks. -/
def optionalMember? {α : Type} (read? : Json → Option α) (fs : Fields Json) (name : String) :
    Option (Option α) :=
  match Fields.get? fs name with
  | none => some none
  | some .null => some none
  | some v => (read? v).map some

def requiredMember? {α : Type} (read? : Json → Option α) (fs : Fields Json) (name : String) :
    Option α :=
  (Fields.get? fs name).bind read?

/-- A natural number below `bound`. -/
def natBelow? (bound : Nat) : Json → Option Nat
  | .number (.int n) => if 0 ≤ n ∧ n < bound then some n.toNat else none
  | _ => none

def arrayOf? {α : Type} (read? : Json → Option α) (v : Json) : Option (List α) :=
  v.asArray?.bind fun items => items.mapM read?

def payload? (v : Json) : Option Payload := do
  let fs ← recordMembers? ["query", "variables", "operationName", "extensions"] v
  some {
    query := ← requiredMember? asString? fs "query"
    variableValues := ← optionalMember? asObject? fs "variables"
    operationName := ← optionalMember? asString? fs "operationName"
    extensions := ← optionalMember? asObject? fs "extensions" }

def errorLocation? (v : Json) : Option ErrorLocation := do
  let fs ← recordMembers? ["line", "column"] v
  some {
    line := ← requiredMember? (natBelow? (Nat.pow 2 32)) fs "line"
    column := ← requiredMember? (natBelow? (Nat.pow 2 32)) fs "column" }

def graphError? (v : Json) : Option GraphError := do
  let fs ← recordMembers? ["message", "locations", "path", "extensions"] v
  some {
    message := ← requiredMember? asString? fs "message"
    locations := ← optionalMember? (arrayOf? errorLocation?) fs "locations"
    path := ← optionalMember? asArray? fs "path"
    extensions := ← optionalMember? asObject? fs "extensions" }

def executionResult? (v : Json) : Option ExecutionResult := do
  let fs ← recordMembers? ["data", "errors", "extensions"] v
  some {
    data := ← optionalMember? some fs "data"
    errors := ← optionalMember? (arrayOf? graphError?) fs "errors"
    extensions := ← optionalMember? asObject? fs "extensions" }

end LazyGraph.Json
