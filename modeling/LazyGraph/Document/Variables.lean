import LazyGraph.Selection

/-!
The variables of a document: every argument value becomes one, and equal values share one.
-/
namespace LazyGraph.Document

/-- The variables under their names, in the order of the names. -/
abbrev Variables := Fields Selection.Argument

namespace Variables

/-- The length of the digest in variable names. -/
def digestLength : Nat := 6

/-- The name of a variable that already holds this value at this type. -/
def holding? (vs : Variables) (a : Selection.Argument) : Option String :=
  (vs.find? fun v => v.2.type == a.type && v.2.value.equal a.value).map (·.1)

/-- The `n`-th candidate for a name: the base, then the base numbered from two. -/
def candidate (base : String) : Nat → String
  | 0 => base
  | n + 1 => s!"{base}_{n + 2}"

/-- The first candidate that no variable has. Among one candidate more than there are variables
one is free. -/
def freeName (vs : Variables) (base : String) : String :=
  let candidates := (List.range (vs.length + 1)).map (candidate base)
  (candidates.find? fun n => !Fields.contains vs n).getD base

/-- The variable for an argument of a field, with the variables that it then takes. The name is
the argument's with a digest of the field's label and the argument. -/
def declare (vs : Variables) (label argument : String) (a : Selection.Argument) :
    String × Variables :=
  match vs.holding? a with
  | some name => (name, vs)
  | none =>
    let name := vs.freeName s!"{argument}_{Digest.short [label, argument] digestLength}"
    (name, Fields.insert vs name a)

/-- The variables for the arguments of a field, in their order. -/
def declareAll (vs : Variables) (label : String) :
    List (String × Selection.Argument) → List (String × String) × Variables
  | [] => ([], vs)
  | (argument, a) :: rest =>
    let (name, vs) := vs.declare label argument a
    let (uses, vs) := vs.declareAll label rest
    ((argument, name) :: uses, vs)

end Variables
end LazyGraph.Document
