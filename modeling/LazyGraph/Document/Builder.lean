import LazyGraph.Document
import LazyGraph.Recency

/-!
Builders: compilation that remembers its results, up to a number of selection sets.
-/
namespace LazyGraph.Document

structure Builder where
  capacity : Nat
  /-- Documents under the operation name and the ids of the arranged selections. -/
  memo : Recency (String × List Nat) (List Document)
  capacity_pos : 0 < capacity

namespace Builder

/-- The number of selection sets that a builder remembers, unless another is given. -/
def defaultCapacity : Nat := 256

/-- A builder remembers one selection set at least. -/
def new (capacity : Nat) : Builder where
  capacity := max capacity 1
  memo := []
  capacity_pos := by omega

instance : Inhabited Builder := ⟨new defaultCapacity⟩

def size (b : Builder) : Nat := b.memo.length

/-- The remembered documents of a set, or newly compiled ones; failures are not remembered. No
name and the empty name are one. -/
def build (b : Builder) (ss : List Selection) (operationName : Option String) :
    Except ValidationError (List Document) × Builder :=
  let arranged := arrange ss
  let key := (operationName.getD "", arranged.map (·.id))
  match Recency.peek? b.memo key with
  | some documents => (.ok documents, { b with memo := Recency.touch b.memo key })
  | none => match ofArranged arranged operationName with
    | .ok documents =>
      (.ok documents, { b with memo := (Recency.put b.memo key documents).take b.capacity })
    | .error e => (.error e, b)

end Builder
end LazyGraph.Document
