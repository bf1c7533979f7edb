import LazyGraph.Cache
import LazyGraph.Selection

/-!
Contexts of reading: the selections that were touched, how fresh the data was that was seen, and
the accessors that may be handed out again.
-/
namespace LazyGraph

/-- What the reads of one pass found. -/
structure Freshness where
  /-- Nothing was there, or a placeholder alone. -/
  missing : Bool := false
  /-- Data was past its stale window. -/
  expired : Bool := false
  /-- Data was expired and within its stale window. -/
  stale : Bool := false
  /-- A field of a mutation or subscription was read, which always asks the network. -/
  networkOnly : Bool := false
  deriving DecidableEq, Repr, Inhabited

namespace Freshness

/-- Notes one reading that was made at `now`. -/
def observe (f : Freshness) (now : Nat) (operation : Operation) (r : Cache.Reading) : Freshness :=
  match operation with
  | .query =>
    if r.value.isNone || r.isPlaceholder then { f with missing := true }
    else match r.lifetime with
      | some (.limited expiresAt staleUntil) =>
        if now < expiresAt then f
        else if now < staleUntil then { f with stale := true }
        else { f with expired := true }
      | _ => f
  | _ => { f with networkOnly := true }

end Freshness

/-- The root selections that the accessors of a client grow from. -/
structure Roots where
  query : Selection
  mutation : Selection
  subscription : Selection
  deriving Inhabited

namespace Roots

def get (r : Roots) : Operation → Selection
  | .query => r.query
  | .mutation => r.mutation
  | .subscription => r.subscription

def plant (f : Selection.Forest) (aliasLength : Nat) : Roots × Selection.Forest :=
  let (query, f) := f.newRoot Operation.query.text aliasLength
  let (mutation, f) := f.newRoot Operation.mutation.text aliasLength
  let (subscription, f) := f.newRoot Operation.subscription.text aliasLength
  ({ query, mutation, subscription }, f)

end Roots

/-- An accessor that was handed out: where it stands, and the data that it was made for. -/
structure Remembered where
  selection : Nat
  path : CachePath
  data : Json
  accessor : Nat
  deriving Inhabited

structure Context where
  roots : Roots
  /-- The touched selections, each once, in the order of their first touch. -/
  selections : List Selection := []
  freshness : Freshness := {}
  remembered : List Remembered := []
  /-- The accessors that the caller still holds. -/
  held : List Nat := []
  nextAccessor : Nat := 1
  /-- The observers of touches, in the order in which they were added. -/
  observers : List String := []
  /-- What the observers were told, and who was told, oldest first. -/
  told : List (String × Selection) := []
  deriving Inhabited

namespace Context

/-- Tells all observers of a selection. -/
def tell (c : Context) (s : Selection) : Context :=
  { c with told := c.told ++ c.observers.map (·, s) }

/-- Touches a selection. Observers hear of the first touch of a pass. -/
def select (c : Context) (s : Selection) : Context :=
  if c.selections.any (·.id == s.id) then c
  else { c with selections := c.selections ++ [s] }.tell s

def observe (c : Context) (observer : String) : Context :=
  { c with observers := c.observers ++ [observer] }

/-- Starts a new pass. Accessors are still remembered. -/
def reset (c : Context) : Context := { c with selections := [], freshness := {} }

/-- Whether a field of a subscription was touched. -/
def hasSubscriptions (c : Context) : Bool :=
  c.selections.any (·.operation? == some .subscription)

/-- Whether data is absent or past its stale window. -/
def needsData (c : Context) : Bool := c.freshness.missing || c.freshness.expired

/-- Whether the network has to be asked. -/
def shouldFetch (c : Context) : Bool := c.needsData || c.freshness.networkOnly

/-- Whether stale data was served. -/
def shouldRevalidate (c : Context) : Bool := c.freshness.stale

/-- The accessor remembered at a place for the same data, if it is still held. -/
def remembered? (c : Context) (selection : Nat) (path : CachePath) (data : Json) : Option Nat :=
  (c.remembered.find? fun r =>
    r.selection == selection && r.path == path && r.data.equal data
      && c.held.contains r.accessor).map (·.accessor)

/-- Forgets the accessor remembered at a place. -/
def forget (c : Context) (selection : Nat) (path : CachePath) : Context :=
  let isThere (r : Remembered) : Bool := r.selection == selection && r.path == path
  { c with remembered := c.remembered.filter (!isThere ·) }

/-- The name of a new accessor. -/
def freshAccessor (c : Context) : Nat × Context :=
  (c.nextAccessor, { c with nextAccessor := c.nextAccessor + 1 })

/-- Remembers an accessor at a place, in place of the one remembered there. -/
def remember (c : Context) (selection : Nat) (path : CachePath) (data : Json) (accessor : Nat) :
    Context :=
  let c := c.forget selection path
  { c with remembered := { selection, path, data, accessor } :: c.remembered }

end Context
end LazyGraph
