/-!
The three kinds of operation, each also the root of a selection tree and of cache paths.
-/
namespace LazyGraph

inductive Operation
  | query
  | mutation
  | subscription
  deriving DecidableEq, Repr, Inhabited

namespace Operation

/-- All operations, in the order in which their documents and roots are listed. -/
def all : List Operation := [.query, .mutation, .subscription]

def text : Operation → String
  | .query => "query"
  | .mutation => "mutation"
  | .subscription => "subscription"

def ofText? (s : String) : Option Operation :=
  if s = "query" then some .query
  else if s = "mutation" then some .mutation
  else if s = "subscription" then some .subscription
  else none

/-- The position among all operations. -/
def rank : Operation → Nat
  | .query => 0
  | .mutation => 1
  | .subscription => 2

end Operation
end LazyGraph
