/-!
Tables keyed by text, as lists of pairs in ascending order of their keys.

Keys compare by code points, which is the order of their UTF-8 bytes.
-/
namespace LazyGraph

/-- A table keyed by text. Every operation below keeps ascending keys ascending. -/
abbrev Fields (α : Type) := List (String × α)

namespace Fields

variable {α β : Type}

def get? (fs : Fields α) (key : String) : Option α :=
  match fs with
  | [] => none
  | (k, v) :: rest => if k = key then some v else get? rest key

def contains (fs : Fields α) (key : String) : Bool := (get? fs key).isSome

def keys (fs : Fields α) : List String := fs.map (·.1)

def values (fs : Fields α) : List α := fs.map (·.2)

/-- Puts `value` under `key` at the place its order asks for, in place of a value already there. -/
def insert (fs : Fields α) (key : String) (value : α) : Fields α :=
  match fs with
  | [] => [(key, value)]
  | (k, v) :: rest =>
    if key = k then (key, value) :: rest
    else if key < k then (key, value) :: (k, v) :: rest
    else (k, v) :: insert rest key value

def erase (fs : Fields α) (key : String) : Fields α :=
  fs.filter (·.1 != key)

/-- The table of the given pairs; of two with one key the later one counts. -/
def ofList (pairs : List (String × α)) : Fields α :=
  pairs.foldl (fun fs p => insert fs p.1 p.2) []

/-- The entries of `other` put over those of `fs`. -/
def overlay (fs other : Fields α) : Fields α :=
  other.foldl (fun fs p => insert fs p.1 p.2) fs

def mapValues (f : α → β) (fs : Fields α) : Fields β :=
  fs.map fun p => (p.1, f p.2)

/-- Keys strictly ascend. -/
def Ascending (fs : Fields α) : Prop :=
  fs.Pairwise fun p q => p.1 < q.1

end Fields
end LazyGraph
