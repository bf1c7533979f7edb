import LazyGraph.Json

/-!
Tables of a TOML document while it is read.

How a table came to be decides who may still add to it: a header gives each table its members
once, dotted keys add to tables made by dotted keys, and values are closed.
-/
namespace LazyGraph.Toml

inductive Maker
  /-- The table's own header. -/
  | header
  /-- The header of a table below it. -/
  | headerBelow
  /-- A dotted key. -/
  | dots
  deriving DecidableEq, Repr

inductive Node
  | value (v : Json)
  | table (maker : Maker) (members : List (String × Node))
  /-- The tables of one header in double brackets. -/
  | tables (elements : List (List (String × Node)))

abbrev Table := Fields Node

/-- Changes the last of several tables. -/
def alterLast? (f : Table → Option Table) : List Table → Option (List Table)
  | [] => none
  | [t] => (f t).map ([·])
  | t :: rest => (alterLast? f rest).map (t :: ·)

/-- Changes the table that a part of a header leads to, or makes one. Of several tables it is the
last. -/
def alterBelow? (f : Table → Option Table) (t : Table) (key : String) : Option Table :=
  match Fields.get? t key with
  | none => (f []).map fun u => Fields.insert t key (.table .headerBelow u)
  | some (.table maker u) => (f u).map fun u => Fields.insert t key (.table maker u)
  | some (.tables us) => (alterLast? f us).map fun us => Fields.insert t key (.tables us)
  | some (.value _) => none

/-- Changes the table at the end of a header's key. -/
def alterAt? (f : Table → Option Table) : List String → Table → Option Table
  | [], t => f t
  | key :: rest, t => alterBelow? (alterAt? f rest) t key

/-- Makes the table of a header, unless it has been made. -/
def openTable? : List String → Table → Option Table
  | [], _ => none
  | [key], t =>
    match Fields.get? t key with
    | none => some (Fields.insert t key (.table .header []))
    | some (.table .headerBelow u) => some (Fields.insert t key (.table .header u))
    | some _ => none
  | key :: rest, t => alterBelow? (openTable? rest) t key

/-- Makes one more table of a header in double brackets. -/
def openElement? : List String → Table → Option Table
  | [], _ => none
  | [key], t =>
    match Fields.get? t key with
    | none => some (Fields.insert t key (.tables [[]]))
    | some (.tables us) => some (Fields.insert t key (.tables (us ++ [[]])))
    | some _ => none
  | key :: rest, t => alterBelow? (openElement? rest) t key

/-- Puts a value under a dotted key that is not taken. The value's own table must take values, as
those do that dotted keys made; tables on the way may also be made by headers below them. -/
def put? (v : Json) : Bool → List String → Table → Option Table
  | _, [], _ => none
  | takesValues, [key], t =>
    if takesValues && !Fields.contains t key then some (Fields.insert t key (.value v)) else none
  | _, key :: rest, t =>
    match Fields.get? t key with
    | none => (put? v true rest []).map fun u => Fields.insert t key (.table .dots u)
    | some (.table .header _) => none
    | some (.table maker u) =>
      (put? v (maker = .dots) rest u).map fun u => Fields.insert t key (.table maker u)
    | some (.tables us) =>
      (alterLast? (put? v false rest) us).map fun us => Fields.insert t key (.tables us)
    | some (.value _) => none

mutual
/-- The value of a finished node. -/
def Node.toJson : Node → Json
  | .value v => v
  | .table _ members => .object (tableMembers members)
  | .tables elements => .array (tableItems elements)

def tableMembers : List (String × Node) → List (String × Json)
  | [] => []
  | (k, n) :: rest => (k, n.toJson) :: tableMembers rest

def tableItems : List (List (String × Node)) → List Json
  | [] => []
  | t :: rest => .object (tableMembers t) :: tableItems rest
end

/-- The value of a finished document. -/
def Table.toJson (t : Table) : Json := .object (tableMembers t)

end LazyGraph.Toml
