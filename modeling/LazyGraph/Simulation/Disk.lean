import LazyGraph.Text

/-!
Files and folders in memory, and the paths that lead to them.
-/
namespace LazyGraph.Simulation

/-- The names that lead from the root to a file or folder. -/
abbrev Location := List String

structure Disk where
  files : List (Location × String) := []
  /-- Folders that are there though nothing is in them. -/
  folders : List Location := []
  deriving Inhabited

namespace Disk

def file? (d : Disk) (l : Location) : Option String := d.files.lookup l

/-- What lies above a file or folder is a folder. -/
def isFolder (d : Disk) (l : Location) : Bool :=
  l.isEmpty || (d.folders ++ d.files.map (·.1.dropLast)).any l.isPrefixOf

def isPresent (d : Disk) (l : Location) : Bool := d.isFolder l || (d.file? l).isSome

/-- Follows names, each of which but the last has to lead to a folder. -/
def follow? (d : Disk) (here : Location) : List String → Option Location
  | [] => some here
  | name :: rest =>
    if !d.isFolder here then none
    else if name = "" ∨ name = "." then d.follow? here rest
    else if name = ".." then d.follow? here.dropLast rest
    else d.follow? (here ++ [name]) rest

/-- Where a path leads from a folder. A path that begins with a slash starts at the root. -/
def locate? (d : Disk) (folder : Location) (path : String) : Option Location :=
  let start := if path.toList.head? = some '/' then [] else folder
  if path = "" then none
  else d.follow? start ((Text.pieces '/' path.toList).map String.ofList)

/-- Puts a text in place of what a file holds; a folder is no file. -/
def write? (d : Disk) (l : Location) (text : String) : Option Disk :=
  if d.isFolder l then none
  else some { d with files := (l, text) :: d.files.filter (·.1 ≠ l) }

/-- Makes a folder where no file is. -/
def makeFolder? (d : Disk) (l : Location) : Option Disk :=
  if (d.file? l).isSome then none else some { d with folders := l :: d.folders }

/-- The path of a location. -/
def path (l : Location) : String := String.join (l.map fun name => s!"/{name}")

end Disk
end LazyGraph.Simulation
