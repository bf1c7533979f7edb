import LazyGraph.CommandLine.Run
import LazyGraph.Simulation.Disk

/-!
A terminal in memory: a disk, a clock, a server with scripted responses, and what was printed.
-/
namespace LazyGraph.Simulation

structure Terminal where
  disk : Disk := {}
  workFolder : Location := []
  homeFolder : Option Location := none
  environment : List (String × String) := []
  clock : Nat := 0
  /-- The responses of the server. Once none is left, connections are refused. -/
  responses : List Http.Response := []
  /-- The requests that the server has received, in their order. -/
  requests : List Http.Request := []
  output : String := ""
  complaints : String := ""
  deriving Inhabited

namespace Terminal

def locate? (t : Terminal) (path : String) : Option Location := t.disk.locate? t.workFolder path

def isPresent (t : Terminal) (path : String) : Bool := (t.locate? path).any t.disk.isPresent

def read? (t : Terminal) (path : String) : Option String := (t.locate? path).bind t.disk.file?

/-- Changes the disk, and tells whether that succeeded. -/
def change (t : Terminal) (disk : Option Disk) : Bool × Terminal :=
  match disk with
  | some disk => (true, { t with disk })
  | none => (false, t)

def write (t : Terminal) (path text : String) : Bool × Terminal :=
  t.change ((t.locate? path).bind fun l => t.disk.write? l text)

def makeFolder (t : Terminal) (path : String) : Bool × Terminal :=
  t.change ((t.locate? path).bind t.disk.makeFolder?)

/-- Hands a request to the server. -/
def post (t : Terminal) (r : Http.Request) : Except String Http.Response × Terminal :=
  match t.responses with
  | [] => (.error "connection refused", t)
  | response :: responses => (.ok response, { t with responses, requests := t.requests ++ [r] })

def link : Http.Link (StateM Terminal) where
  post r := modifyGet (·.post r)
  wait d := modify fun t => { t with clock := t.clock + d.millis }

def host : CommandLine.Host (StateM Terminal) where
  workFolder := return Disk.path (← get).workFolder
  homeFolder := return (← get).homeFolder.map Disk.path
  valueOf? name := return (← get).environment.lookup name
  present path := return (← get).isPresent path
  readFile path := return (← get).read? path
  writeFile path text := modifyGet (·.write path text)
  makeFolder path := modifyGet (·.makeFolder path)
  print text := modify fun t => { t with output := t.output ++ text }
  complain text := modify fun t => { t with complaints := t.complaints ++ text }
  now := return (← get).clock
  link := link

end Terminal
end LazyGraph.Simulation
