import LazyGraph.CommandLine.Run

/-!
The program. It runs commands on the files and variables of the machine that it is started on.
-/
namespace LazyGraph.Main

open CommandLine (Host)

/-- The result of an action, if it does not fail. -/
def attempt? {α : Type} (action : IO α) : IO (Option α) := do
  try return some (← action)
  catch _ => return none

def succeeds (action : IO Unit) : IO Bool := return (← attempt? action).isSome

/-- No connection is made from here: each is refused, as by a machine without a network. -/
def link : Http.Link IO where
  post _ := return .error "no network"
  wait d := IO.sleep (UInt32.ofNat d.millis)

def host : Host IO where
  workFolder := return (← IO.currentDir).toString
  homeFolder := IO.getEnv "HOME"
  valueOf? name := IO.getEnv name
  present path := succeeds do discard (IO.FS.Handle.mk path .read)
  readFile path := attempt? (IO.FS.readFile path)
  writeFile path text := succeeds (IO.FS.writeFile path text)
  makeFolder path := succeeds (IO.FS.createDirAll path)
  print text := IO.print text
  complain text := IO.eprint text
  now := IO.monoMsNow
  link := link

end LazyGraph.Main

def main (args : List String) : IO UInt32 :=
  return UInt32.ofNat (← LazyGraph.CommandLine.run LazyGraph.Main.host args)
