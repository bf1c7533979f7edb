import LazyGraph.Operation
import LazyGraph.Settings

/-!
Commands of the command line, with their options.
-/
namespace LazyGraph.CommandLine

def programName : String := "gqlazy"

def programVersion : String := "0.1.0"

/-- Options of every command. -/
structure GlobalOptions where
  /-- A settings file to be read in place of those of the home and project folders. -/
  settingsFile : Option String := none
  endpoint : Option String := none
  window : Option Nat := none
  noNormalization : Bool := false
  verbose : Bool := false
  quiet : Bool := false
  deriving DecidableEq, Repr, Inhabited

/-- What is to be selected. -/
structure Selects where
  paths : List String
  operation : Operation := .query
  operationName : Option String := none
  /-- A file with the schema that the paths are checked against. -/
  schema : Option String := none
  deriving DecidableEq, Repr, Inhabited

inductive Command
  /-- Prints the documents for selections. -/
  | compile (selects : Selects)
  /-- Fetches selections, into what a file holds where one is to be restored; prints the snapshot
  or writes it to a file. -/
  | fetch (selects : Selects) (restore snapshot : Option String)
  /-- Restores a snapshot and prints its size. -/
  | inspect (file : String)
  /-- Writes a settings file for the project. -/
  | initSettings
  /-- Prints the settings that hold. -/
  | showSettings
  deriving DecidableEq, Repr, Inhabited

/-- The settings that the options stand for. -/
def GlobalOptions.overrides (g : GlobalOptions) : SettingsOverrides where
  endpoint := g.endpoint
  window := g.window
  normalization := if g.noNormalization then some false else none

end LazyGraph.CommandLine
