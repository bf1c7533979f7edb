import LazyGraph.CommandLine.Level

/-!
The help of the command line: what a level does, how it is used, and lists of what may follow.

In a list the summaries stand in a column beside the terms. Where one would not fit there, all of
them stand below their terms.
-/
namespace LazyGraph.CommandLine

/-- What may be written, with what it means. -/
structure HelpEntry where
  term : String
  summary : String
  /-- What holds where the term is not written. -/
  notes : List String := []
  deriving DecidableEq, Repr

/-- The width that help is laid out for. -/
def helpWidth : Nat := 100

namespace HelpEntry

def noteText (e : HelpEntry) : String := " ".intercalate e.notes

def text (e : HelpEntry) : String := " ".intercalate (e.summary :: e.notes)

/-- Whether a summary is too long to stand beside terms of a width. It may be too long only where
the terms take more than two fifths of the line. -/
def overflows (width : Nat) (e : HelpEntry) : Bool :=
  let column := width + 4
  column ≤ helpWidth && 2 * helpWidth < 5 * column
    && helpWidth - column < e.summary.length + e.noteText.length

/-- The entry beside terms of a width. -/
def beside (width : Nat) (e : HelpEntry) : String :=
  s!"  {e.term}" ++ "".pushn ' ' (width + 2 - e.term.length) ++ e.text

/-- The entry with its summary on a line of its own. -/
def above (e : HelpEntry) : String := s!"  {e.term}\n          {e.text}"

end HelpEntry

/-- A list of entries under a heading, if there are any. -/
def helpList (heading : String) (entries : List HelpEntry) : List String :=
  let width := entries.foldl (fun width e => max width e.term.length) 0
  let line := if entries.any (·.overflows width) then HelpEntry.above else HelpEntry.beside width
  if entries.isEmpty then [] else ["\n".intercalate (s!"{heading}:" :: entries.map line)]

/-- How the value of an option is called, if it takes one. -/
def OptionForm.valueName? (f : OptionForm) : Option String :=
  if f.shape = .flag then none
  else some (f.name.map fun c => if c = '-' then '_' else c.toUpper)

/-- An option without its letter. -/
def OptionForm.term (f : OptionForm) : String :=
  match f.valueName? with
  | some value => s!"--{f.name} <{value}>"
  | none => s!"--{f.name}"

/-- An option with its letter in front, or with blanks in place of one. -/
def lettered (letter : Option Char) (term : String) : String :=
  match letter with
  | some c => s!"-{c}, {term}"
  | none => s!"    {term}"

/-- What an option is where it is not given. -/
def OptionForm.notes (valueOf? : String → Option String) (f : OptionForm) : List String :=
  let stoodFor := f.standIn.map fun name =>
    let value := (valueOf? name).getD ""
    s!"[env: {name}={value}]"
  stoodFor.toList ++ (f.unset.map fun value => s!"[default: {value}]").toList

namespace Level

def commandEntries (l : Level) : List HelpEntry :=
  if l.below.isEmpty then []
  else l.below.map (fun (name, level) => { term := name, summary := level.summary })
    ++ [{ term := "help"
          summary := "Print this message or the help of the given subcommand(s)" }]

def fileEntries (l : Level) : List HelpEntry :=
  if l.takesFile then [{ term := "<FILE>", summary := "Snapshot file" }] else []

def optionEntries (valueOf? : String → Option String) (l : Level) : List HelpEntry :=
  l.forms.map (fun f =>
    { term := lettered f.letter f.term, summary := f.summary, notes := f.notes valueOf? })
    ++ [{ term := lettered (some 'h') "--help", summary := "Print help" },
        { term := lettered (some 'V') "--version", summary := "Print version" }]

/-- How a level is used, in one line. -/
def usage (l : Level) : String :=
  let needed := (l.forms.filter (·.needed)).map OptionForm.term
  let file := if l.takesFile then ["<FILE>"] else []
  let command := if l.below.isEmpty then [] else ["<COMMAND>"]
  " ".intercalate (["Usage:"] ++ l.words ++ ["[OPTIONS]"] ++ needed ++ file ++ command)

/-- The help of a level, in surroundings where variables have values. -/
def help (valueOf? : String → Option String) (l : Level) : String :=
  "\n\n".intercalate ([l.summary, l.usage]
    ++ helpList "Commands" l.commandEntries
    ++ helpList "Arguments" l.fileEntries
    ++ helpList "Options" (l.optionEntries valueOf?)) ++ "\n"

def versionText (l : Level) : String := "-".intercalate l.words ++ s!" {programVersion}\n"

end Level
end LazyGraph.CommandLine
