import LazyGraph.Toml
import LazyGraph.Toml.Scalar

/-!
The reader of TOML documents.

A document is a sequence of lines: headers, members of the table of the last header, and lines
without either. Arrays may run over several lines, inline tables may not.
-/
namespace LazyGraph.Toml

/-- The rest after a comment, up to the end of its line. -/
def skipComment? (cs : List Char) : Option (List Char) :=
  match cs with
  | '#' :: rest =>
    let rest := rest.dropWhile isPlain
    match newline? rest, rest with
    | some _, _ => some rest
    | none, [] => some []
    | none, _ => none
  | cs => some cs

/-- The rest after the end of a line, with spaces and a comment before it. -/
def lineEnd? (cs : List Char) : Option (List Char) := do
  let rest ← skipComment? (skipSpaces cs)
  match rest with
  | [] => some []
  | rest => newline? rest

/-- The rest after blanks and comments, over any number of lines. Each step but the last takes a
character, so the length of the text is fuel enough. -/
def skipLines? : Nat → List Char → Option (List Char)
  | 0, cs => some cs
  | fuel + 1, cs =>
    match skipBlanks cs with
    | '#' :: rest => (skipComment? ('#' :: rest)).bind (skipLines? fuel)
    | rest => some rest

mutual
/-- One value at the start of a text. Every call takes a character or leads to one that does, so
twice the length of the text is fuel enough; `depth` bounds the nesting that is left. -/
def value? : Nat → Nat → List Char → Option (Json × List Char)
  | 0, _, _ => none
  | fuel + 1, depth, cs =>
    match cs with
    | '"' :: _ => (text? cs).map fun (s, rest) => (Json.string s, rest)
    | '\'' :: _ => (text? cs).map fun (s, rest) => (Json.string s, rest)
    | '[' :: rest =>
      if depth = 0 then none
      else (items? fuel (depth - 1) rest).map fun (vs, rest) => (Json.array vs, rest)
    | '\x7b' :: rest =>
      if depth = 0 then none
      else match skipSpaces rest with
        | '\x7d' :: rest => some (.object [], rest)
        | rest => (members? fuel (depth - 1) [] rest).map fun (t, rest) => (t.toJson, rest)
    | cs => scalarValue? cs

/-- Items up to the closing bracket; a comma may follow the last one. -/
def items? : Nat → Nat → List Char → Option (List Json × List Char)
  | 0, _, _ => none
  | fuel + 1, depth, cs => do
    match ← skipLines? fuel cs with
    | ']' :: rest => some ([], rest)
    | rest => do
      let (v, rest) ← value? fuel depth rest
      match ← skipLines? fuel rest with
      | ',' :: rest => (items? fuel depth rest).map fun (vs, rest) => (v :: vs, rest)
      | ']' :: rest => some ([v], rest)
      | _ => none

/-- Members of an inline table up to the closing brace, put into a table. -/
def members? : Nat → Nat → Table → List Char → Option (Table × List Char)
  | 0, _, _, _ => none
  | fuel + 1, depth, t, cs => do
    let (key, rest) ← key? cs
    let (v, rest) ← value? fuel depth (skipSpaces (← mark? '=' rest))
    let t ← put? v true key t
    match skipSpaces rest with
    | ',' :: rest => members? fuel depth t rest
    | '\x7d' :: rest => some (t, rest)
    | _ => none
end

/-- A member of a table: a key, and a value on the same line. -/
def member? (cs : List Char) : Option ((List String × Json) × List Char) := do
  let (key, rest) ← key? cs
  let rest := skipSpaces (← mark? '=' rest)
  let (v, rest) ← value? (2 * rest.length + 2) maxLevels rest
  some ((key, v), rest)

/-- A document as far as it is read: its table, and the header that its members are under. -/
structure Draft where
  table : Table := []
  header : List String := []

/-- Reads a header in double brackets after its opening brackets. -/
def Draft.element? (d : Draft) (cs : List Char) : Option (Draft × List Char) := do
  let (key, rest) ← key? cs
  let rest ← mark? ']' (← mark? ']' rest)
  some ({ table := ← openElement? key d.table, header := key }, rest)

/-- Reads a header after its opening bracket. -/
def Draft.table? (d : Draft) (cs : List Char) : Option (Draft × List Char) := do
  let (key, rest) ← key? cs
  let rest ← mark? ']' rest
  some ({ table := ← openTable? key d.table, header := key }, rest)

def Draft.member? (d : Draft) (cs : List Char) : Option (Draft × List Char) := do
  let ((key, v), rest) ← Toml.member? cs
  some ({ d with table := ← alterAt? (put? v true key) d.header d.table }, rest)

/-- Reads lines to the end of the text. Each takes at least one character, so the length of the
text is fuel enough. -/
def Draft.lines? : Nat → Draft → List Char → Option Draft
  | 0, _, _ => none
  | fuel + 1, d, cs => do
    let (d, rest) ← match skipSpaces cs with
      | '[' :: '[' :: rest => d.element? rest
      | '[' :: rest => d.table? rest
      | [] => some (d, [])
      | '#' :: rest => some (d, '#' :: rest)
      | rest => match newline? rest with
        | some _ => some (d, rest)
        | none => d.member? rest
    match ← lineEnd? rest with
    | [] => some d
    | rest => lines? fuel d rest

/-- Reads a document; a mark of the byte order may come first. -/
def parse? (s : String) : Option Json :=
  let cs := match s.toList with
    | '\ufeff' :: rest => rest
    | cs => cs
  (Draft.lines? (cs.length + 1) {} cs).map fun d => d.table.toJson

end LazyGraph.Toml
