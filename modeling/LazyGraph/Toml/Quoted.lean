import LazyGraph.Json.Reader

/-!
Texts and keys of TOML.

Double quotes hold escapes, single quotes hold characters as they are, and three quotes hold
several lines. A newline right after three opening quotes does not count, nor does what follows a
backslash at the end of a line up to the next character that is not blank.
-/
namespace LazyGraph.Toml

/-- The characters that may stand in a text or a comment as they are: tabs, and all that are no
controls. -/
def isPlain (c : Char) : Bool := c == '\t' || (0x20 ≤ c.toNat && c.toNat != 0x7F)

def isSpace (c : Char) : Bool := c == ' ' || c == '\t'

def skipSpaces (cs : List Char) : List Char := cs.dropWhile isSpace

/-- The rest after a line feed, or after a carriage return with a line feed. -/
def newline? : List Char → Option (List Char)
  | '\n' :: rest => some rest
  | '\r' :: '\n' :: rest => some rest
  | _ => none

/-- The rest after spaces and ends of lines. -/
def skipBlanks : List Char → List Char
  | ' ' :: rest => skipBlanks rest
  | '\t' :: rest => skipBlanks rest
  | '\n' :: rest => skipBlanks rest
  | '\r' :: '\n' :: rest => skipBlanks rest
  | cs => cs

/-! Reading. -/

/-- The value of a number of hexadecimal digits. -/
def hexDigits? : Nat → Nat → List Char → Option (Nat × List Char)
  | 0, n, cs => some (n, cs)
  | count + 1, n, c :: cs =>
    match Json.Reader.hexValue? c with
    | some d => hexDigits? count (16 * n + d) cs
    | none => none
  | _ + 1, _, [] => none

/-- The character with a number of so many hexadecimal digits. -/
def scalar? (digits : Nat) (cs : List Char) : Option (Char × List Char) :=
  match hexDigits? digits 0 cs with
  | some (n, rest) => if n.isValidChar then some (Char.ofNat n, rest) else none
  | none => none

/-- The character of an escape after its backslash. -/
def escape? : List Char → Option (Char × List Char)
  | '"' :: rest => some ('"', rest)
  | '\\' :: rest => some ('\\', rest)
  | 'b' :: rest => some ('\x08', rest)
  | 'f' :: rest => some ('\x0c', rest)
  | 'n' :: rest => some ('\n', rest)
  | 'r' :: rest => some ('\r', rest)
  | 't' :: rest => some ('\t', rest)
  | 'u' :: rest => scalar? 4 rest
  | 'U' :: rest => scalar? 8 rest
  | _ => none

/-- The characters up to a closing quote on the same line. Each step takes at least one character,
so the length of the text is fuel enough. -/
def lineChars? (quote : Char) : Nat → List Char → List Char → Option (List Char × List Char)
  | 0, _, _ => none
  | _ + 1, _, [] => none
  | fuel + 1, seen, c :: rest =>
    if c = quote then some (seen.reverse, rest)
    else if quote = '"' ∧ c = '\\' then
      match escape? rest with
      | some (c, rest) => lineChars? quote fuel (c :: seen) rest
      | none => none
    else if isPlain c then lineChars? quote fuel (c :: seen) rest
    else none

/-- The rest after a backslash that ends a line, with the blanks that follow. -/
def joinedLine? (cs : List Char) : Option (List Char) :=
  (newline? (skipSpaces cs)).map skipBlanks

/-- The characters up to three closing quotes, before which two more may stand. Each step takes at
least one character, so the length of the text is fuel enough. -/
def blockChars? (quote : Char) : Nat → List Char → List Char → Option (List Char × List Char)
  | 0, _, _ => none
  | _ + 1, _, [] => none
  | fuel + 1, seen, c :: rest =>
    if c = quote then
      let run := (rest.takeWhile (· = quote)).length + 1
      if run < 3 then
        blockChars? quote fuel (List.replicate run quote ++ seen) (rest.drop (run - 1))
      else some ((List.replicate (min (run - 3) 2) quote ++ seen).reverse,
        rest.drop (min run 5 - 1))
    else if quote = '"' ∧ c = '\\' then
      match joinedLine? rest with
      | some rest => blockChars? quote fuel seen rest
      | none => match escape? rest with
        | some (c, rest) => blockChars? quote fuel (c :: seen) rest
        | none => none
    else match newline? (c :: rest) with
      | some rest => blockChars? quote fuel ('\n' :: seen) rest
      | none => if isPlain c then blockChars? quote fuel (c :: seen) rest else none

/-- A text on one line, after its opening quote. -/
def line? (quote : Char) (cs : List Char) : Option (String × List Char) :=
  (lineChars? quote (cs.length + 1) [] cs).map fun (s, rest) => (String.ofList s, rest)

/-- A text of several lines, after its opening quotes. -/
def block? (quote : Char) (cs : List Char) : Option (String × List Char) :=
  let cs := (newline? cs).getD cs
  (blockChars? quote (cs.length + 1) [] cs).map fun (s, rest) => (String.ofList s, rest)

/-- A text in quotes. -/
def text? : List Char → Option (String × List Char)
  | '"' :: '"' :: '"' :: rest => block? '"' rest
  | '\'' :: '\'' :: '\'' :: rest => block? '\'' rest
  | '"' :: rest => line? '"' rest
  | '\'' :: rest => line? '\'' rest
  | _ => none

/-- The characters of keys without quotes. -/
def isBare (c : Char) : Bool := c.isAlphanum || c == '_' || c == '-'

/-- One part of a key. -/
def keyPart? : List Char → Option (String × List Char)
  | '"' :: rest => line? '"' rest
  | '\'' :: rest => line? '\'' rest
  | cs =>
    let bare := cs.takeWhile isBare
    if bare.isEmpty then none else some (String.ofList bare, cs.dropWhile isBare)

/-- The parts of a key, with dots between them and spaces around them; at most so many. -/
def keyParts? : Nat → List Char → Option (List String × List Char)
  | 0, _ => none
  | limit + 1, cs => do
    let (part, rest) ← keyPart? (skipSpaces cs)
    match skipSpaces rest with
    | '.' :: rest => (keyParts? limit rest).map fun (parts, rest) => (part :: parts, rest)
    | rest => some ([part], rest)

/-- The number of levels that keys and values may have. -/
def maxLevels : Nat := 79

def key? (cs : List Char) : Option (List String × List Char) := keyParts? maxLevels cs

/-! Writing. -/

/-- The longest run of a character. -/
def longestRun (c : Char) (cs : List Char) : Nat :=
  (cs.foldl (fun (longest, run) d =>
    if d = c then (max longest (run + 1), run + 1) else (longest, 0)) (0, 0)).1

/-- Whether a character needs an escape wherever it stands: it is a control that is neither a tab
nor a line feed. -/
def isCoded (c : Char) : Bool := !isPlain c && c != '\n'

def hexDigit (n : Nat) : Char := if n < 10 then Char.ofNat (48 + n) else Char.ofNat (55 + n)

/-- A control in four hexadecimal digits. -/
def codeEscape (c : Char) : List Char :=
  ['\\', 'u', '0', '0', hexDigit (c.toNat / 16), hexDigit (c.toNat % 16)]

/-- A character between double quotes that is no quote. -/
def escaped (multiline : Bool) (c : Char) : List Char :=
  if c = '\\' then ['\\', '\\']
  else if c = '\x08' then ['\\', 'b']
  else if c = '\t' then ['\\', 't']
  else if c = '\x0c' then ['\\', 'f']
  else if c = '\r' then ['\\', 'r']
  else if c = '\n' then if multiline then ['\n'] else ['\\', 'n']
  else if isPlain c then [c]
  else codeEscape c

/-- Characters between double quotes. A quote is escaped that would make a run of more than
`spare`; `run` quotes stand before. -/
def escapedChars (multiline : Bool) (spare : Nat) : Nat → List Char → List Char
  | _, [] => []
  | run, c :: cs =>
    if c = '"' then
      if run < spare then '"' :: escapedChars multiline spare (run + 1) cs
      else '\\' :: '"' :: escapedChars multiline spare 0 cs
    else escaped multiline c ++ escapedChars multiline spare 0 cs

def inQuotes (cs : List Char) : List Char := '"' :: escapedChars false 0 0 cs ++ ['"']

/-- Three quotes around characters; a newline comes first where the text has one. -/
def inBlock (quote : Char) (cs body : List Char) : List Char :=
  let quotes := [quote, quote, quote]
  quotes ++ (if cs.contains '\n' then ['\n'] else []) ++ body ++ quotes

def inDoubleBlock (cs : List Char) : List Char := inBlock '"' cs (escapedChars true 2 0 cs)

/-- A text in the first of these forms that holds it without escapes: double quotes, single
quotes, three double quotes, three single quotes. -/
def writtenChars (cs : List Char) : List Char :=
  let coded := cs.any isCoded
  let breaks := cs.contains '\n'
  let slashes := cs.contains '\\'
  let doubles := longestRun '"' cs
  let singles := longestRun '\'' cs
  if !coded && !slashes && doubles = 0 && !breaks then inQuotes cs
  else if !coded && singles = 0 && !breaks then '\'' :: cs ++ ['\'']
  else if !coded && !slashes && doubles ≤ 2 then inDoubleBlock cs
  else if !coded && singles ≤ 2 then inBlock '\'' cs cs
  else if breaks then inDoubleBlock cs
  else inQuotes cs

def writtenText (s : String) : String := String.ofList (writtenChars s.toList)

/-- A key: bare where it can be, else in the first of double and single quotes that holds it
without escapes. -/
def writtenKeyChars (cs : List Char) : List Char :=
  let coded := cs.any fun c => !isPlain c
  if !cs.isEmpty && cs.all isBare then cs
  else if !coded && !cs.contains '\\' && !cs.contains '"' then inQuotes cs
  else if !coded && !cs.contains '\'' then '\'' :: cs ++ ['\'']
  else inQuotes cs

def writtenKey (s : String) : String := String.ofList (writtenKeyChars s.toList)

end LazyGraph.Toml
