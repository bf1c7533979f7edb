import LazyGraph.Json
import LazyGraph.Number.Shortest

/-!
The text of a JSON value: the canonical form without blanks, and the indented form.

Strings escape the quote, the backslash and the characters below U+0020, and nothing else.
-/
namespace LazyGraph.Json

def hexDigit (n : Nat) : Char :=
  if n < 10 then Char.ofNat ('0'.toNat + n) else Char.ofNat ('a'.toNat + n - 10)

def escapeChar (c : Char) : List Char :=
  if c = '"' then ['\\', '"']
  else if c = '\\' then ['\\', '\\']
  else if c = '\x08' then ['\\', 'b']
  else if c = '\x0c' then ['\\', 'f']
  else if c = '\n' then ['\\', 'n']
  else if c = '\r' then ['\\', 'r']
  else if c = '\t' then ['\\', 't']
  else if c.toNat < 0x20 then
    ['\\', 'u', '0', '0', hexDigit (c.toNat / 16), hexDigit (c.toNat % 16)]
  else [c]

/-- A string in quotes. -/
def quoted (s : String) : List Char :=
  '"' :: (s.toList.flatMap escapeChar ++ ['"'])

def numberText : Number → String
  | .int n => toString n
  | .double x => x.text

mutual
/-- The characters of the canonical text. -/
def chars : Json → List Char
  | .null => ['n', 'u', 'l', 'l']
  | .bool true => ['t', 'r', 'u', 'e']
  | .bool false => ['f', 'a', 'l', 's', 'e']
  | .number n => (numberText n).toList
  | .string s => quoted s
  | .array items => '[' :: (itemChars items ++ [']'])
  | .object fs => '\x7b' :: (fieldChars fs ++ ['\x7d'])

/-- Items with commas between them. -/
def itemChars : List Json → List Char
  | [] => []
  | [v] => chars v
  | v :: rest => chars v ++ ',' :: itemChars rest

/-- Members with commas between them. -/
def fieldChars : List (String × Json) → List Char
  | [] => []
  | [(k, v)] => quoted k ++ ':' :: chars v
  | (k, v) :: rest => quoted k ++ ':' :: (chars v ++ ',' :: fieldChars rest)
end

/-- The canonical text of a value: no blanks, members in key order. -/
def canonical (v : Json) : String := String.ofList (chars v)

/-- A line break and the indentation of a nesting level, two blanks each. -/
def newline (level : Nat) : List Char := '\n' :: List.replicate (2 * level) ' '

mutual
/-- The indented text: one item or member a line, empty arrays and objects on one line. -/
def indentedChars (level : Nat) : Json → List Char
  | .array [] => ['[', ']']
  | .array items =>
    '[' :: (indentedItems (level + 1) items ++ newline level ++ [']'])
  | .object [] => ['\x7b', '\x7d']
  | .object fs =>
    '\x7b' :: (indentedFields (level + 1) fs ++ newline level ++ ['\x7d'])
  | v => chars v

def indentedItems (level : Nat) : List Json → List Char
  | [] => []
  | [v] => newline level ++ indentedChars level v
  | v :: rest => newline level ++ indentedChars level v ++ ',' :: indentedItems level rest

def indentedFields (level : Nat) : List (String × Json) → List Char
  | [] => []
  | [(k, v)] => newline level ++ quoted k ++ ':' :: ' ' :: indentedChars level v
  | (k, v) :: rest =>
    newline level ++ quoted k ++ ':' :: ' ' :: (indentedChars level v ++
      ',' :: indentedFields level rest)
end

def indented (v : Json) : String := String.ofList (indentedChars 0 v)

end LazyGraph.Json
