import LazyGraph.Json
import LazyGraph.Text

/-!
The reader of JSON texts.

Values nest to a depth of 127. Of two members with one key the later one counts. An integer in
the range of a signed or unsigned 64-bit word stays an integer, save `-0`, which is a double.
-/
namespace LazyGraph.Json.Reader

open LazyGraph.Text (isDigit digitValue)

/-- The rest of a text after the blanks at its start. -/
def skipBlanks (cs : List Char) : List Char :=
  cs.dropWhile fun c => c == ' ' || c == '\n' || c == '\r' || c == '\t'

/-- The rest of a text after a word at its start. -/
def word? (w : List Char) (cs : List Char) : Option (List Char) :=
  if w.isPrefixOf cs then some (cs.drop w.length) else none

def hexValue? (c : Char) : Option Nat :=
  if isDigit c then some (digitValue c)
  else if 'a' ≤ c ∧ c ≤ 'f' then some (c.toNat - 'a'.toNat + 10)
  else if 'A' ≤ c ∧ c ≤ 'F' then some (c.toNat - 'A'.toNat + 10)
  else none

/-- Four hexadecimal digits. -/
def hex4? : List Char → Option (Nat × List Char)
  | a :: b :: c :: d :: rest => do
    let a ← hexValue? a
    let b ← hexValue? b
    let c ← hexValue? c
    let d ← hexValue? d
    some (((a * 16 + b) * 16 + c) * 16 + d, rest)
  | _ => none

/-- The character of a `\u` escape; the two halves of a surrogate pair make one character and
neither stands alone. -/
def unicodeEscape? (cs : List Char) : Option (Char × List Char) := do
  let (n, rest) ← hex4? cs
  if 0xDC00 ≤ n ∧ n ≤ 0xDFFF then none
  else if 0xD800 ≤ n ∧ n ≤ 0xDBFF then
    match rest with
    | '\\' :: 'u' :: rest => do
      let (m, rest) ← hex4? rest
      if 0xDC00 ≤ m ∧ m ≤ 0xDFFF then
        some (Char.ofNat ((n - 0xD800) * 0x400 + (m - 0xDC00) + 0x10000), rest)
      else none
    | _ => none
  else some (Char.ofNat n, rest)

/-- The character of an escape after its backslash. -/
def escape? : List Char → Option (Char × List Char)
  | '"' :: rest => some ('"', rest)
  | '\\' :: rest => some ('\\', rest)
  | '/' :: rest => some ('/', rest)
  | 'b' :: rest => some ('\x08', rest)
  | 'f' :: rest => some ('\x0c', rest)
  | 'n' :: rest => some ('\n', rest)
  | 'r' :: rest => some ('\r', rest)
  | 't' :: rest => some ('\t', rest)
  | 'u' :: rest => unicodeEscape? rest
  | _ => none

/-- The characters of a string up to its closing quote. Each step takes at least one character,
so the length of the text is fuel enough. -/
def stringChars? : Nat → List Char → List Char → Option (List Char × List Char)
  | 0, _, _ => none
  | _ + 1, _, [] => none
  | fuel + 1, seen, c :: rest =>
    if c = '"' then some (seen.reverse, rest)
    else if c = '\\' then
      match escape? rest with
      | some (c, rest) => stringChars? fuel (c :: seen) rest
      | none => none
    else if c.toNat < 0x20 then none
    else stringChars? fuel (c :: seen) rest

/-- A string after its opening quote. -/
def string? (cs : List Char) : Option (String × List Char) :=
  (stringChars? (cs.length + 1) [] cs).map fun (s, rest) => (String.ofList s, rest)

/-- The bound of the digits that a numeral's significand holds. -/
def wordBound : Nat := Nat.pow 2 64

/-- Digits taken into a significand while it stays within 64 bits. -/
def takeDigits (significand : Nat) : List Char → Nat × List Char
  | [] => (significand, [])
  | c :: cs =>
    if 10 * significand + digitValue c < wordBound then
      takeDigits (10 * significand + digitValue c) cs
    else (significand, c :: cs)

/-- The digits of an exponent after its letter. None without a digit, or where the number would
be infinite; an exponent beyond 32 bits empties the number. -/
def exponent? (significand : Nat) (power : Int) (cs : List Char) :
    Option (Nat × Int × List Char) :=
  let (negative, cs) := match cs with
    | '+' :: cs => (false, cs)
    | '-' :: cs => (true, cs)
    | cs => (false, cs)
  let digits := cs.takeWhile isDigit
  let rest := cs.dropWhile isDigit
  if digits.isEmpty then none
  else
    let n := Text.digitsValue digits
    if n < Nat.pow 2 31 then some (significand, if negative then power - n else power + n, rest)
    else if significand ≠ 0 ∧ ¬ negative then none
    else some (0, 0, rest)

/-- A double from its significand and power of ten, with the exponent that may follow. -/
def scientific? (negative : Bool) (significand : Nat) (power : Int) (cs : List Char) :
    Option (Number × List Char) := do
  let (significand, power, rest) ← match cs with
    | 'e' :: cs => exponent? significand power cs
    | 'E' :: cs => exponent? significand power cs
    | cs => some (significand, power, cs)
  let x ← Double.ofDecimal? negative significand power
  some (.double x, rest)

/-- A numeral after its sign. Digits that no longer fit the significand raise the power of ten
before the point and are dropped after it. -/
def number? (negative : Bool) (cs : List Char) : Option (Number × List Char) :=
  let digits := cs.takeWhile isDigit
  let rest := cs.dropWhile isDigit
  let (significand, dropped) := takeDigits 0 digits
  if digits.isEmpty || (digits.head? == some '0' && 1 < digits.length) then none
  else match rest with
  | '.' :: rest =>
    let fraction := rest.takeWhile isDigit
    if fraction.isEmpty then none
    else
      let (significand, left) := takeDigits significand fraction
      let taken : Int := (fraction.length : Int) - left.length
      scientific? negative significand (dropped.length - taken) (rest.dropWhile isDigit)
  | 'e' :: _ => scientific? negative significand dropped.length rest
  | 'E' :: _ => scientific? negative significand dropped.length rest
  | rest =>
    if !dropped.isEmpty then scientific? negative significand dropped.length rest
    else if !negative then some (.int significand, rest)
    else if significand = 0 ∨ Nat.pow 2 63 < significand then
      scientific? negative significand 0 rest
    else some (.int (-(significand : Int)), rest)

mutual
/-- One value at the start of a text, blanks before it allowed. Every call takes a character or
leads to one that does, so twice the length of the text is fuel enough; `depth` bounds the
nesting that is left. -/
def value? : Nat → Nat → List Char → Option (Json × List Char)
  | 0, _, _ => none
  | fuel + 1, depth, cs =>
    match skipBlanks cs with
    | 'n' :: rest => (word? ['u', 'l', 'l'] rest).map (Json.null, ·)
    | 't' :: rest => (word? ['r', 'u', 'e'] rest).map (Json.bool true, ·)
    | 'f' :: rest => (word? ['a', 'l', 's', 'e'] rest).map (Json.bool false, ·)
    | '"' :: rest => (string? rest).map fun (s, rest) => (Json.string s, rest)
    | '-' :: rest => (number? true rest).map fun (n, rest) => (Json.number n, rest)
    | '[' :: rest =>
      if depth ≤ 1 then none
      else match skipBlanks rest with
        | ']' :: rest => some (.array [], rest)
        | rest => (items? fuel (depth - 1) rest).map fun (vs, rest) => (Json.array vs, rest)
    | '\x7b' :: rest =>
      if depth ≤ 1 then none
      else match skipBlanks rest with
        | '\x7d' :: rest => some (.object [], rest)
        | rest => (members? fuel (depth - 1) rest).map fun (ms, rest) => (Json.record ms, rest)
    | rest => (number? false rest).map fun (n, rest) => (Json.number n, rest)

/-- Items up to the closing bracket. -/
def items? : Nat → Nat → List Char → Option (List Json × List Char)
  | 0, _, _ => none
  | fuel + 1, depth, cs => do
    let (v, rest) ← value? fuel depth cs
    match skipBlanks rest with
    | ',' :: rest => (items? fuel depth rest).map fun (vs, rest) => (v :: vs, rest)
    | ']' :: rest => some ([v], rest)
    | _ => none

/-- Members up to the closing brace. -/
def members? : Nat → Nat → List Char → Option (List (String × Json) × List Char)
  | 0, _, _ => none
  | fuel + 1, depth, cs =>
    match skipBlanks cs with
    | '"' :: rest => do
      let (k, rest) ← string? rest
      match skipBlanks rest with
      | ':' :: rest => do
        let (v, rest) ← value? fuel depth rest
        match skipBlanks rest with
        | ',' :: rest => (members? fuel depth rest).map fun (ms, rest) => ((k, v) :: ms, rest)
        | '\x7d' :: rest => some ([(k, v)], rest)
        | _ => none
      | _ => none
    | _ => none
end

end Reader

/-- How deep values may nest, and one more. -/
def depthBound : Nat := 128

/-- Reads a text that holds one value and blanks around it. -/
def parseChars? (cs : List Char) : Option Json := do
  let (v, rest) ← Reader.value? (2 * cs.length + 2) depthBound cs
  if (Reader.skipBlanks rest).isEmpty then some v else none

def parse? (s : String) : Option Json := parseChars? s.toList

end LazyGraph.Json
