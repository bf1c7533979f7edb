import LazyGraph.Text
import LazyGraph.Toml.Quoted

/-!
Numbers, truth values and dates of TOML.

An integer fits a signed word of 64 bits. Infinities and the values that are no numbers stand for
no setting; they are read as the double zero. A date is a value of its own kind; it is read as an
object with one member, which holds its normal text.
-/
namespace LazyGraph.Toml

open LazyGraph.Text (isDigit)

/-! Numbers. -/

/-- Digits with single underscores between some of them. -/
def digits? (p : Char → Bool) (cs : List Char) : Option (List Char) :=
  let runs := Text.pieces '_' cs
  if runs.all fun run => !run.isEmpty && run.all p then some runs.flatten else none

/-- The value of digits to a base. -/
def ofDigits (base : Nat) (cs : List Char) : Nat :=
  cs.foldl (fun n c => base * n + (Json.Reader.hexValue? c).getD 0) 0

/-- Decimal digits without a zero before others. -/
def decimal? (cs : List Char) : Option (List Char) :=
  match digits? isDigit cs with
  | some ('0' :: _ :: _) => none
  | ds => ds

/-- The sign of a number, and the rest. -/
def signed (cs : List Char) : Bool × List Char :=
  match cs with
  | '+' :: rest => (false, rest)
  | '-' :: rest => (true, rest)
  | rest => (false, rest)

/-- An integer of 64 bits. -/
def word? (negative : Bool) (n : Nat) : Option Json :=
  if negative then if n ≤ Nat.pow 2 63 then some (.int (-(n : Int))) else none
  else if n < Nat.pow 2 63 then some (.int n) else none

def integer? (cs : List Char) : Option Json :=
  let radix (base : Nat) (p : Char → Bool) (cs : List Char) : Option Json :=
    (digits? p cs).bind fun ds => word? false (ofDigits base ds)
  match cs with
  | '0' :: 'x' :: rest => radix 16 (fun c => (Json.Reader.hexValue? c).isSome) rest
  | '0' :: 'o' :: rest => radix 8 (fun c => isDigit c && c < '8') rest
  | '0' :: 'b' :: rest => radix 2 (fun c => c == '0' || c == '1') rest
  | cs =>
    let (negative, cs) := signed cs
    (decimal? cs).bind fun ds => word? negative (ofDigits 10 ds)

def isExponentMark (c : Char) : Bool := c == 'e' || c == 'E'

/-- The digits after the point, if there is one. -/
def fraction? (cs : List Char) : Option (List Char × List Char) :=
  match cs with
  | '.' :: cs =>
    (digits? isDigit (cs.takeWhile (!isExponentMark ·))).map
      (·, cs.dropWhile (!isExponentMark ·))
  | cs => some ([], cs)

/-- The exponent after its mark, if there is one. -/
def exponent? (cs : List Char) : Option Int :=
  match cs with
  | [] => some 0
  | _ :: cs =>
    let (negative, cs) := signed cs
    (digits? isDigit cs).map fun ds =>
      let n : Nat := Text.digitsValue ds
      if negative then -(n : Int) else n

/-- A number that stands for no setting. -/
def idle (negative : Bool) : Json := .number (.double (.zero negative))

/-- A bound on the powers of ten that doubles reach. -/
def powerBound : Nat := 400

/-- The double nearest to a decimal. A number that is too great is none, unless it is negative:
then it is read like an infinity. -/
def double? (negative : Bool) (digits : List Char) (power : Int) : Option Json :=
  let n := Text.digitsValue digits
  let infinite := if negative then some (idle true) else none
  if n = 0 || power + digits.length < -powerBound then some (idle negative)
  else if powerBound < power then infinite
  else
    let x := if 0 ≤ power then Double.ofRatio? negative (n * Nat.pow 10 power.toNat) 1
      else Double.ofRatio? negative n (Nat.pow 10 (-power).toNat)
    match x with
    | some x => some (.number (.double x))
    | none => infinite

/-- A number with a point or an exponent, or one of the words for the others. -/
def float? (cs : List Char) : Option Json :=
  let (negative, cs) := signed cs
  if cs = ['i', 'n', 'f'] || cs = ['n', 'a', 'n'] then
    some (idle negative)
  else do
    let ends (c : Char) : Bool := c == '.' || isExponentMark c
    let whole ← decimal? (cs.takeWhile (!ends ·))
    let rest := cs.dropWhile (!ends ·)
    let (fraction, mark) ← fraction? rest
    let exponent ← exponent? mark
    if rest.isEmpty then none
    else double? negative (whole ++ fraction) (exponent - fraction.length)

/-! Dates and times. -/

/-- So many decimal digits. -/
def fixedDigits? (count : Nat) (cs : List Char) : Option (Nat × List Char) :=
  let ds := cs.take count
  if ds.length = count && ds.all isDigit then some (Text.digitsValue ds, cs.drop count) else none

/-- Two digits within a range. -/
def pairIn? (least greatest : Nat) (cs : List Char) : Option (Nat × List Char) :=
  (fixedDigits? 2 cs).filter fun (n, _) => least ≤ n && n ≤ greatest

def isLeapYear (year : Nat) : Bool := year % 4 = 0 && (year % 100 ≠ 0 || year % 400 = 0)

def daysIn (year month : Nat) : Nat :=
  if month = 2 then if isLeapYear year then 29 else 28
  else if month = 4 || month = 6 || month = 9 || month = 11 then 30
  else 31

/-- The rest after a character. -/
def mark? (c : Char) : List Char → Option (List Char)
  | d :: rest => if d = c then some rest else none
  | [] => none

/-- A day that the calendar has, and the rest. -/
def date? (cs : List Char) : Option (List Char × List Char) := do
  let (year, rest) ← fixedDigits? 4 cs
  let (month, rest) ← pairIn? 1 12 (← mark? '-' rest)
  let (_, rest) ← pairIn? 1 (daysIn year month) (← mark? '-' rest)
  some (cs.take 10, rest)

/-- The digits of a fraction of a second that count: nine at most, and no zeros at the end. -/
def normalFraction (ds : List Char) : List Char :=
  let kept := ((ds.take 9).reverse.dropWhile (· == '0')).reverse
  if kept.isEmpty then [] else '.' :: kept

/-- A time of day in its normal text, and the rest. -/
def time? (cs : List Char) : Option (List Char × List Char) := do
  let (_, rest) ← pairIn? 0 23 cs
  let (_, rest) ← pairIn? 0 59 (← mark? ':' rest)
  let (_, rest) ← pairIn? 0 60 (← mark? ':' rest)
  match rest with
  | '.' :: ds =>
    let fraction := ds.takeWhile isDigit
    if fraction.isEmpty then none
    else some (cs.take 8 ++ normalFraction fraction, ds.dropWhile isDigit)
  | rest => some (cs.take 8, rest)

/-- A difference to universal time after its sign. -/
def offsetAfter? (sign : Char) (cs : List Char) : Option (List Char × List Char) := do
  let (hours, rest) ← pairIn? 0 23 cs
  let (minutes, rest) ← pairIn? 0 59 (← mark? ':' rest)
  some ((if hours = 0 && minutes = 0 then '+' else sign) :: cs.take 5, rest)

/-- A difference to universal time; there may be none. -/
def offset? (cs : List Char) : Option (List Char × List Char) :=
  match cs with
  | 'Z' :: rest => some (['Z'], rest)
  | 'z' :: rest => some (['Z'], rest)
  | '+' :: rest => offsetAfter? '+' rest
  | '-' :: rest => offsetAfter? '-' rest
  | rest => some ([], rest)

/-- What follows a day: a time with or without a difference, or nothing. -/
def timeAfter? (cs : List Char) : Option (List Char × List Char) :=
  match cs with
  | mark :: rest =>
    if mark = 'T' || mark = 't' || mark = ' ' then
      match time? rest with
      | some (time, rest) => (offset? rest).map fun (offset, rest) => ('T' :: time ++ offset, rest)
      | none => if mark = ' ' then some ([], cs) else none
    else some ([], cs)
  | [] => some ([], [])

/-- The member that holds the text of a date. -/
def dateKey : String := "$__toml_private_datetime"

/-- A day, a time of day, or both. -/
def moment? (cs : List Char) : Option (Json × List Char) :=
  let found : Option (List Char × List Char) := match date? cs with
    | some (day, rest) => (timeAfter? rest).map fun (time, rest) => (day ++ time, rest)
    | none => time? cs
  found.map fun (text, rest) => (.object [(dateKey, .string (String.ofList text))], rest)

/-! Words. -/

/-- The characters of numbers and words. -/
def isWordChar (c : Char) : Bool := c.isAlphanum || c == '_' || c == '.' || c == '+' || c == '-'

/-- A number, a truth value or a date. -/
def scalarValue? (cs : List Char) : Option (Json × List Char) :=
  match moment? cs with
  | some found => some found
  | none =>
    let w := cs.takeWhile isWordChar
    let v :=
      if w = ['t', 'r', 'u', 'e'] then some (.bool true)
      else if w = ['f', 'a', 'l', 's', 'e'] then some (.bool false)
      else match integer? w with
        | some v => some v
        | none => float? w
    v.map (·, cs.dropWhile isWordChar)

end LazyGraph.Toml
