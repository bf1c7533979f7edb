/-!
Texts: blank characters, decimal numerals, the pieces between separators, and the search of one text
in another.
-/
namespace LazyGraph.Text

/-! Blanks. -/

/-- The characters that have the property White_Space. -/
def isBlank (c : Char) : Bool :=
  let n := c.toNat
  (9 ≤ n && n ≤ 13) || n == 0x20 || n == 0x85 || n == 0xA0 || n == 0x1680 ||
  (0x2000 ≤ n && n ≤ 0x200A) || n == 0x2028 || n == 0x2029 || n == 0x202F || n == 0x205F ||
  n == 0x3000

/-- The characters left when those for which `p` holds are taken from both ends. -/
def stripBoth (p : Char → Bool) (cs : List Char) : List Char :=
  ((cs.dropWhile p).reverse.dropWhile p).reverse

/-- A text without the blanks at its ends. -/
def trim (s : String) : String :=
  String.ofList (stripBoth isBlank s.toList)

/-! Numerals. -/

/-- The ASCII decimal digits; no other digit of any script is one. -/
def isDigit (c : Char) : Bool := '0' ≤ c && c ≤ '9'

def digitValue (c : Char) : Nat := c.toNat - '0'.toNat

/-- The value of a run of digits, leading zeros allowed. -/
def digitsValue (cs : List Char) : Nat :=
  cs.foldl (fun n c => 10 * n + digitValue c) 0

/-- Reads a nonempty run of digits that fills the whole text. -/
def natural? (cs : List Char) : Option Nat :=
  if cs.isEmpty || !cs.all isDigit then none else some (digitsValue cs)

/-- Positions are below two to the sixty-fourth. -/
def indexBound : Nat := Nat.pow 2 64

/-- Reads a list position: digits after at most one plus sign. -/
def index? (s : String) : Option Nat :=
  let cs := match s.toList with
    | '+' :: rest => rest
    | rest => rest
  (natural? cs).filter (· < indexBound)

/-! Pieces. -/

/-- The pieces between the occurrences of `sep`; a text without any is one piece. -/
def pieces (sep : Char) : List Char → List (List Char)
  | [] => [[]]
  | c :: cs =>
    if c = sep then [] :: pieces sep cs
    else match pieces sep cs with
      | [] => [[c]]
      | p :: ps => (c :: p) :: ps

/-- The segments of a dotted text. -/
def segments (s : String) : List String :=
  (pieces '.' s.toList).map String.ofList

/-- Segments written with dots between them. -/
def dotted (parts : List String) : String :=
  ".".intercalate parts

/-- Whether `needle` stands at some place of `text`. -/
def occursIn (needle text : List Char) : Bool :=
  match text with
  | [] => needle.isEmpty
  | c :: cs => needle.isPrefixOf (c :: cs) || occursIn needle cs

end LazyGraph.Text
