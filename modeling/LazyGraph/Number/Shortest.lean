import LazyGraph.Number.Double

/-!
The shortest decimal that reads back as a given double, and the text of a double.

Of the decimals with the fewest digits inside the interval of reals that round to the double,
the nearest to it is taken, and of two equally near the one with an even last digit.
-/
namespace LazyGraph.Double

/-- A decimal `digits * 10 ^ power`. -/
structure Decimal where
  digits : Nat
  power : Int
  deriving DecidableEq, Repr

/-- Four times the ends of the interval that rounds to `m * 2 ^ e`, as multiples of `2 ^ e`.
The lower end is nearer where the doubles below are twice as dense. -/
def quarterEnds (m : Nat) (e : Int) : Nat × Nat :=
  (if m = Nat.pow 2 52 ∧ -1074 < e then 4 * m - 1 else 4 * m - 2, 4 * m + 2)

/-- A comparison of multiples of `2 ^ (e - 2)` with multiples of `10 ^ q` in integers:
`x * 2 ^ (e - 2)` against `d * 10 ^ q` is `x * (weights e q).1` against `d * (weights e q).2`. -/
def weights (e q : Int) : Nat × Nat :=
  let e := e - 2
  ((if 0 ≤ e then Nat.pow 2 e.toNat else 1) * (if 0 ≤ q then 1 else Nat.pow 10 (-q).toNat),
   (if 0 ≤ e then 1 else Nat.pow 2 (-e).toNat) * (if 0 ≤ q then Nat.pow 10 q.toNat else 1))

/-- The decimal of step `10 ^ q` that stands for `m * 2 ^ e`, if one lies in its interval. -/
def onGrid? (m : Nat) (e q : Int) : Option Nat :=
  let (a, b) := weights e q
  let (low, high) := quarterEnds m e
  let inside (d : Nat) : Bool :=
    if m % 2 = 0 then low * a ≤ d * b && d * b ≤ high * a else low * a < d * b && d * b < high * a
  let d := 4 * m * a / b
  let below := 4 * m * a - d * b
  let above := (d + 1) * b - 4 * m * a
  match inside d, inside (d + 1) with
  | true, true =>
    if below < above then some d else if above < below then some (d + 1)
    else if d % 2 = 0 then some d else some (d + 1)
  | true, false => some d
  | false, true => some (d + 1)
  | false, false => none

/-- Whether `10 ^ p ≤ m * 2 ^ e`. -/
def reachesPower (m : Nat) (e p : Int) : Bool :=
  let (a, b) := weights e p
  b ≤ 4 * m * a

/-- The power of ten of the leading digit: an estimate from the bit length, put right by one. -/
def leadingPower (m : Nat) (e : Int) : Int :=
  let guess := Int.fdiv (((Nat.log2 m : Int) + e) * 30103) 100000
  if reachesPower m e (guess + 1) then guess + 1
  else if reachesPower m e guess then guess else guess - 1

/-- Decimal without zeros at its end. -/
def stripZeros : Nat → Nat → Int → Decimal
  | 0, d, q => ⟨d, q⟩
  | n + 1, d, q => if d % 10 = 0 ∧ d ≠ 0 then stripZeros n (d / 10) (q + 1) else ⟨d, q⟩

/-- Searches the grids of `n`, `n + 1`, … digits; seventeen digits always suffice. -/
def shortestFrom (m : Nat) (e p : Int) : Nat → Int → Decimal
  | 0, q => ⟨4 * m * (weights e q).1 / (weights e q).2, q⟩
  | more + 1, q =>
    match onGrid? m e q with
    | some d => stripZeros 20 d q
    | none => shortestFrom m e p more (q - 1)

/-- The shortest decimal of a positive double. -/
def shortest (x : Double) : Decimal :=
  let p := leadingPower x.mantissa x.exponent
  shortestFrom x.mantissa x.exponent p 17 p

/-- Zero and magnitudes from `10 ^ -5` to below `10 ^ 16` are positional with at least one digit
on both sides of the point; all others are `d.ddde+N` or `d.ddde-N`. -/
def text (x : Double) : String :=
  let sign := if x.negative then "-" else ""
  if x.isZero then sign ++ "0.0"
  else
    let d := x.shortest
    let digits := Nat.toDigits 10 d.digits
    let p : Int := d.power + (digits.length : Int) - 1
    let zeros (n : Int) : List Char := List.replicate n.toNat '0'
    let chars : List Char :=
      if -5 ≤ p ∧ p < 0 then '0' :: '.' :: (zeros (-p - 1) ++ digits)
      else if 0 ≤ p ∧ p < 16 then
        if 0 ≤ d.power then digits ++ zeros d.power ++ ['.', '0']
        else digits.take (p + 1).toNat ++ '.' :: digits.drop (p + 1).toNat
      else
        let point := match digits with
          | [] => []
          | [c] => [c]
          | c :: rest => c :: '.' :: rest
        point ++ 'e' :: (if p < 0 then '-' else '+') :: Nat.toDigits 10 p.natAbs
    sign ++ String.ofList chars

end LazyGraph.Double
