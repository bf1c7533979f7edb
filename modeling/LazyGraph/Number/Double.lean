/-!
Finite double-precision numbers as exact values `mantissa * 2 ^ exponent`, rounded from
fractions to the nearest, a tie to the even mantissa.
-/
namespace LazyGraph

/-- A finite double. The mantissa is below `2 ^ 53`; it is at least `2 ^ 52` unless the
exponent is the least one, `-1074`. -/
structure Double where
  negative : Bool
  mantissa : Nat
  exponent : Int
  deriving DecidableEq, Repr, Inhabited

namespace Double

def zero (negative : Bool) : Double := ⟨negative, 0, -1074⟩

/-- The quotient rounded to the nearest integer, a half to the even one. -/
def roundDiv (num den : Nat) : Nat :=
  let q := num / den
  let r := num % den
  if 2 * r < den then q
  else if den < 2 * r then q + 1
  else if q % 2 = 0 then q else q + 1

/-- Whether `num / den < 2 ^ k`. -/
def belowPower (num den : Nat) (k : Int) : Bool :=
  if 0 ≤ k then num < den * Nat.pow 2 k.toNat else num * Nat.pow 2 (-k).toNat < den

/-- The mantissa of `num / den` for the exponent `e`. -/
def mantissaAt (num den : Nat) (e : Int) : Nat :=
  if 0 ≤ e then roundDiv num (den * Nat.pow 2 e.toNat)
  else roundDiv (num * Nat.pow 2 (-e).toNat) den

/-- The double nearest to `num / den`, none where it would be infinite. -/
def ofRatio? (negative : Bool) (num den : Nat) : Option Double :=
  if num = 0 then some (zero negative)
  else
    let k : Int := (Nat.log2 num : Int) - (Nat.log2 den : Int)
    let e := max (if belowPower num den k then k - 53 else k - 52) (-1074)
    let m := mantissaAt num den e
    let rounded : Double :=
      if m = Nat.pow 2 53 then ⟨negative, Nat.pow 2 52, e + 1⟩ else ⟨negative, m, e⟩
    if 971 < rounded.exponent then none else some rounded

/-- The absolute value as a fraction. -/
def ratio (x : Double) : Nat × Nat :=
  if 0 ≤ x.exponent then (x.mantissa * Nat.pow 2 x.exponent.toNat, 1)
  else (x.mantissa, Nat.pow 2 (-x.exponent).toNat)

def isZero (x : Double) : Bool := x.mantissa == 0

/-- The two zeros are one number; all other numbers have one form. -/
def equal (x y : Double) : Bool := x == y || (x.isZero && y.isZero)

def mul? (x y : Double) : Option Double :=
  ofRatio? (x.negative != y.negative) (x.ratio.1 * y.ratio.1) (x.ratio.2 * y.ratio.2)

def div? (x y : Double) : Option Double :=
  ofRatio? (x.negative != y.negative) (x.ratio.1 * y.ratio.2) (x.ratio.2 * y.ratio.1)

/-- The greatest exponent of ten that is a double. -/
def greatestPower : Nat := 308

/-- Scales by a power of ten. Powers beyond the greatest are divided off in steps of it, which
`rounds` bounds: after three steps nothing but zero is left. -/
def scaleTen? (rounds : Nat) (x : Double) (power : Int) : Option Double :=
  if power.natAbs ≤ greatestPower then do
    let ten ← ofRatio? false (Nat.pow 10 power.natAbs) 1
    if 0 ≤ power then x.mul? ten else x.div? ten
  else if x.isZero then some x
  else if 0 ≤ power then none
  else match rounds with
    | 0 => some (zero x.negative)
    | rounds + 1 => do
      let x ← x.div? (← ofRatio? false (Nat.pow 10 greatestPower) 1)
      scaleTen? rounds x (power + greatestPower)

/-- Reads `digits * 10 ^ power` in two roundings: the digits to a double, then the double
scaled by the power of ten. None where the number is too great. -/
def ofDecimal? (negative : Bool) (digits : Nat) (power : Int) : Option Double := do
  let x ← ofRatio? negative digits 1
  scaleTen? 4 x power

/-! Numbers written with a fixed number of places after the point. -/

/-- The digits of a number with zeros in front up to a width. -/
def padded (width n : Nat) : List Char :=
  let digits := Nat.toDigits 10 n
  List.replicate (width - digits.length) '0' ++ digits

/-- The value to the nearest multiple of `10 ^ -places`, a half to the even one. -/
def fixed (x : Double) (places : Nat) : String :=
  let scaled := roundDiv (x.ratio.1 * Nat.pow 10 places) x.ratio.2
  let sign := if x.negative then "-" else ""
  let digits := padded places (scaled % Nat.pow 10 places)
  let point := if places = 0 then "" else "." ++ String.ofList digits
  sign ++ toString (scaled / Nat.pow 10 places) ++ point

end Double
end LazyGraph
