import TermAlgebra.Number.Binary64

/-!
The decimal text of a floating-point number: the fewest digits that read back, and of those the
digits nearest to the number. Leading exponents from -4 to 15 are written positionally.
-/
namespace TermAlgebra.Binary64

/-- The numbers that read back as `mantissa * 2^exponent`, in units of `2^(exponent - 2)`. Below a
power of two the neighbour is twice as near. -/
def readBackInterval (mantissa : Nat) (exponent : Int) : Nat × Nat :=
  (if mantissa = twoTo 52 ∧ exponent > leastExponent then 4 * mantissa - 1 else 4 * mantissa - 2,
    4 * mantissa + 2)

/-- The greatest `k` with `10^k` at most `mantissa * 2^exponent`. The estimate from the binary
logarithm is off by one at most. -/
def leadingExponent (mantissa : Nat) (exponent : Int) : Int :=
  let numerator := mantissa * twoTo exponent.toNat
  let denominator := twoTo (-exponent).toNat
  let atMost (k : Int) : Bool :=
    tenTo k.toNat * denominator ≤ numerator * tenTo (-k).toNat
  let guess := (((mantissa.log2 : Int) + exponent) * 30103).fdiv 100000
  if atMost (guess + 1) then guess + 1 else if atMost guess then guess else guess - 1

/-- `mantissa * 2^exponent` over `10^place`, as a quotient in quarters of the mantissa's unit. -/
def gridScale (exponent place : Int) : Nat × Nat :=
  (twoTo (exponent - 2).toNat * tenTo (-place).toNat,
    twoTo (2 - exponent).toNat * tenTo place.toNat)

/-- The point of the grid `10^place` that reads back as the number, if there is one: of two, the
nearer, and of two equally near the even one. -/
def onGrid? (mantissa : Nat) (exponent place : Int) : Option Nat :=
  let (low, high) := readBackInterval mantissa exponent
  let (factor, unit) := gridScale exponent place
  let readsBack (point : Nat) : Bool :=
    if mantissa % 2 = 0 then low * factor ≤ point * unit ∧ point * unit ≤ high * factor
    else low * factor < point * unit ∧ point * unit < high * factor
  let scaled := 4 * mantissa * factor
  let below := scaled / unit
  match readsBack below, readsBack (below + 1) with
  | false, false => none
  | true, false => some below
  | false, true => some (below + 1)
  | true, true => some (nearestQuotient scaled unit)

/-- A coefficient and its place: the coarsest grid with a point that reads back. Seventeen digits
always do. -/
def shortestDecimal (mantissa : Nat) (exponent : Int) : Nat × Int :=
  let leading := leadingExponent mantissa exponent
  let found := (List.range 16).findSome? fun (count : Nat) =>
    (onGrid? mantissa exponent (leading - count)).map (·, leading - count)
  found.getD <|
    let (factor, unit) := gridScale exponent (leading - 16)
    (nearestQuotient (4 * mantissa * factor) unit, leading - 16)

def leastPositional : Int := -4
def positionalBound : Int := 16

/-- An exponent has a sign and two digits at least. -/
def exponentText (exponent : Int) : List Char :=
  let digits := Nat.toDigits 10 exponent.natAbs
  (if exponent < 0 then '-' else '+') :: if digits.length < 2 then '0' :: digits else digits

/-- The point stands after the digit of the units, with a digit on either side. -/
def positional (digits : List Char) (leading : Int) : List Char :=
  if leading < 0 then '0' :: '.' :: List.replicate (-leading - 1).toNat '0' ++ digits
  else
    let width := leading.toNat + 1
    let whole := digits.take width
    let fraction := digits.drop width
    whole ++ List.replicate (width - whole.length) '0' ++ '.' ::
      if fraction.isEmpty then ['0'] else fraction

def scientific (digits : List Char) (leading : Int) : List Char :=
  let fraction := digits.drop 1
  digits.take 1 ++ (if fraction.isEmpty then [] else '.' :: fraction) ++ 'e' :: exponentText leading

def magnitudeText (mantissa : Nat) (exponent : Int) : List Char :=
  if mantissa = 0 then ['0', '.', '0']
  else
    let (coefficient, place) := shortestDecimal mantissa exponent
    let written := Nat.toDigits 10 coefficient
    let leading := place + written.length - 1
    let digits := (written.reverse.dropWhile (· = '0')).reverse
    if leastPositional ≤ leading ∧ leading < positionalBound then positional digits leading
    else scientific digits leading

def text : Binary64 → String
  | .finite negative mantissa exponent =>
      String.ofList ((if negative then ['-'] else []) ++ magnitudeText mantissa exponent)
  | .infinite negative => if negative then "-inf" else "inf"
  | .nan _ => "nan"

end TermAlgebra.Binary64
