/-!
Binary floating-point numbers of 64 bits, held exactly. A finite number is a signed mantissa times a
power of two in the one form the format admits: the exponent is at least -1074, the mantissa is
below `2^53`, and it is at least `2^52` unless the exponent is -1074.
-/
namespace TermAlgebra

/-- The stamp tells one datum that is not a number from another; as numbers none of them is equal
to anything. All those read from documents are one datum, with stamp 0. -/
inductive Binary64 where
  | finite (negative : Bool) (mantissa : Nat) (exponent : Int)
  | infinite (negative : Bool)
  | nan (stamp : Nat)
deriving DecidableEq, Repr

namespace Binary64

def twoTo (power : Nat) : Nat := Nat.pow 2 power

def tenTo (power : Nat) : Nat := Nat.pow 10 power

def leastExponent : Int := -1074
def greatestExponent : Int := 971

def signed (negative : Bool) (magnitude : Nat) : Int := if negative then -magnitude else magnitude

def zero (negative : Bool) : Binary64 := .finite negative 0 leastExponent

/-- The nearest integer to a quotient; a half goes to the even neighbour. -/
def nearestQuotient (numerator denominator : Nat) : Nat :=
  let quotient := numerator / denominator
  let twice := 2 * (numerator % denominator)
  if twice < denominator then quotient
  else if twice > denominator then quotient + 1
  else quotient + quotient % 2

/-- A quotient divided by a power of two, again as a quotient. -/
def scaleDown (numerator denominator : Nat) (exponent : Int) : Nat × Nat :=
  (numerator * twoTo (-exponent).toNat, denominator * twoTo exponent.toNat)

/-- The exponent under which a positive quotient has a mantissa of 53 bits, or the least one. -/
def exponentFor (numerator denominator : Nat) : Int :=
  let low : Int := (numerator.log2 : Int) - (denominator.log2 : Int) - 53
  let (scaled, unit) := scaleDown numerator denominator low
  max leastExponent (if scaled / unit < twoTo 53 then low else low + 1)

/-- The number nearest to a positive quotient. A mantissa that is rounded up to `2^53` moves to the
next exponent. -/
def ofQuotient (negative : Bool) (numerator denominator : Nat) : Binary64 :=
  let exponent := exponentFor numerator denominator
  let (scaled, unit) := scaleDown numerator denominator exponent
  let rounded := nearestQuotient scaled unit
  let (mantissa, exponent) :=
    if rounded = twoTo 53 then (twoTo 52, exponent + 1) else (rounded, exponent)
  if exponent > greatestExponent then .infinite negative else .finite negative mantissa exponent

/-- The number nearest to `coefficient * 10^exponent`. Beyond the format's range the power of ten is
not computed. -/
def ofDecimal (negative : Bool) (coefficient : Nat) (exponent : Int) : Binary64 :=
  let digits : Int := (Nat.toDigits 10 coefficient).length
  if coefficient = 0 ∨ digits + exponent < -330 then zero negative
  else if digits + exponent > 310 then .infinite negative
  else ofQuotient negative (coefficient * tenTo exponent.toNat) (tenTo (-exponent).toNat)

end Binary64
end TermAlgebra
