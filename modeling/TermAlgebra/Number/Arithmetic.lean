import TermAlgebra.Number.Binary64

/-!
Sums and products of floating-point numbers: the exact result is rounded once to the nearest number,
and beyond the range to an infinity. Both operations commute.
-/
namespace TermAlgebra.Binary64

/-- What a sum or product comes to that has no value, such as the sum of an infinity and its
opposite. -/
def undefined : Binary64 := .nan 0

/-- The number nearest to `significand * 2^exponent`. A zero takes the sign that is given. -/
def ofScaled (negativeZero : Bool) (significand exponent : Int) : Binary64 :=
  if significand = 0 then zero negativeZero
  else ofQuotient (significand < 0) (significand.natAbs * twoTo exponent.toNat)
    (twoTo (-exponent).toNat)

/-- The number nearest to an integer, unless that is an infinity. -/
def ofInt? (n : Int) : Option Binary64 :=
  match ofScaled false n 0 with
  | .infinite _ => none
  | x => some x

/-- A sum of zero is positive, except that of two negative zeros. -/
def addFinite (negative : Bool) (mantissa : Nat) (exponent : Int)
    (negative' : Bool) (mantissa' : Nat) (exponent' : Int) : Binary64 :=
  let shared := min exponent exponent'
  ofScaled (negative && negative')
    (signed negative mantissa * twoTo (exponent - shared).toNat +
      signed negative' mantissa' * twoTo (exponent' - shared).toNat) shared

def add : Binary64 → Binary64 → Binary64
  | .finite negative mantissa exponent, .finite negative' mantissa' exponent' =>
      addFinite negative mantissa exponent negative' mantissa' exponent'
  | .infinite negative, .infinite negative' =>
      if negative = negative' then .infinite negative else undefined
  | .infinite negative, .finite .. => .infinite negative
  | .finite .., .infinite negative => .infinite negative
  | _, _ => undefined

def mul : Binary64 → Binary64 → Binary64
  | .finite negative mantissa exponent, .finite negative' mantissa' exponent' =>
      ofScaled (negative ^^ negative') (signed negative mantissa * signed negative' mantissa')
        (exponent + exponent')
  | .infinite negative, .infinite negative' => .infinite (negative ^^ negative')
  | .infinite negative, .finite negative' mantissa _ =>
      if mantissa = 0 then undefined else .infinite (negative ^^ negative')
  | .finite negative mantissa _, .infinite negative' =>
      if mantissa = 0 then undefined else .infinite (negative ^^ negative')
  | _, _ => undefined

theorem add_comm (x y : Binary64) : x.add y = y.add x := by
  cases x <;> cases y <;> simp only [add]
  · rename_i negative mantissa exponent negative' mantissa' exponent'
    simp only [addFinite, Bool.and_comm negative negative', Int.min_comm exponent exponent']
    rw [Int.add_comm]
  · rename_i negative negative'
    cases negative <;> cases negative' <;> rfl

theorem mul_comm (x y : Binary64) : x.mul y = y.mul x := by
  cases x <;> cases y <;> simp only [mul, Bool.xor_comm]
  · rename_i negative mantissa exponent negative' mantissa' exponent'
    rw [Int.mul_comm, Int.add_comm]

end TermAlgebra.Binary64
