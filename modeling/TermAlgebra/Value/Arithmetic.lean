import TermAlgebra.Failure
import TermAlgebra.Number.Arithmetic

/-!
Sums and products of data. Truth values count as the integers 0 and 1, and an integer beside a
floating-point number is taken for the nearest one. Texts, lists and tuples are added by joining
them, and multiplied by an integer by repeating them; what comes out of texts is a plain text.
-/
namespace TermAlgebra.Value

/-- Truth values count as the integers 0 and 1. -/
def integer? : Value → Option Int
  | .bool b => some (if b then 1 else 0)
  | .int n => some n
  | _ => none

def nearest (value : Value) : Except Failure Binary64 :=
  match value.integer? with
  | none => .error .badCall
  | some n =>
      match Binary64.ofInt? n with
      | some x => .ok x
      | none => .error .numberTooLarge

/-- Combines two numbers: exactly if both are integers, in floating point otherwise. -/
def combineNumbers (exact : Int → Int → Int) (rounded : Binary64 → Binary64 → Binary64) :
    Value → Value → Except Failure Value
  | .float x, .float y => .ok (.float (rounded x y))
  | .float x, b => do return .float (rounded x (← b.nearest))
  | a, .float y => do return .float (rounded (← a.nearest) y)
  | a, b =>
      match a.integer?, b.integer? with
      | some m, some n => .ok (.int (exact m n))
      | _, _ => .error .badCall

def add : Value → Value → Except Failure Value
  | .text a _, .text b _ => .ok (.str (a ++ b))
  | .list a, .list b => .ok (.list (a ++ b))
  | .tuple a, .tuple b => .ok (.tuple (a ++ b))
  | a, b => combineNumbers (· + ·) Binary64.add a b

/-- Sizes and counts are below this number. -/
def sizeLimit : Nat := Binary64.twoTo 63

/-- More elements than this are not stored. -/
def storageLimit : Nat := Binary64.twoTo 32

def checkStored (size : Nat) : Except Failure Unit :=
  if size > storageLimit then .error .outOfMemory else .ok ()

/-- Fails for a size that cannot be counted, or whose elements cannot be stored. -/
def checkSize (size : Nat) : Except Failure Unit :=
  if size ≥ sizeLimit then .error .numberTooLarge else checkStored size

/-- How often something of a size stands in its product with an integer: never, if the integer is
negative or the size zero. -/
def repetitions (size : Nat) (n : Int) : Except Failure Nat :=
  if n < -sizeLimit ∨ n ≥ sizeLimit then .error .numberTooLarge
  else .ok (if size = 0 then 0 else n.toNat)

def repeatItems (items : List Value) (n : Int) : Except Failure (List Value) := do
  let times ← repetitions items.length n
  checkStored (items.length * times)
  return (List.replicate times items).flatten

/-- A text so many times in a row, put together from halves. -/
def textPower (characters : String) (times : Nat) : String :=
  if _ : times = 0 then ""
  else
    let half := textPower characters (times / 2)
    if times % 2 = 0 then half ++ half else half ++ half ++ characters
termination_by times
decreasing_by omega

def repeatText (characters : String) (n : Int) : Except Failure String := do
  let times ← repetitions characters.length n
  checkSize (characters.length * times)
  return textPower characters times

/-- A text, list or tuple repeated; nothing for other data. -/
def repeated? (value : Value) (n : Int) : Option (Except Failure Value) :=
  match value with
  | .text characters _ => some ((repeatText characters n).map .str)
  | .list items => some ((repeatItems items n).map .list)
  | .tuple items => some ((repeatItems items n).map .tuple)
  | _ => none

def mul (a b : Value) : Except Failure Value :=
  ((a.integer?.bind b.repeated?).orElse fun _ => b.integer?.bind a.repeated?).getD
    (combineNumbers (· * ·) Binary64.mul a b)

end TermAlgebra.Value
