import TermAlgebra.Algebra.Basic
import TermAlgebra.Json.Writer
import TermAlgebra.SExpr.Encode

/-!
Rebuilding an expression from an S-expression in an algebra. The first argument of a list is a raw
datum rather than a nested expression if the list's head is a type constructor with as many
parameters as other arguments follow; and nothing, truth values and numbers are raw data
everywhere. A text in the place of an expression is a reference.
-/
namespace TermAlgebra.SExpr

/-- How heads, references and data are taken. With `symbols`, texts are read as names. -/
structure Reading where
  head : String → String := id
  reference : Value → Except Failure Value := fun name =>
    .error (.disabledReference (name.str?.getD ""))
  datum : Value → Value := id
  symbols : Bool := true

namespace Reading

variable (reading : Reading)

/-- A text as the reading takes it. -/
def symbol : Value → Value
  | .text characters symbolic => .text characters (symbolic || reading.symbols)
  | value => value

def rawDatum (value : Value) : Value := reading.datum (reading.symbol value)

end Reading

/-- Data that are never expressions or references. -/
def isScalar : Value → Bool
  | .null => true
  | .bool _ => true
  | .int _ => true
  | .float _ => true
  | _ => false

/-- Whether a list with the head and so many arguments begins with a raw datum. -/
def wrapsDatum (theory : Theory) (head : String) (argCount : Nat) : Bool :=
  match theory.arity? head with
  | some arity => arity + 1 = argCount
  | none => false

variable (algebra : Algebra) (reading : Reading)

mutual

def decode : Value → Outcome Value
  | .text characters symbolic =>
      .ofExcept (reading.reference (reading.symbol (.text characters symbolic)))
  | .list (head :: args) => do
      let written ← .ofExcept head.shown
      let name := reading.head written
      let values ← decodeAll (wrapsDatum algebra.theory name args.length) args
      algebra.call name values
  | value => .fail (.expectedList value)

/-- The arguments of a list; the first may be a raw datum by its place. -/
def decodeAll (rawFirst : Bool) : List Value → Outcome (List Value)
  | [] => pure []
  | item :: rest => do
      let value ← if rawFirst || isScalar item then pure (reading.rawDatum item) else decode item
      let values ← decodeAll false rest
      pure (value :: values)

end

/-- Reads a JSON document and rebuilds the expression in it. -/
def load (document : String) : Outcome Value :=
  match Json.read document with
  | .error error => .fail (.unreadable error)
  | .ok value => decode algebra reading value

/-- The JSON document of an S-expression. -/
def write (sexpr : Value) : Except Failure String :=
  match Json.write? sexpr with
  | some document => .ok document
  | none => .error .noWrittenForm

end TermAlgebra.SExpr
