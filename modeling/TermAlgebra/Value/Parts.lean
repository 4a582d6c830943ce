import TermAlgebra.Failure

/-!
The parts of an expression that are read off it: its first and last argument, the datum that a
generator wraps, and the name under which the expression is rebuilt.
-/
namespace TermAlgebra

/-- The name under which a node is rebuilt; a generator goes by its type. -/
def constructorName (head sort : String) : String := if head = generatorHead then sort else head

namespace Value

def first : Value → Except Failure Value
  | .expr _ (value :: _) _ _ => .ok value
  | .expr _ [] _ _ => .error .missingArgument
  | _ => .error .notExpression

def last : Value → Except Failure Value
  | .expr _ args _ _ =>
      match args.getLast? with
      | some value => .ok value
      | none => .error .missingArgument
  | _ => .error .notExpression

/-- The datum that a generator wraps. -/
def datum (value : Value) : Except Failure Value :=
  match value with
  | .expr head _ _ _ => if head = generatorHead then value.first else .error (.notGenerator head)
  | _ => .error .notExpression

/-- The text of any value, as an operation that can fail. -/
def shown (value : Value) : Except Failure String :=
  match value.str? with
  | some characters => .ok characters
  | none => .error .missingArgument

/-- The text of the datum that a generator wraps; nothing if it wraps nothing. -/
def label (value : Value) : Except Failure Value := do
  match ← value.datum with
  | .null => return .null
  | datum => return .str (← datum.shown)

end Value
end TermAlgebra
