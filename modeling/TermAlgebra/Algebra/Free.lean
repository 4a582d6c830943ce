import TermAlgebra.Algebra.Calculus
import TermAlgebra.Theory.Standard

/-!
The free calculi of the standard theories, in which the unit laws are applied as expressions are
built: composition with an identity is the other morphism, and the tensor product of an object
with the monoidal unit is the object.
-/
namespace TermAlgebra

/-- The head and the sort of an expression. -/
def Value.form (value : Value) : Except Failure (String × String) :=
  match value with
  | .expr head _ _ sort => .ok (head, sort)
  | _ => .error .notExpression

namespace Free

def composeUnits : Override := fun workshop args strict =>
  match args with
  | [f, g] => do
      let composite ← workshop.build "compose" [f, g] strict
      let (first, _) ← .ofExcept f.form
      if first = "id" then return g
      let (second, _) ← .ofExcept g.form
      if second = "id" then return f
      return composite
  | _ => .fail .badCall

/-- Products of morphisms are left alone. -/
def tensorUnits : Override := fun workshop args strict =>
  match args with
  | [a, b] => do
      let product ← workshop.build "otimes" [a, b] strict
      let (left, sort) ← .ofExcept a.form
      if sort = "Ob" then
        if left = "munit" then return b
        let (right, _) ← .ofExcept b.form
        if right = "munit" then return a
      return product
  | _ => .fail .badCall

def category : Calculus where
  name := "FreeCategory"
  theory := Standard.category
  overrides := .ofList [("compose", composeUnits)]

def monoidal : Calculus where
  name := "FreeMonoidalCategory"
  theory := Standard.monoidal
  overrides := .ofList [("compose", composeUnits), ("otimes", tensorUnits)]

def cartesian : Calculus where
  name := "FreeCartesianCategory"
  theory := Standard.cartesian
  overrides := .ofList [("compose", composeUnits), ("otimes", tensorUnits)]

end Free
end TermAlgebra
