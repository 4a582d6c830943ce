import TermAlgebra.Algebra.Basic
import TermAlgebra.Value.Parts

/-!
Functors from expressions into an algebra. A functor is determined by its action on generators: a
table of generators with their images, actions on the nodes of certain constructors, and the
target algebra for all other nodes. The arguments of a node are mapped from left to right before
the node itself.
-/
namespace TermAlgebra

/-- What becomes of a node in place of its evaluation. -/
abbrev NodeAction := Value → Outcome Value

/-- Generators, or any values, with their images. -/
abbrev Images := List (Value × Value)

/-- The image of a generator. A generator that cannot be a key has none. -/
def generatorImage? (images : Images) (node : Value) : Option Value :=
  (node.lookup images).filter fun _ => node.hashable

namespace Algebra

variable (target : Algebra) (images : Images) (actions : Table NodeAction)

mutual

def functor : Value → Outcome Value
  | .expr head args typeArgs sort =>
      let node := Value.expr head args typeArgs sort
      let name := constructorName head sort
      match if head = generatorHead then generatorImage? images node else none with
      | some image => .ok image
      | none =>
          match actions.get? name with
          | some action => action node
          | none => do
              let values ← functorAll args
              target.call name values
  | _ => .fail .notExpression

/-- Arguments that are data stay as they are. -/
def functorAll : List Value → Outcome (List Value)
  | [] => pure []
  | value :: rest => do
      let image ← if value.isExpr then functor value else pure value
      let images ← functorAll rest
      pure (image :: images)

end

/-- The images of one table mapped on by another: the table of the composite functor. -/
def composeImages (first second : Images) : Outcome Images :=
  first.mapM fun (key, value) => do
    let image ← if value.isExpr then target.functor second actions value else pure value
    return (key, image)

end Algebra
end TermAlgebra
