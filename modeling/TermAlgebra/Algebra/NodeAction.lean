import TermAlgebra.Algebra.Functor

/-!
Actions on the nodes of an expression, from which functors can be put together: reading a part of
the node, or a fixed value, and recording the node before another action.
-/
namespace TermAlgebra.NodeAction

def itself : NodeAction := .ok

def shown : NodeAction := fun node => .ofExcept (node.shown.map .str)

def reading (part : Value → Except Failure Value) : NodeAction := fun node => .ofExcept (part node)

/-- The number of the node's arguments. -/
def size : NodeAction
  | .expr _ args _ _ => .ok (.int args.length)
  | _ => .fail .notExpression

def constant (value : Value) : NodeAction := fun _ => .ok value

def traced (name : String) (action : NodeAction) : NodeAction := fun node => do
  let _ ← .ofExcept node.shown
  .emit (.visited name node)
  action node

end TermAlgebra.NodeAction
