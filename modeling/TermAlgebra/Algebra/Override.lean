import TermAlgebra.Algebra.Calculus

/-!
Overrides: building the expression as it stands or with its arguments reversed, returning an
argument, evaluating a term over the arguments, and recording the call before another override
acts.
-/
namespace TermAlgebra.Override

/-- Builds the expression of the named constructor without simplification. -/
def rebuild (name : String) : Override := fun workshop args strict =>
  workshop.build name args strict

/-- Builds the expression and checks its domain whatever the caller asks for. -/
def rebuildStrict (name : String) : Override := fun workshop args _ =>
  workshop.build name args true

def swapped (name : String) : Override := fun workshop args strict =>
  workshop.build name args.reverse strict

def argument (pick : List Value → Option Value) : Override := fun _ args _ =>
  match pick args with
  | some value => .ok value
  | none => .fail .missingArgument

def first : Override := argument List.head?

def last : Override := argument List.getLast?

/-- Evaluates a term; parameters and arguments are paired as far as both go. -/
def byTerm (params : List String) (body : Term) : Override := fun workshop args _ =>
  workshop.algebra.evaluate (.ofArgs params args) body

def traced (name : String) (override : Override) : Override := fun workshop args strict => do
  if args.any fun value => value.str?.isNone then .fail .missingArgument
  .emit (.overrode workshop.algebra.name name args strict)
  override workshop args strict

end TermAlgebra.Override
