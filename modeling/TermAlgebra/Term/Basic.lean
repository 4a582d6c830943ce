import TermAlgebra.Text.Application

/-!
The language in which a theory speaks of its own terms: the types of parameters, the result types of
constructors and the sides of equations. A variable is a parameter of the enclosing constructor; an
application has a type constructor, a term constructor or an accessor at its head.
-/
namespace TermAlgebra

inductive Term where
  | var (name : String)
  | app (head : String) (args : List Term)

structure Equation where
  lhs : Term
  rhs : Term

namespace Term

instance : Inhabited Term := ⟨.var ""⟩

def isApplication : Term → Bool
  | .var _ => false
  | .app .. => true

mutual

def print : Term → String
  | .var name => name
  | .app head args => Text.application head (printAll args)

def printAll : List Term → List String
  | [] => []
  | term :: rest => print term :: printAll rest

end

mutual

/-- The variables from left to right, with repetitions. -/
def freeVars : Term → List String
  | .var name => [name]
  | .app _ args => freeVarsAll args

def freeVarsAll : List Term → List String
  | [] => []
  | term :: rest => freeVars term ++ freeVarsAll rest

end

mutual

/-- The heads of the applications, outer ones first. -/
def heads : Term → List String
  | .var _ => []
  | .app head args => head :: headsAll args

def headsAll : List Term → List String
  | [] => []
  | term :: rest => heads term ++ headsAll rest

end

mutual

/-- Replaces all bound variables at once and keeps the others. -/
def subst (binding : String → Option Term) : Term → Term
  | .var name => (binding name).getD (.var name)
  | .app head args => .app head (substAll binding args)

def substAll (binding : String → Option Term) : List Term → List Term
  | [] => []
  | term :: rest => subst binding term :: substAll binding rest

end

theorem printAll_eq_map (terms : List Term) : printAll terms = terms.map print := by
  induction terms with
  | nil => rfl
  | cons term rest ih => simp [printAll, ih]

theorem substAll_eq_map (binding : String → Option Term) (terms : List Term) :
    substAll binding terms = terms.map (subst binding) := by
  induction terms with
  | nil => rfl
  | cons term rest ih => simp [substAll, ih]

end Term

namespace Equation

def print (equation : Equation) : String := equation.lhs.print ++ " == " ++ equation.rhs.print

def subst (binding : String → Option Term) (equation : Equation) : Equation :=
  ⟨equation.lhs.subst binding, equation.rhs.subst binding⟩

end Equation
end TermAlgebra
