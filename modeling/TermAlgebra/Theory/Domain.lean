import TermAlgebra.Theory.Paths

/-!
The domain of a constructor: the equations that its arguments have to satisfy. A parameter reached
in several ways yields an equation of the first way with each other one; the declared equations
follow.
-/
namespace TermAlgebra.TermConstructor

variable (theory : Theory) (constructor : TermConstructor)

def derivedEquations : List Equation :=
  (constructor.paths theory).entries.flatMap fun (_, found) =>
    match found with
    | [] => []
    | first :: others => others.map fun other => ⟨first, other⟩

def domain : List Equation :=
  constructor.derivedEquations theory ++
    constructor.equations.map (constructor.expandEquation theory)

end TermAlgebra.TermConstructor
