import TermAlgebra.Outcome
import TermAlgebra.Theory.Domain
import TermAlgebra.Value.Equality

/-!
Algebras of a theory: whatever can apply the theory's constructors and accessors by name. A term is
evaluated in an algebra under an environment for its variables, its arguments from left to right.
-/
namespace TermAlgebra

/-- `strict?` tells whether the caller asks for a check of the domain; only the constructors of a
calculus take the question at all. `member` tells whether the algebra offers the name as a member.
-/
structure Algebra where
  name : String
  theory : Theory
  invoke : (name : String) → (args : List Value) → (strict? : Option Bool) → Outcome Value
  member : String → Except Failure Unit

/-- The values of the variables of a term. -/
abbrev Environment := String → Option Value

/-- Of parameters that share a name the last one gives the value. -/
def Environment.ofArgs (params : List String) (args : List Value) : Environment := fun name =>
  lastEntry name (params.zip args)

namespace Algebra

variable (algebra : Algebra)

def call (name : String) (args : List Value) : Outcome Value := algebra.invoke name args none

section

variable (env : Environment)

def variableValue (name : String) : Outcome Value :=
  match env name with
  | some value => .ok value
  | none => .fail (.unboundVariable name)

mutual

def evaluate : Term → Outcome Value
  | .var name => variableValue env name
  | .app head args => do
      let values ← evaluateAll args
      algebra.call head values

def evaluateAll : List Term → Outcome (List Value)
  | [] => pure []
  | term :: rest => do
      let value ← evaluate term
      let values ← evaluateAll rest
      pure (value :: values)

end

mutual

/-- Evaluation through the members of the algebra: each head is looked up before its arguments are
evaluated. An algebra has parts of its own besides, such as its name and its theory, which hide
members of the same names; the heads are taken to be none of these. -/
def evaluateMembers : Term → Outcome Value
  | .var name => variableValue env name
  | .app head args => do
      .ofExcept (algebra.member head)
      let values ← evaluateMembersAll args
      algebra.call head values

def evaluateMembersAll : List Term → Outcome (List Value)
  | [] => pure []
  | term :: rest => do
      let value ← evaluateMembers term
      let values ← evaluateMembersAll rest
      pure (value :: values)

end

/-- The first equation whose sides differ. -/
def firstViolated? : List Equation → Outcome (Option Equation)
  | [] => pure none
  | equation :: rest => do
      let lhs ← algebra.evaluate env equation.lhs
      let rhs ← algebra.evaluate env equation.rhs
      if Value.equal lhs rhs then firstViolated? rest else pure (some equation)

end

/-- Fails unless the arguments satisfy every equation. Without equations any number of arguments
will do. -/
def validate (constructor : TermConstructor) (equations : List Equation) (args : List Value) :
    Outcome Unit :=
  if equations.isEmpty then pure ()
  else if args.length ≠ constructor.arity then .fail .argumentCount
  else do
    let violated ← algebra.firstViolated? (.ofArgs constructor.params args) equations
    if violated.isSome then .fail (.outsideDomain constructor.name args) else pure ()

/-- Applies a default implementation. -/
def applyDefinition (definition : Definition) (params : List String) (args : List Value) :
    Outcome Value :=
  let env := Environment.ofArgs params args
  if definition.viaMembers then algebra.evaluateMembers env definition.body
  else algebra.evaluate env definition.body

end Algebra
end TermAlgebra
