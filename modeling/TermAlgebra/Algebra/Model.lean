import TermAlgebra.Algebra.Basic

/-!
Models: algebras whose values are chosen freely. A model has an operation for the generators of each
type, and operations for term constructors and accessors. A term constructor without an operation is
computed by its default implementation in the theory.
-/
namespace TermAlgebra

abbrev Operation := List Value → Outcome Value

structure Model where
  name : String
  theory : Theory
  types : Table Operation
  operations : Table Operation

namespace Model

variable (model : Model)

def operation? (name : String) : Option Operation :=
  model.types.get? name <|> model.operations.get? name

/-- A default implementation for the name and the number of arguments. -/
def defined? (name : String) (args : List Value) : Option (Definition × List String) :=
  (model.theory.termsNamed name).findSome? fun constructor =>
    if constructor.arity = args.length then
      constructor.definition?.map fun definition => (definition, constructor.params)
    else none

/-- Whether the name is a member: without a leading underscore, and known to the model. The parts of
the model itself hide members named `name`, `theory`, `types`, `operations` and `lookup`; these are
left out of account, so such a name is a member here like any other. -/
def member (name : String) : Except Failure Unit :=
  if !name.startsWith "_" && ((model.operation? name).isSome ||
      !(model.theory.termsNamed name).isEmpty) then .ok ()
  else .error (.hiddenMember name)

/-- Operations of a model are never strict. -/
def invokeWith (self : Algebra) (name : String) (args : List Value) (strict? : Option Bool) :
    Outcome Value :=
  match model.operation? name, model.defined? name args with
  | none, none => .fail (.unknownConstructor model.name name)
  | some operation, _ => if strict?.isSome then .fail .badCall else operation args
  | none, some (definition, params) =>
      if strict?.isSome then .fail .badCall else self.applyDefinition definition params args

/-- The model as an algebra in which default implementations nest up to a depth. -/
def algebra : (depth : Nat) → Algebra
  | 0 => ⟨model.name, model.theory, fun _ _ _ => .fail .exhausted, model.member⟩
  | depth + 1 =>
      ⟨model.name, model.theory, fun name args strict? =>
        model.invokeWith (algebra depth) name args strict?, model.member⟩

def depthBound : Nat := 10000

def toAlgebra : Algebra := model.algebra depthBound

/-- A model of a theory that passes its check. -/
def create (theory : Theory) (name? : Option String) (types operations : Table Operation) :
    Except Failure Model := do
  let diagnostics ← theory.check.mapError fun error => .variableResult error.constructor
  let errors := diagnostics.filter Diagnostic.isError
  if !errors.isEmpty then throw (.illFormed theory.name errors)
  let name := (name?.filter (· ≠ "")).getD ("Instance(" ++ theory.name ++ ")")
  return ⟨name, theory, types, operations⟩

end Model
end TermAlgebra
