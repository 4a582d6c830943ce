import TermAlgebra.Theory.Diagnostic
import TermAlgebra.Theory.Regress
import TermAlgebra.Value.Basic

/-!
Checking a theory. Names must keep type constructors, term constructors, accessors and generators
apart; types must be declared type constructors with as many arguments as parameters; every variable
must be declared and recoverable from the explicit parameters; and building a nullary term must not
require building itself. Two overloads that take the same sorts, and an accessor shared by several
types, are worth a warning.
-/
namespace TermAlgebra

/-- Each key with the number of its occurrences, in order of first occurrence. -/
def occurrences {α : Type} [BEq α] (keys : List α) : List (α × Nat) :=
  keys.eraseDups.map fun key => (key, keys.count key)

/-- A nullary term constructor whose result is a variable: it has no type to expand. -/
structure VariableResult where
  constructor : String
deriving DecidableEq

namespace Theory

variable (theory : Theory)

def typeNameIssues : List Issue :=
  (occurrences theory.typeNames).filterMap fun (name, count) =>
    if 1 < count then some (.repeatedType name count) else none

def termNameIssues (name : String) : List Issue :=
  (if name = generatorHead then [.termNamedGenerator name] else []) ++
  (if theory.typeNames.contains name then [.termNamedAsType name] else []) ++
  (if theory.isAccessor name then [.termNamedAsAccessor name] else [])

def accessorIssues (name : String) : List Issue :=
  let owners := theory.accessorOwners name
  (if theory.typeNames.contains name then [.accessorNamedAsType name] else []) ++
  (if 1 < owners.length then [.sharedAccessor name (owners.map Prod.fst)] else [])

def overloadDiagnostics : List Diagnostic :=
  (occurrences (theory.terms.map fun constructor => (constructor.name, constructor.paramSorts)))
    |>.filterMap fun ((name, sorts), count) =>
      if 1 < count then some ⟨some name, .ambiguousOverload name sorts count⟩ else none

def nameDiagnostics : List Diagnostic :=
  (theory.typeNameIssues ++ theory.termNames.flatMap theory.termNameIssues ++
    theory.accessorNames.flatMap theory.accessorIssues).map (⟨none, ·⟩) ++
  theory.overloadDiagnostics

/-- An accessor takes one argument, and some overload of a term constructor takes as many as are
given. -/
def headIssues (place : Place) (head : String) (given : Nat) : List Issue :=
  if theory.isAccessor head then
    if given = 1 then [] else [.accessorArity place head given]
  else
    let overloads := theory.termsNamed head
    if overloads.isEmpty then [.undeclaredTerm place head]
    else if overloads.all (·.arity ≠ given) then [.termArity place head given]
    else []

mutual

def termIssues (place : Place) : Term → List Issue
  | .var _ => []
  | .app head args => theory.headIssues place head args.length ++ termIssuesAll place args

def termIssuesAll (place : Place) : List Term → List Issue
  | [] => []
  | term :: rest => termIssues place term ++ termIssuesAll place rest

end

/-- A type is a type constructor applied to as many terms as it has parameters. -/
def typeIssues (place : Place) : Term → List Issue
  | .var name => [.variableAsType place name]
  | .app head args =>
      if head = anySort && args.isEmpty then []
      else match theory.type? head with
        | none => [.undeclaredType place head]
        | some constructor =>
            (if constructor.arity = args.length then []
              else [.typeArity place head constructor.arity args.length]) ++
            theory.termIssuesAll place args

def untypedIssues (params : List String) (context : Table Term) : List Issue :=
  params.filterMap fun param =>
    if context.contains param then none else some (.untypedParameter param)

def typeConstructorIssues (constructor : TypeConstructor) : List Issue :=
  untypedIssues constructor.params constructor.context ++
  constructor.context.entries.flatMap fun (param, type) =>
    theory.typeIssues (.parameter param) type ++
    type.freeVars.filterMap fun name =>
      if constructor.context.contains name then none else some (.undeclaredVariable param name)

/-- The variables that the result type and the equations mention. -/
def mentioned (constructor : TermConstructor) : List String :=
  (constructor.result.freeVars ++ constructor.equations.flatMap fun equation =>
    equation.lhs.freeVars ++ equation.rhs.freeVars).eraseDups

def termConstructorIssues (constructor : TermConstructor) : List Issue :=
  let found := constructor.paths theory
  untypedIssues constructor.params constructor.context ++
  constructor.context.entries.flatMap (fun (param, type) =>
    theory.typeIssues (.parameter param) type) ++
  theory.typeIssues .result constructor.result ++
  constructor.equations.flatMap (fun equation =>
    theory.termIssues .equation equation.lhs ++ theory.termIssues .equation equation.rhs) ++
  (mentioned constructor).filterMap fun name =>
    if found.contains name then none else some (.unrecoverable name)

def regressDiagnostics : List Diagnostic :=
  let graph := theory.constantGraph
  (graph.keys.filter graph.onCycle).map fun name => ⟨some name, .nullaryRegress name⟩

/-- The diagnostics in order of discovery. -/
def findings : List Diagnostic :=
  theory.nameDiagnostics ++
  theory.types.flatMap (fun constructor =>
    (theory.typeConstructorIssues constructor).map (⟨some constructor.name, ·⟩)) ++
  theory.terms.flatMap (fun constructor =>
    (theory.termConstructorIssues constructor).map (⟨some constructor.name, ·⟩)) ++
  theory.regressDiagnostics

/-- The diagnostics, errors first. Those of one rule and one constructor stay in order of
discovery. -/
def check : Except VariableResult (List Diagnostic) :=
  match theory.terms.find? fun constructor =>
      constructor.isNullary && !constructor.result.isApplication with
  | some constructor => .error ⟨constructor.name⟩
  | none => .ok (theory.findings.mergeSort Diagnostic.notAfter)

end Theory
end TermAlgebra
