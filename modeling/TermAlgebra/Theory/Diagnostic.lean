/-!
What can be wrong with a theory. Every issue belongs to a rule and is either an error or a warning.
-/
namespace TermAlgebra

inductive Severity where
  | error
  | warning
deriving DecidableEq

def Severity.text : Severity → String
  | .error => "error"
  | .warning => "warning"

/-- Where in a declaration an expression stands. -/
inductive Place where
  | parameter (name : String)
  | result
  | equation
deriving DecidableEq

def Place.text : Place → String
  | .parameter name => "parameter '" ++ name ++ "'"
  | .result => "result type"
  | .equation => "equation"

inductive Issue where
  | repeatedType (name : String) (count : Nat)
  | termNamedGenerator (name : String)
  | termNamedAsType (name : String)
  | termNamedAsAccessor (name : String)
  | accessorNamedAsType (name : String)
  | sharedAccessor (name : String) (owners : List String)
  | ambiguousOverload (name : String) (sorts : List String) (count : Nat)
  | variableAsType (place : Place) (name : String)
  | undeclaredType (place : Place) (name : String)
  | typeArity (place : Place) (name : String) (expected given : Nat)
  | accessorArity (place : Place) (name : String) (given : Nat)
  | undeclaredTerm (place : Place) (name : String)
  | termArity (place : Place) (name : String) (given : Nat)
  | untypedParameter (name : String)
  | undeclaredVariable (param name : String)
  | unrecoverable (name : String)
  | nullaryRegress (name : String)
deriving DecidableEq

namespace Issue

def severity : Issue → Severity
  | .sharedAccessor .. => .warning
  | .ambiguousOverload .. => .warning
  | _ => .error

def rule : Issue → String
  | .repeatedType .. => "type_name_unique"
  | .termNamedGenerator _ => "name_collision"
  | .termNamedAsType _ => "name_collision"
  | .termNamedAsAccessor _ => "name_collision"
  | .accessorNamedAsType _ => "name_collision"
  | .sharedAccessor .. => "accessor_shared"
  | .ambiguousOverload .. => "overload_ambiguous"
  | .variableAsType .. => "type_resolved"
  | .undeclaredType .. => "type_resolved"
  | .typeArity .. => "type_arity"
  | .accessorArity .. => "type_arity"
  | .undeclaredTerm .. => "type_resolved"
  | .termArity .. => "type_arity"
  | .untypedParameter _ => "param_in_context"
  | .undeclaredVariable .. => "implicit_resolved"
  | .unrecoverable _ => "implicit_resolved"
  | .nullaryRegress _ => "nullary_regress"

def message : Issue → String
  | .repeatedType name count =>
      "Type constructor '" ++ name ++ "' declared " ++ toString count ++ " times"
  | .termNamedGenerator name =>
      "Term constructor '" ++ name ++ "' would be mistaken for a generator"
  | .termNamedAsType name =>
      "Term constructor '" ++ name ++ "' has the same name as a type constructor"
  | .termNamedAsAccessor name =>
      "Term constructor '" ++ name ++ "' has the same name as a type parameter accessor"
  | .accessorNamedAsType name =>
      "Type parameter '" ++ name ++ "' has the same name as a type constructor"
  | .sharedAccessor name owners =>
      "Accessor '" ++ name ++ "' is shared by " ++ ", ".intercalate owners ++
        "; resolved by argument type"
  | .ambiguousOverload name sorts count =>
      toString count ++ " overloads of '" ++ name ++ "' take (" ++ ", ".intercalate sorts ++ ")"
  | .variableAsType place name => place.text ++ ": '" ++ name ++ "' is a variable, not a type"
  | .undeclaredType place name => place.text ++ ": type '" ++ name ++ "' is not declared"
  | .typeArity place name expected given =>
      place.text ++ ": type '" ++ name ++ "' expects " ++ toString expected ++
        " parameters, got " ++ toString given
  | .accessorArity place name given =>
      place.text ++ ": accessor '" ++ name ++ "' takes 1 argument, got " ++ toString given
  | .undeclaredTerm place name => place.text ++ ": '" ++ name ++ "' is not a term constructor"
  | .termArity place name given =>
      place.text ++ ": no overload of '" ++ name ++ "' takes " ++ toString given ++ " arguments"
  | .untypedParameter name => "Parameter '" ++ name ++ "' has no declared type"
  | .undeclaredVariable param name =>
      "Type of parameter '" ++ param ++ "' mentions undeclared variable '" ++ name ++ "'"
  | .unrecoverable name =>
      "Variable '" ++ name ++ "' cannot be recovered from the explicit parameters"
  | .nullaryRegress name =>
      "Result type of nullary constructor '" ++ name ++ "' expands into itself"

end Issue

/-- An issue with the constructor in whose declaration it was found, if it belongs to one. -/
structure Diagnostic where
  constructor? : Option String
  issue : Issue
deriving DecidableEq

namespace Diagnostic

def isError (diagnostic : Diagnostic) : Bool := diagnostic.issue.severity = .error

/-- Errors come before warnings; then the rule and the constructor decide. -/
def notAfter (a b : Diagnostic) : Bool :=
  match a.isError, b.isError with
  | true, false => true
  | false, true => false
  | _, _ =>
      match compare a.issue.rule b.issue.rule with
      | .lt => true
      | .gt => false
      | .eq => compare (a.constructor?.getD "") (b.constructor?.getD "") != .gt

/-- The name of the constructor, unless it is empty or there is none. -/
def subject? (diagnostic : Diagnostic) : Option String :=
  diagnostic.constructor?.filter (· ≠ "")

end Diagnostic
end TermAlgebra
