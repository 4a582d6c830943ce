import TermAlgebra.Term.Notation
import TermAlgebra.Theory.Basic

/-!
Declaring constructors and theories. Types and equations may be written in the short notation or
given as terms. What is written is read in order: the result type of a term constructor, then the
implicit and the explicit parameters, then the equations.
-/
namespace TermAlgebra

inductive DeclarationError where
  | illWritten (error : NotationError)
  | resultNotType (constructor : String)
deriving DecidableEq

def DeclarationError.message : DeclarationError → String
  | .illWritten error => error.message
  | .resultNotType name =>
      "Result type of " ++ Text.quoted name ++ " must be a type constructor"

inductive TypeSketch where
  | written (text : String)
  | given (type : Term)

inductive EquationSketch where
  | written (text : String)
  | given (equation : Equation)

def TypeSketch.read : TypeSketch → Except DeclarationError Term
  | .written text => (Term.parseType text).mapError .illWritten
  | .given type => .ok type

def EquationSketch.read : EquationSketch → Except DeclarationError Equation
  | .written text => (Equation.parse text).mapError .illWritten
  | .given equation => .ok equation

abbrev ParamSketch := String × TypeSketch

/-- A parameter declared again keeps its place and takes the new type. -/
def readContext (params : List ParamSketch) : Except DeclarationError (Table Term) := do
  let entries ← params.mapM fun (name, sketch) => return (name, ← sketch.read)
  return .ofList entries

def TypeConstructor.declare (name : String) (params implicits : List ParamSketch)
    (doc? : Option String) : Except DeclarationError TypeConstructor :=
  return {
    name
    params := params.map Prod.fst
    context := ← readContext (implicits ++ params)
    doc? }

def TermConstructor.declare (name : String) (params : List ParamSketch) (result : TypeSketch)
    (implicits : List ParamSketch) (equations : List EquationSketch)
    (definition? : Option Definition) (doc? : Option String) :
    Except DeclarationError TermConstructor := do
  let result ← result.read
  if !result.isApplication then throw (.resultNotType name)
  return {
    name
    params := params.map Prod.fst
    result
    context := ← readContext (implicits ++ params)
    equations := ← equations.mapM EquationSketch.read
    definition?
    doc? }

/-- A theory with all of the base and more constructors. Without a description of its own it takes
that of the base. -/
def Theory.extend (base : Theory) (name : String) (types : List TypeConstructor)
    (terms : List TermConstructor) (doc? : Option String) : Theory where
  name
  types := base.types ++ types
  terms := base.terms ++ terms
  doc? := doc? <|> base.doc?

end TermAlgebra
