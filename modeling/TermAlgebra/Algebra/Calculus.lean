import TermAlgebra.Algebra.Basic

/-!
The calculus of a theory: the algebra whose values are the expressions themselves. It offers the
generators, which lift data into terms, the accessors, which read the parameters of a term's type,
and the term constructors. A constructor picks the overload whose sorts the arguments have,
computes the type of the new term and, where the caller is strict, first checks the domain. A
constructor may have an override in place of its own behaviour; failing that, its default
implementation in the theory is used, and failing that, the expression is built as it stands.
-/
namespace TermAlgebra

inductive Kind where
  | generator
  | compound
deriving DecidableEq

def Kind.text : Kind → String
  | .generator => "generator"
  | .compound => "compound"

/-- A constructor as a calculus sees it. -/
structure Constructor where
  declaration : TermConstructor
  kind : Kind

namespace Constructor

variable (constructor : Constructor)

def name : String := constructor.declaration.name

/-- The head of the expressions that the constructor builds. -/
def head : String :=
  match constructor.kind with
  | .generator => generatorHead
  | .compound => constructor.name

def sort : String := constructor.declaration.sort?.getD ""

/-- Whether a parameter of the sort takes the value. -/
def fits (sort : String) (value : Value) : Bool := sort = anySort || value.hasSort sort

def accepts (args : List Value) : Bool :=
  args.length = constructor.declaration.arity &&
    (constructor.declaration.paramSorts.zip args).all fun (sort, value) => fits sort value

end Constructor

def Theory.constructors (theory : Theory) : List Constructor :=
  theory.terms.map (⟨·, .compound⟩) ++ theory.generators.map (⟨·, .generator⟩)

/-- What an override sees of the calculus in which it acts: the calculus as an algebra, and the
building of expressions without simplification. -/
structure Workshop where
  algebra : Algebra
  build : (name : String) → (args : List Value) → (strict : Bool) → Outcome Value

abbrev Override := Workshop → (args : List Value) → (strict : Bool) → Outcome Value

structure Calculus where
  name : String
  theory : Theory
  overrides : Table Override

namespace Calculus

variable (calculus : Calculus)

/-- The overloads of a name, in order of declaration. -/
def overloads (name : String) : List Constructor :=
  (calculus.theory.termsNamed name).map (⟨·, .compound⟩) ++
    (calculus.theory.types.filter fun constructor => constructor.name = name).map
      (⟨·.generator, .generator⟩)

theorem overloads_eq_filter (name : String) :
    calculus.overloads name =
      calculus.theory.constructors.filter fun constructor => constructor.name = name := by
  simp only [overloads, Theory.constructors, Theory.generators, Theory.termsNamed,
    List.filter_append, List.filter_map, List.map_map]
  rfl

def constructorNames : List String := (calculus.theory.constructors.map (·.name)).eraseDups

def noMethod (name : String) (args : List Value) : Failure :=
  .noMethod name (args.map Value.kindName) calculus.name

/-- The first overload that accepts the arguments. -/
def resolve (name : String) (args : List Value) : Except Failure Constructor :=
  match calculus.overloads name with
  | [] => .error (.unknownConstructor calculus.name name)
  | overloads =>
      match overloads.find? fun constructor => constructor.accepts args with
      | some constructor => .ok constructor
      | none => .error (calculus.noMethod name args)

/-- The value of a parameter of the argument's type. -/
def access (name : String) (value : Value) : Except Failure Value :=
  match calculus.theory.accessorOwners name with
  | [] => .error (.unknownConstructor calculus.name name)
  | owners =>
      match value with
      | .expr _ _ typeArgs sort =>
          match owners.find? fun owner => owner.1 = sort with
          | some (_, index) =>
              match typeArgs[index]? with
              | some typeArg => .ok typeArg
              | none => .error .missingArgument
          | none => .error (calculus.noMethod name [value])
      | _ => .error (calculus.noMethod name [value])

/-- An accessor takes one argument and is never strict. -/
def callAccessor (name : String) (args : List Value) (strict? : Option Bool) :
    Except Failure Value :=
  match args, strict? with
  | _, some _ => .error .badCall
  | [value], none => calculus.access name value
  | args, none => .error (.accessorArguments args.length)

/-- Names with a leading underscore are not members. The parts of the calculus itself hide members
named `name`, `theory`, `constructors`, `overrides`, `lookup`, `resolve`, `construct`, `new`,
`generator`, `generator_like` and `accessor`; these are left out of account, so such a name is a
member here like any other. -/
def member (name : String) : Except Failure Unit :=
  if name.startsWith "_" then .error (.hiddenMember name)
  else if calculus.theory.isAccessor name || !(calculus.overloads name).isEmpty then .ok ()
  else .error (.noMember calculus.name name)

section

variable (self : Algebra)

/-- The expression of a constructor over its arguments, with the type that the constructor declares
for it. The terms that the type or the domain mentions are computed in the given algebra. -/
def build (constructor : Constructor) (args : List Value) (strict : Bool) : Outcome Value :=
  let declaration := constructor.declaration
  if !constructor.accepts args then .fail (calculus.noMethod constructor.name args)
  else do
    if strict then self.validate declaration (declaration.domain calculus.theory) args
    match declaration.expandedResult calculus.theory with
    | .var _ => .fail (.variableResult constructor.name)
    | .app _ types =>
        let typeArgs ← self.evaluateAll (.ofArgs declaration.params args) types
        pure (.expr constructor.head args typeArgs constructor.sort)

def buildNamed (name : String) (args : List Value) (strict : Bool) : Outcome Value := do
  let constructor ← .ofExcept (calculus.resolve name args)
  calculus.build self constructor args strict

def workshop : Workshop := ⟨self, calculus.buildNamed self⟩

def apply (constructor : Constructor) (args : List Value) (strict : Bool) : Outcome Value :=
  match calculus.overrides.get? constructor.name with
  | some override => override (calculus.workshop self) args strict
  | none =>
      let declaration := constructor.declaration
      match declaration.definition? with
      | some definition => do
          if strict then self.validate declaration (declaration.domain calculus.theory) args
          self.applyDefinition definition declaration.params args
      | none => calculus.build self constructor args strict

def constructWith (name : String) (args : List Value) (strict : Bool) : Outcome Value := do
  let constructor ← .ofExcept (calculus.resolve name args)
  calculus.apply self constructor args strict

def invokeWith (name : String) (args : List Value) (strict? : Option Bool) : Outcome Value :=
  if calculus.theory.isAccessor name then .ofExcept (calculus.callAccessor name args strict?)
  else calculus.constructWith self name args (strict?.getD false)

end

/-- The calculus as an algebra in which constructor calls nest up to a depth. -/
def algebra : (depth : Nat) → Algebra
  | 0 => ⟨calculus.name, calculus.theory, fun _ _ _ => .fail .exhausted, calculus.member⟩
  | depth + 1 =>
      ⟨calculus.name, calculus.theory, fun name args strict? =>
        calculus.invokeWith (algebra depth) name args strict?, calculus.member⟩

/-- No computation on terms of moderate size nests deeper. -/
def depthBound : Nat := 10000

def toAlgebra : Algebra := calculus.algebra depthBound

def invoke (name : String) (args : List Value) (strict? : Option Bool) : Outcome Value :=
  calculus.toAlgebra.invoke name args strict?

def construct (name : String) (args : List Value) (strict : Bool) : Outcome Value :=
  calculus.constructWith calculus.toAlgebra name args strict

/-- The expression of the overload that accepts the arguments, without simplification. -/
def new (name : String) (args : List Value) (strict : Bool) : Outcome Value :=
  calculus.buildNamed calculus.toAlgebra name args strict

/-- The expression of a certain overload, without simplification. -/
def newOverload (constructor : Constructor) (args : List Value) (strict : Bool) : Outcome Value :=
  calculus.build calculus.toAlgebra constructor args strict

/-- A generator of a type: the datum, then the parameters of the type. -/
def generator (sort : String) (args : List Value) : Outcome Value :=
  if args.isEmpty then .fail .badCall
  else if (calculus.theory.type? sort).isNone then .fail (.unknownConstructor calculus.name sort)
  else calculus.construct sort args false

/-- A generator of the same type as an expression. -/
def generatorLike (model datum : Value) : Outcome Value :=
  match model with
  | .expr _ _ typeArgs sort => calculus.invoke sort (datum :: typeArgs) none
  | _ => .fail .notExpression

/-- A calculus over a theory that passes its check; every override must belong to a constructor.
Without a name of its own the calculus is named for the theory. -/
def create (theory : Theory) (name? : Option String) (overrides : Table Override) :
    Except Failure Calculus := do
  let diagnostics ← theory.check.mapError fun error => .variableResult error.constructor
  let errors := diagnostics.filter Diagnostic.isError
  if !errors.isEmpty then throw (.illFormed theory.name errors)
  let name := (name?.filter (· ≠ "")).getD ("Syntax(" ++ theory.name ++ ")")
  let calculus : Calculus := ⟨name, theory, overrides⟩
  match overrides.keys.find? fun key => (calculus.overloads key).isEmpty with
  | some key => throw (.unknownConstructor name key)
  | none => return calculus

end Calculus
end TermAlgebra
