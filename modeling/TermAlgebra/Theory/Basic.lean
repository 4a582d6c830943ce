import TermAlgebra.Table
import TermAlgebra.Term.Basic

/-!
Generalized algebraic theories: type constructors with typed parameters, and term constructors
whose result type may depend on their arguments. The context of a constructor declares every
parameter. Only the explicit ones are passed when the constructor is applied; the others are
implicit and are found in the types of the explicit ones.
-/
namespace TermAlgebra

/-- The type of data that are no terms. -/
def anySort : String := "Any"

/-- The parameter of a generator that takes the wrapped datum. -/
def valueParam : String := "__value__"

structure TypeConstructor where
  name : String
  params : List String
  context : Table Term
  doc? : Option String := none

/-- A default implementation: a term over the parameters. It reaches the constructors by name, or as
the members of the algebra in which it is evaluated. -/
structure Definition where
  body : Term
  viaMembers : Bool := false

structure TermConstructor where
  name : String
  params : List String
  result : Term
  context : Table Term
  equations : List Equation := []
  definition? : Option Definition := none
  doc? : Option String := none

namespace TypeConstructor

def arity (constructor : TypeConstructor) : Nat := constructor.params.length

/-- The constructor that lifts a datum into a term of the type, with the type's own parameters after
the datum. -/
def generator (constructor : TypeConstructor) : TermConstructor where
  name := constructor.name
  params := valueParam :: constructor.params
  result := .app constructor.name (constructor.params.map .var)
  context := .ofList ((valueParam, .app anySort []) :: constructor.context.entries)
  doc? := constructor.doc?

end TypeConstructor

namespace TermConstructor

def arity (constructor : TermConstructor) : Nat := constructor.params.length

def isNullary (constructor : TermConstructor) : Bool := constructor.params.isEmpty

/-- The type constructor of the result type. -/
def sort? (constructor : TermConstructor) : Option String :=
  match constructor.result with
  | .var _ => none
  | .app head _ => some head

/-- The type constructor of a parameter's declared type, by which overloads are told apart. -/
def paramSort (constructor : TermConstructor) (param : String) : String :=
  match constructor.context.get? param with
  | some (.app head _) => head
  | _ => anySort

def paramSorts (constructor : TermConstructor) : List String :=
  constructor.params.map constructor.paramSort

def implicitParams (constructor : TermConstructor) : List String :=
  constructor.context.keys.filter fun name => !constructor.params.contains name

end TermConstructor

/-- Constructors stand in order of declaration. Term constructors of one name are overloads. -/
structure Theory where
  name : String
  types : List TypeConstructor
  terms : List TermConstructor
  doc? : Option String := none

namespace Theory

def type? (theory : Theory) (name : String) : Option TypeConstructor :=
  theory.types.find? fun constructor => constructor.name = name

def termsNamed (theory : Theory) (name : String) : List TermConstructor :=
  theory.terms.filter fun constructor => constructor.name = name

def typeNames (theory : Theory) : List String := theory.types.map (·.name)

def termNames (theory : Theory) : List String := (theory.terms.map (·.name)).eraseDups

/-- Every parameter of a type constructor is an accessor: its name, the type constructor and the
parameter's place. -/
def accessorPlaces (theory : Theory) : List (String × String × Nat) :=
  theory.types.flatMap fun constructor =>
    constructor.params.zipIdx.map fun (param, index) => (param, constructor.name, index)

def accessorNames (theory : Theory) : List String :=
  (theory.accessorPlaces.map Prod.fst).eraseDups

/-- The type constructors that have the parameter, with its places in them. -/
def accessorOwners (theory : Theory) (name : String) : List (String × Nat) :=
  theory.accessorPlaces.filterMap fun (param, owner) => if param = name then some owner else none

def isAccessor (theory : Theory) (name : String) : Bool :=
  theory.types.any fun constructor => constructor.params.contains name

def typeArities (theory : Theory) : Table Nat :=
  .ofList (theory.types.map fun constructor => (constructor.name, constructor.arity))

/-- The number of parameters of the type constructor that was declared last under a name. -/
def arity? (theory : Theory) (name : String) : Option Nat :=
  lastEntry name (theory.types.map fun constructor => (constructor.name, constructor.arity))

theorem get?_typeArities (theory : Theory) (name : String) :
    theory.typeArities.get? name = theory.arity? name :=
  Table.get?_ofList _ _

def generators (theory : Theory) : List TermConstructor := theory.types.map (·.generator)

/-- All constructors of the theory's expressions. -/
def interface (theory : Theory) : List TermConstructor := theory.terms ++ theory.generators

end Theory
end TermAlgebra
