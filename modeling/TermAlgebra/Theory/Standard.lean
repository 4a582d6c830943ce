import TermAlgebra.Theory.Declare

/-!
The standard theories: categories, monoidal categories, symmetric monoidal categories and cartesian
categories, each an extension of the one before.
-/
namespace TermAlgebra.Standard

def ob : Term := .app "Ob" []

def hom (source target : Term) : Term := .app "Hom" [source, target]

def tensor (left right : Term) : Term := .app "otimes" [left, right]

def unit : Term := .app "munit" []

def a : Term := .var "A"
def b : Term := .var "B"
def c : Term := .var "C"
def d : Term := .var "D"

def objects (names : List String) : List (String × Term) := names.map fun name => (name, ob)

/-- A term constructor with its implicit and explicit parameters and their types. -/
def constructor (name : String) (implicits params : List (String × Term)) (result : Term)
    (doc? : Option String) : TermConstructor where
  name
  params := params.map Prod.fst
  result
  context := .ofList (implicits ++ params)
  doc?

def objectType : TypeConstructor where
  name := "Ob"
  params := []
  context := .empty
  doc? := some "Object in a category"

def morphismType : TypeConstructor where
  name := "Hom"
  params := ["dom", "codom"]
  context := .ofList (objects ["dom", "codom"])
  doc? := some "Morphism in a category"

def identity : TermConstructor := constructor "id" [] (objects ["A"]) (hom a a) none

def composition : TermConstructor :=
  constructor "compose" (objects ["A", "B", "C"]) [("f", hom a b), ("g", hom b c)] (hom a c)
    (some "Composition in diagrammatic order")

def category : Theory where
  name := "Category"
  types := [objectType, morphismType]
  terms := [identity, composition]
  doc? := some "Categories: objects, morphisms, identities and composition."

def objectTensor : TermConstructor :=
  constructor "otimes" [] (objects ["A", "B"]) ob (some "Tensor product of objects")

def morphismTensor : TermConstructor :=
  constructor "otimes" (objects ["A", "B", "C", "D"]) [("f", hom a b), ("g", hom c d)]
    (hom (tensor a c) (tensor b d)) (some "Tensor product of morphisms")

def monoidalUnit : TermConstructor := constructor "munit" [] [] ob (some "Monoidal unit")

def monoidal : Theory := category.extend "MonoidalCategory" []
  [objectTensor, morphismTensor, monoidalUnit]
  (some "Monoidal categories: a category with a tensor product and unit.")

def symmetricMonoidal : Theory := monoidal.extend "SymmetricMonoidalCategory" []
  [constructor "braid" [] (objects ["A", "B"]) (hom (tensor a b) (tensor b a)) none]
  (some "Symmetric monoidal categories.")

/-- Pairing copies the common domain and applies the two morphisms side by side. -/
def pairing : Definition where
  body := .app "compose" [.app "mcopy" [.app "dom" [.var "f"]], tensor (.var "f") (.var "g")]
  viaMembers := true

def pair : TermConstructor :=
  { constructor "pair" (objects ["A", "B", "C"]) [("f", hom a b), ("g", hom a c)]
      (hom a (tensor b c)) none with definition? := some pairing }

def cartesian : Theory := symmetricMonoidal.extend "CartesianCategory" []
  [constructor "mcopy" [] (objects ["A"]) (hom a (tensor a a)) (some "Copy (diagonal)"),
    constructor "delete" [] (objects ["A"]) (hom a unit) (some "Delete (counit)"),
    pair,
    constructor "proj1" [] (objects ["A", "B"]) (hom (tensor a b) a) none,
    constructor "proj2" [] (objects ["A", "B"]) (hom (tensor a b) b) none]
  (some "Cartesian categories.")

/-- The standard theories by the keys under which they are offered. -/
def all : List (String × Theory) :=
  [("category", category), ("monoidal", monoidal), ("symmetric_monoidal", symmetricMonoidal),
    ("cartesian", cartesian)]

end TermAlgebra.Standard
