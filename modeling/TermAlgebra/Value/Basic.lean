import TermAlgebra.Number.Binary64

/-!
Values: plain data, and the expressions of a calculus. An expression records the constructor
that built it, its arguments, and its type, which is a type constructor (its sort) applied to type
arguments. The leaves are generators: the first argument of a generator is the wrapped datum and the
others are the parameters of its type.
-/
namespace TermAlgebra

/-- A symbolic text is a name rather than data; it compares like the text itself. A `fin` is a
function between finite sets, given by its images and its codomain. -/
inductive Value where
  | null
  | bool (b : Bool)
  | int (n : Int)
  | float (x : Binary64)
  | text (characters : String) (symbolic : Bool)
  | list (items : List Value)
  | tuple (items : List Value)
  | dict (entries : List (Value × Value))
  | fin (mapping : List Value) (codomain : Value)
  | expr (head : String) (args typeArgs : List Value) (sort : String)

/-- The head of every generator. -/
def generatorHead : String := "generator"

namespace Value

instance : Inhabited Value := ⟨.null⟩

def str (characters : String) : Value := .text characters false

def isExpr : Value → Bool
  | .expr .. => true
  | _ => false

def isText : Value → Bool
  | .text .. => true
  | _ => false

/-- The name of a datum's kind; an expression's is its sort. -/
def kindName : Value → String
  | .null => "NoneType"
  | .bool _ => "bool"
  | .int _ => "int"
  | .float _ => "float"
  | .text _ symbolic => if symbolic then "Name" else "str"
  | .list _ => "list"
  | .tuple _ => "tuple"
  | .dict _ => "dict"
  | .fin .. => "Fin"
  | .expr _ _ _ sort => sort

/-- Whether the value is an expression of the sort. -/
def hasSort (sort : String) : Value → Bool
  | .expr _ _ _ own => own = sort
  | _ => false

end Value
end TermAlgebra
