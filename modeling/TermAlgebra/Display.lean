import TermAlgebra.Text.Letter
import TermAlgebra.Value.Parts

/-!
Notations for expressions. The S-expression notation shows generators as quoted data. The plain and
the LaTeX notation write heads that have an operator between their arguments, when there are two or
more, and in parentheses inside another operator; other heads are written before their arguments.
-/
namespace TermAlgebra.Display

/-- The operators of heads that are written between their arguments. -/
abbrev Operators := String → Option String

def plainOperators : Operators
  | "compose" => some "⋅"
  | "otimes" => some "⊗"
  | _ => none

def latexOperators : Operators
  | "compose" => some "\\cdot"
  | "otimes" => some "\\otimes"
  | _ => none

mutual

def sexpr : Value → Except Failure String
  | .expr head args typeArgs sort =>
      if head = generatorHead then (Value.expr head args typeArgs sort).datum.map Value.repr
      else do
        let shown ← sexprAll args
        return "(" ++ " ".intercalate (head :: shown) ++ ")"
  | value => .ok value.repr

def sexprAll : List Value → Except Failure (List String)
  | [] => .ok []
  | value :: rest => do
      let first ← sexpr value
      let others ← sexprAll rest
      return first :: others

end

/-- How a leaf, a head before its arguments, and an operator between them are written. -/
structure Style where
  leaf : String → String
  before : (head inner : String) → String
  between : (operator : String) → List String → String
  enclosed : String → String

def plain : Style where
  leaf := id
  before head inner := head ++ "\x7b" ++ inner ++ "\x7d"
  between operator parts := operator.intercalate parts
  enclosed body := "(" ++ body ++ ")"

/-- Words of two letters or more are set upright. -/
def latexLeaf (text : String) : String :=
  if 1 < text.length && text.toList.all Text.isLetter then "\\mathrm\x7b" ++ text ++ "\x7d"
  else text

/-- Operators other than a lone space are set off by spaces. -/
def latex : Style where
  leaf := latexLeaf
  before head inner :=
    "\\mathop\x7b\\mathrm\x7b" ++ head ++ "\x7d\x7d\\left[" ++ inner ++ "\\right]"
  between operator parts :=
    (if operator = " " then operator else " " ++ operator ++ " ").intercalate parts
  enclosed body := "\\left(" ++ body ++ "\\right)"

variable (style : Style) (operators : Operators)

mutual

/-- `inside` tells that the value stands between the operators of another head. -/
def render (inside : Bool) : Value → Except Failure String
  | .expr head args typeArgs sort =>
      if head = generatorHead then do
        let datum ← (Value.expr head args typeArgs sort).datum
        return style.leaf (← datum.shown)
      else
        match if args.length < 2 then none else operators head with
        | none => do
            let parts ← renderAll false args
            return style.before head (",".intercalate parts)
        | some operator => do
            let parts ← renderAll true args
            let body := style.between operator parts
            return if inside then style.enclosed body else body
  | value => value.shown

def renderAll (inside : Bool) : List Value → Except Failure (List String)
  | [] => .ok []
  | value :: rest => do
      let first ← render inside value
      let others ← renderAll inside rest
      return first :: others

end

end TermAlgebra.Display
