import TermAlgebra.Value.Basic
import TermAlgebra.Number.Decimal
import TermAlgebra.Text.Application
import TermAlgebra.Text.Quoted

/-!
The text of a value. `repr` quotes texts and spells expressions out; `str?` gives a text as it is
and an expression in prefix form, where a generator appears as the datum it wraps. A generator
that wraps nothing at all has no such text.
-/
namespace TermAlgebra.Value

def commaSeparated (texts : List String) : String := ", ".intercalate texts

/-- A lone element is followed by a comma. -/
def tupleText : List String → String
  | [only] => "(" ++ only ++ ",)"
  | texts => "(" ++ commaSeparated texts ++ ")"

mutual

def repr : Value → String
  | .null => "None"
  | .bool b => if b then "True" else "False"
  | .int n => toString n
  | .float x => x.text
  | .text characters _ => Text.quoted characters
  | .list items => "[" ++ commaSeparated (reprAll items) ++ "]"
  | .tuple items => tupleText (reprAll items)
  | .dict entries => "\x7b" ++ commaSeparated (reprEntries entries) ++ "\x7d"
  | .fin mapping codomain =>
      "Fin(mapping=" ++ tupleText (reprAll mapping) ++ ", codom=" ++ repr codomain ++ ")"
  | .expr head args typeArgs sort =>
      "Expr(head=" ++ Text.quoted head ++ ", args=" ++ tupleText (reprAll args) ++
        ", type_args=" ++ tupleText (reprAll typeArgs) ++ ", gat_type=" ++ Text.quoted sort ++ ")"

def reprAll : List Value → List String
  | [] => []
  | value :: rest => repr value :: reprAll rest

def reprEntries : List (Value × Value) → List String
  | [] => []
  | (key, value) :: rest => (repr key ++ ": " ++ repr value) :: reprEntries rest

end

mutual

def str? : Value → Option String
  | .text characters _ => some characters
  | .expr head [] _ _ => if head = generatorHead then none else some (Text.application head [])
  | .expr head (first :: rest) _ _ =>
      if head = generatorHead then str? first
      else do return Text.application head ((← str? first) :: (← strAll? rest))
  | value => some (repr value)

def strAll? : List Value → Option (List String)
  | [] => some []
  | value :: rest => do return (← str? value) :: (← strAll? rest)

end

end TermAlgebra.Value
