import TermAlgebra.Json.Escape
import TermAlgebra.Number.Decimal
import TermAlgebra.Value.Basic

/-!
Writing a value as a JSON document, with a space after every comma and colon. Tuples are written as
lists. Values that are no data, and keys that are no texts, have no written form.
-/
namespace TermAlgebra.Json

def writeText (characters : String) : List Char :=
  '"' :: characters.toList.flatMap escape ++ ['"']

def writeNumber : Binary64 → List Char
  | .infinite negative => (if negative then "-Infinity" else "Infinity").toList
  | .nan _ => "NaN".toList
  | x => x.text.toList

def separated (parts : List (List Char)) : List Char := [',', ' '].intercalate parts

mutual

def writeChars? : Value → Option (List Char)
  | .null => some "null".toList
  | .bool b => some (if b then "true" else "false").toList
  | .int n => some (toString n).toList
  | .float x => some (writeNumber x)
  | .text characters _ => some (writeText characters)
  | .list items => (writeAll? items).map fun parts => '[' :: separated parts ++ [']']
  | .tuple items => (writeAll? items).map fun parts => '[' :: separated parts ++ [']']
  | .dict entries => (writeEntries? entries).map fun parts => '{' :: separated parts ++ ['}']
  | .fin .. => none
  | .expr .. => none

def writeAll? : List Value → Option (List (List Char))
  | [] => some []
  | value :: rest => do return (← writeChars? value) :: (← writeAll? rest)

def writeEntries? : List (Value × Value) → Option (List (List Char))
  | [] => some []
  | (.text key _, value) :: rest => do
      return (writeText key ++ ':' :: ' ' :: (← writeChars? value)) :: (← writeEntries? rest)
  | _ :: _ => none

end

def write? (value : Value) : Option String := (writeChars? value).map String.ofList

end TermAlgebra.Json
