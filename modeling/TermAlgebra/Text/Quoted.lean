import TermAlgebra.Text.Hex
import TermAlgebra.Text.Printable

/-!
Quoted text, as it appears inside a shown container or an error message. The quote is single unless
the text holds a single quote and no double one. The quote, the backslash and the line controls have
short escapes; other unprintable characters are written by code point.
-/
namespace TermAlgebra.Text

def quoteFor (text : List Char) : Char :=
  if text.contains '\'' && !text.contains '"' then '"' else '\''

def escapeCode (code : Nat) : List Char :=
  if code < 0x100 then '\\' :: 'x' :: hexDigits 2 code
  else if code < 0x10000 then '\\' :: 'u' :: hexDigits 4 code
  else '\\' :: 'U' :: hexDigits 8 code

def escapeIn (quote : Char) (c : Char) : List Char :=
  if c = quote ∨ c = '\\' then ['\\', c]
  else match c with
    | '\n' => ['\\', 'n']
    | '\r' => ['\\', 'r']
    | '\t' => ['\\', 't']
    | c => if isPrintable c then [c] else escapeCode c.toNat

def quoted (text : String) : String :=
  let quote := quoteFor text.toList
  String.ofList (quote :: text.toList.flatMap (escapeIn quote) ++ [quote])

end TermAlgebra.Text
