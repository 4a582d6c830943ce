import TermAlgebra.Text.CodeRange

/-!
White space between the tokens of the short notation: the Unicode property White_Space together
with the four information separators U+001C to U+001F.
-/
namespace TermAlgebra.Text

def blankRanges : List (Nat × Nat) :=
  [(0x09, 0x0D), (0x1C, 0x20), (0x85, 0x85), (0xA0, 0xA0), (0x1680, 0x1680), (0x2000, 0x200A),
   (0x2028, 0x2029), (0x202F, 0x202F), (0x205F, 0x205F), (0x3000, 0x3000)]

def isBlank (c : Char) : Bool := covers blankRanges c.toNat

end TermAlgebra.Text
