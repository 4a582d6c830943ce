/-!
Sets of characters given as closed ranges of code points, ascending and apart.
-/
namespace TermAlgebra.Text

/-- The search ends at the first range that begins beyond the code point. -/
def covers : List (Nat × Nat) → Nat → Bool
  | [], _ => false
  | (first, last) :: rest, code =>
      if code < first then false else code ≤ last || covers rest code

end TermAlgebra.Text
