/-!
The prefix form of an application.
-/
namespace TermAlgebra.Text

def application (head : String) (args : List String) : String :=
  head ++ "(" ++ ",".intercalate args ++ ")"

end TermAlgebra.Text
