import TermAlgebra.Term.Basic
import TermAlgebra.Text.Blank
import TermAlgebra.Text.Quoted

/-!
The short notation `Hom(dom(f),B)`: a name followed by arguments in parentheses is an application
and a bare name is a variable, except that a type written as a bare name is a type constructor
without arguments. An equation is split at its first `==`.
-/
namespace TermAlgebra

/-- A name consists of ASCII letters, digits and underscores and does not begin with a digit; any
other character that is not blank is a mark of its own. -/
inductive Token where
  | name (characters : List Char)
  | mark (c : Char)
deriving DecidableEq

inductive NotationError where
  | expectedName (text : String)
  | unclosed (text : String)
  | expectedSeparator (text : String)
  | unexpected (token : String) (text : String)
  | noEquals (text : String)
deriving DecidableEq

def NotationError.message : NotationError → String
  | .expectedName text => "Expected a name in " ++ Text.quoted text
  | .unclosed text => "Unclosed '(' in " ++ Text.quoted text
  | .expectedSeparator text => "Expected ',' or ')' in " ++ Text.quoted text
  | .unexpected token text => "Unexpected " ++ Text.quoted token ++ " in " ++ Text.quoted text
  | .noEquals text => "Equation " ++ Text.quoted text ++ " has no '=='"

namespace Token

def startsName (c : Char) : Bool := ('A' ≤ c && c ≤ 'Z') || ('a' ≤ c && c ≤ 'z') || c = '_'

def continuesName (c : Char) : Bool := startsName c || ('0' ≤ c && c ≤ '9')

def text : Token → String
  | .name characters => String.ofList characters
  | .mark c => String.ofList [c]

/-- The name begun so far, its last character first, becomes a token where it ends. -/
def finish : List Char → List Token
  | [] => []
  | begun => [.name begun.reverse]

def scan : (begun text : List Char) → List Token
  | begun, [] => finish begun
  | begun, c :: rest =>
      if !begun.isEmpty && continuesName c then scan (c :: begun) rest
      else finish begun ++
        if startsName c then scan [c] rest
        else if Text.isBlank c then scan [] rest
        else .mark c :: scan [] rest

def ofText (text : String) : List Token := scan [] text.toList

end Token

/-- What the tokens read so far allow next: a term, a term or the end of an empty argument list,
what follows a name, or what follows a complete term. -/
inductive Reading.Stage where
  | start
  | opened
  | named (name : String)
  | closed (term : Term)

/-- The open applications, innermost first, each with its complete arguments, the last one first. -/
structure Reading where
  pending : List (String × List Term)
  stage : Reading.Stage

namespace Reading

variable (text : String)

def begin : Reading := ⟨[], .start⟩

/-- After a complete term an open application goes on or ends; with none open the text is over. -/
def afterTerm (term : Term) : List (String × List Term) → Token → Except NotationError Reading
  | [], token => .error (.unexpected token.text text)
  | (head, args) :: pending, token =>
      if token = .mark ')' then .ok ⟨pending, .closed (.app head (term :: args).reverse)⟩
      else if token = .mark ',' then .ok ⟨(head, term :: args) :: pending, .start⟩
      else .error (.expectedSeparator text)

def step (reading : Reading) (token : Token) : Except NotationError Reading :=
  match reading.stage, token with
  | .start, .name characters => .ok { reading with stage := .named (String.ofList characters) }
  | .start, .mark _ => .error (.expectedName text)
  | .opened, .name characters => .ok { reading with stage := .named (String.ofList characters) }
  | .opened, .mark c =>
      match c, reading.pending with
      | ')', (head, args) :: pending => .ok ⟨pending, .closed (.app head args.reverse)⟩
      | _, _ => .error (.expectedName text)
  | .named name, token =>
      if token = .mark '(' then .ok ⟨(name, []) :: reading.pending, .opened⟩
      else afterTerm text (.var name) reading.pending token
  | .closed term, token => afterTerm text term reading.pending token

def finish (reading : Reading) : Except NotationError Term :=
  match reading.stage, reading.pending with
  | .start, _ => .error (.expectedName text)
  | .opened, _ => .error (.expectedName text)
  | .named name, [] => .ok (.var name)
  | .closed term, [] => .ok term
  | _, _ => .error (.unclosed text)

end Reading

def Term.parse (text : String) : Except NotationError Term := do
  let reading ← (Token.ofText text).foldlM (Reading.step text) Reading.begin
  reading.finish text

/-- A bare name is a type constructor without arguments. -/
def Term.asType : Term → Term
  | .var name => .app name []
  | term => term

def Term.parseType (text : String) : Except NotationError Term :=
  return (← Term.parse text).asType

namespace Equation

/-- The characters before and after the first `==`. -/
def splitAtEquals : List Char → Option (List Char × List Char)
  | [] => none
  | c :: rest =>
      match c, rest with
      | '=', '=' :: rhs => some ([], rhs)
      | _, _ => (splitAtEquals rest).map fun (lhs, rhs) => (c :: lhs, rhs)

def parse (text : String) : Except NotationError Equation :=
  match splitAtEquals text.toList with
  | none => .error (.noEquals text)
  | some (lhs, rhs) =>
      return ⟨← Term.parse (String.ofList lhs), ← Term.parse (String.ofList rhs)⟩

end Equation
end TermAlgebra
