import TermAlgebra.Json.Reader
import TermAlgebra.Theory.Check
import TermAlgebra.Theory.Declare
import TermAlgebra.Value.Show

/-!
The ways in which an operation can fail, each with what it says about itself. A failure without a
message names a condition that the caller is expected to have ruled out.
-/
namespace TermAlgebra

inductive Failure where
  /-- The arguments violate an equation of the constructor's domain. -/
  | outsideDomain (constructor : String) (args : List Value)
  | unknownConstructor (algebra name : String)
  /-- A text stands for a generator, but no resolver is given. -/
  | disabledReference (name : String)
  | illFormed (theory : String) (errors : List Diagnostic)
  /-- No overload of the name takes arguments of these kinds. -/
  | noMethod (name : String) (kinds : List String) (algebra : String)
  | notGenerator (head : String)
  | expectedList (found : Value)
  | declaration (error : DeclarationError)
  | unreadable (error : Json.ReadError)
  | noMember (algebra name : String)
  | hiddenMember (name : String)
  | variableResult (constructor : String)
  | unboundVariable (name : String)
  | unresolvedReference (name : String)
  | noSuchOverload
  | missingArgument
  /-- An accessor takes one argument. -/
  | accessorArguments (given : Nat)
  /-- A call in a form that the called one does not take. -/
  | badCall
  | unhashable
  | notExpression
  | argumentCount
  | noWrittenForm
  | unknownLogLevel
  /-- A command line option that was given without the value it needs. -/
  | optionWithoutValue (option : String)
  | noSuchFile (path : String)
  | isDirectory (path : String)
  | notDirectory (path : String)
  | fileNameTooLong (path : String)
  | badPath
  | undecodable
  /-- An integer that is too large for a floating-point number, a count or a size. -/
  | numberTooLarge
  /-- The result would have more elements than can be stored. -/
  | outOfMemory
  /-- The nesting of constructor calls exceeds its bound. -/
  | exhausted

namespace Failure

/-- The text of an argument inside a message. -/
def argumentText (value : Value) : String := value.str?.getD value.repr

def illFormedText (theory : String) (errors : List Diagnostic) : String :=
  let line (diagnostic : Diagnostic) : String :=
    "\n  - [" ++ diagnostic.issue.rule ++ "]" ++
      (match diagnostic.subject? with
        | some subject => " " ++ subject ++ ":"
        | none => "") ++
      " " ++ diagnostic.issue.message
  "Theory '" ++ theory ++ "' is ill-formed:" ++ String.join (errors.map line)

def message? : Failure → Option String
  | .outsideDomain constructor args =>
      some ("Domain error in term constructor " ++
        Text.application constructor (args.map argumentText))
  | .unknownConstructor algebra name =>
      some ("Unknown constructor '" ++ name ++ "' in " ++ algebra)
  | .disabledReference name =>
      some ("Loading terms by name is disabled (got reference " ++ Text.quoted name ++ ")")
  | .illFormed theory errors => some (illFormedText theory errors)
  | .noMethod name kinds algebra =>
      some ("No method " ++ name ++ "(" ++ ", ".intercalate kinds ++ ") in " ++ algebra)
  | .notGenerator head => some (head ++ "(...) is not a generator")
  | .expectedList found =>
      some ("Expected a non-empty S-expression list, got " ++ found.repr)
  | .declaration error => some error.message
  | .unreadable error => some error.message
  | .noMember algebra name =>
      some (algebra ++ " has no constructor or accessor '" ++ name ++ "'")
  | .hiddenMember name => some name
  | _ => none

/-- The text of a failure that has no message of its own but is shown to the user of the command
line. -/
def explanation : Failure → String
  | .accessorArguments given =>
      if given = 0 then "Syntax.accessor() missing 1 required positional argument: 'expr'"
      else "Syntax.accessor() takes 3 positional arguments but " ++ toString (given + 2) ++
        " were given"
  | .noSuchFile path => "[Errno 2] No such file or directory: " ++ Text.quoted path
  | .notDirectory path => "[Errno 20] Not a directory: " ++ Text.quoted path
  | .isDirectory path => "[Errno 21] Is a directory: " ++ Text.quoted path
  | .fileNameTooLong path => "[Errno 36] File name too long: " ++ Text.quoted path
  | failure => failure.message?.getD ""

/-- The file is missing or is no file. -/
def isFileAccess : Failure → Bool
  | .noSuchFile _ => true
  | .notDirectory _ => true
  | .isDirectory _ => true
  | .fileNameTooLong _ => true
  | _ => false

/-- The document read is at fault: its JSON text, its shape, a name in it, or the kinds or number of
the arguments of a constructor. -/
def isRejection : Failure → Bool
  | .outsideDomain .. => true
  | .unknownConstructor .. => true
  | .disabledReference _ => true
  | .illFormed .. => true
  | .noMethod .. => true
  | .notGenerator _ => true
  | .expectedList _ => true
  | .declaration _ => true
  | .unreadable _ => true
  | .accessorArguments _ => true
  | .badCall => true
  | .unhashable => true
  | .argumentCount => true
  | _ => false

end Failure
end TermAlgebra
