import TermAlgebra.Algebra.Calculus
import TermAlgebra.CommandLine.Command
import TermAlgebra.Display
import TermAlgebra.Document
import TermAlgebra.Theory.Reference
import TermAlgebra.Theory.Standard

/-!
Running the commands. A command answers with its exit status and what it prints; without a command
an overview is printed. The theories are the standard ones, to which others can be added by key; an
added theory is put together only when a command asks for it, and may turn out to be ill written.
-/
namespace TermAlgebra.CommandLine

inductive Response where
  | stopped (stop : Stop)
  | overview
  | printed (status : Nat) (output errors : String)

/-- The theories that are offered, by key. -/
abbrev Catalogue := Table (Except Failure Theory)

def standardCatalogue : Catalogue :=
  .ofList (Standard.all.map fun (key, theory) => (key, .ok theory))

def padRight (width : Nat) (text : String) : String :=
  text ++ String.ofList (List.replicate (width - text.length) ' ')

def theoryLine (key : String) (theory : Theory) : String :=
  padRight 20 key ++ " " ++ padRight 28 theory.name ++ " " ++ toString theory.types.length ++
    " types, " ++ toString theory.terms.length ++ " terms\n"

def checkLine (diagnostic : Diagnostic) : String :=
  "    - [" ++ diagnostic.issue.rule ++ "]" ++
    (match diagnostic.subject? with
      | some subject => " " ++ subject ++ ":"
      | none => "") ++
    " " ++ diagnostic.issue.message ++ " (" ++ diagnostic.issue.severity.text.toUpper ++ ")\n"

/-- The verdict, then the errors and, if asked for, the warnings. -/
def checkReport (theory : Theory) (verbose : Bool) (diagnostics : List Diagnostic) : Response :=
  let errors := diagnostics.filter (·.isError)
  let verdict :=
    if errors.isEmpty then
      ": ✓ Well-formed (" ++ toString (diagnostics.length - errors.length) ++ " warnings)\n"
    else ": × Ill-formed (" ++ toString errors.length ++ " errors)\n"
  let shown := diagnostics.filter fun diagnostic => diagnostic.isError || verbose
  .printed (if errors.isEmpty then 0 else 1)
    (theory.name ++ verdict ++ String.join (shown.map checkLine)) ""

def formatted (value : Value) : Format → Except Failure String
  | .sexpr => Display.sexpr value
  | .unicode => Display.render Display.plain Display.plainOperators false value
  | .latex => Display.render Display.latex Display.latexOperators false value
  | .json => SExpr.write (SExpr.encode value)

/-- What is said of a file from which no expression is loaded. -/
def loadingError (path reason : String) : String :=
  "Error loading " ++ path ++ ": " ++ reason ++ "\n"

section

variable (catalogue : Catalogue)

def withTheory (key : String) (respond : Theory → Except Failure Response) :
    Except Failure Response :=
  match catalogue.get? key with
  | some theory => theory.bind respond
  | none =>
      .ok (.printed 1 "" ("Unknown theory: " ++ key ++ " (available: " ++
        ", ".intercalate catalogue.keys ++ ")\n"))

def Command.run (contents : String → Except Failure ByteArray) : Command → Except Failure Response
  | .theories => do
      let lines ← catalogue.entries.mapM fun (key, theory) => return theoryLine key (← theory)
      return .printed 0 (String.join lines) ""
  | .reference key =>
      withTheory catalogue key fun theory =>
        match theory.reference with
        | .ok text => .ok (.printed 0 (text ++ "\n") "")
        | .error error => .error (.variableResult error.constructor)
  | .check key verbose =>
      withTheory catalogue key fun theory =>
        match theory.check with
        | .ok diagnostics => .ok (checkReport theory verbose diagnostics)
        | .error error => .error (.variableResult error.constructor)
  | .display _ none _ => .error (.optionWithoutValue "theory")
  | .display path (some key) format? =>
      withTheory catalogue key fun theory => do
        let calculus ← Calculus.create theory none .empty
        match ← (Document.load calculus.toAlgebra {} (contents path)).result with
        | .value value =>
            match format? with
            | none => throw (.optionWithoutValue "format")
            | some format => return .printed 0 ((← formatted value format) ++ "\n") ""
        | .rejected failure =>
            return .printed 1 "" (loadingError path failure.explanation)

/-- Answers a command line. The log level is looked at before any command. -/
def run (contents : String → Except Failure ByteArray) (args : List String) :
    Except Failure Response :=
  match Request.read args with
  | .error stop => .ok (.stopped stop)
  | .ok request =>
      match request.logLevel? with
      | none => .error (.optionWithoutValue "log-level")
      | some level =>
          if !isLogLevel level then .error .unknownLogLevel
          else match request.command? with
            | none => .ok .overview
            | some command => command.run catalogue contents

end

end TermAlgebra.CommandLine
