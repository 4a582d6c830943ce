import TermAlgebra.Theory.Check
import TermAlgebra.Theory.Domain

/-!
A Markdown reference for a theory: its type constructors, its term constructors with their domains,
the generators, and what the check of the theory found.
-/
namespace TermAlgebra.Theory

variable (theory : Theory)

/-- A type without arguments is shown as a bare name. -/
def typeText : Term → String
  | .app head [] => head
  | type => type.print

def paramsText (params : List String) (context : Table Term) : String :=
  ", ".intercalate <| params.filterMap fun param =>
    (context.get? param).map fun type => param ++ "::" ++ typeText type

def codeSpan (text : String) : String := "`" ++ text ++ "`"

/-- A description that is there and not empty. -/
def described (doc? : Option String) : Option String := doc?.filter (· ≠ "")

def typeRow (constructor : TypeConstructor) : String :=
  let signature :=
    if constructor.params.isEmpty then constructor.name
    else constructor.name ++ "(" ++ paramsText constructor.params constructor.context ++ ")"
  let names := ", ".intercalate constructor.params
  "| " ++ codeSpan signature ++ " | " ++ (if names = "" then "—" else names) ++ " | " ++
    (described constructor.doc?).getD "" ++ " |"

def termSignature (constructor : TermConstructor) : String :=
  constructor.name ++ "(" ++ paramsText constructor.params constructor.context ++ ") :: " ++
    typeText constructor.result

def termLines (constructor : TermConstructor) : List String :=
  let domain := constructor.domain theory
  ["### " ++ codeSpan constructor.name, "", "```", termSignature constructor, "```"] ++
  (match described constructor.doc? with
    | some doc => ["", doc]
    | none => []) ++
  (if domain.isEmpty then []
    else ["", "Domain (checked with `strict=True`):"] ++
      domain.map fun equation => "- " ++ codeSpan equation.print) ++
  (if constructor.definition?.isSome then ["", "Has a default implementation in the theory."]
    else []) ++
  [""]

def generatorLine (constructor : TypeConstructor) : String :=
  let type :=
    if constructor.params.isEmpty then constructor.name
    else constructor.name ++ "(" ++ ", ".intercalate constructor.params ++ ")"
  "- " ++ codeSpan (constructor.name ++ "(" ++ ", ".intercalate ("value" :: constructor.params) ++
    ") :: " ++ type)

def diagnosticLine (diagnostic : Diagnostic) : String :=
  "- **" ++ diagnostic.issue.severity.text ++ "** [" ++ diagnostic.issue.rule ++ "]" ++
    (match diagnostic.subject? with
      | some subject => " " ++ codeSpan subject ++ ":"
      | none => "") ++
    " " ++ diagnostic.issue.message

def referenceLines (diagnostics : List Diagnostic) : List String :=
  ["# " ++ theory.name, ""] ++
  (match described theory.doc? with
    | some doc => [doc, ""]
    | none => []) ++
  ["## Type constructors", "", "| Type | Parameters | Description |",
    "|------|------------|-------------|"] ++
  theory.types.map typeRow ++
  ["", "## Term constructors", ""] ++
  theory.terms.flatMap theory.termLines ++
  ["## Generators", ""] ++
  theory.types.map generatorLine ++
  (if diagnostics.isEmpty then []
    else ["", "## Diagnostics", ""] ++ diagnostics.map diagnosticLine)

def reference : Except VariableResult String :=
  theory.check.map fun diagnostics =>
    String.join ((theory.referenceLines diagnostics).map (· ++ "\n"))

end TermAlgebra.Theory
