import TermAlgebra.CommandLine.Arguments

/-!
The commands of the program: listing the standard theories, the reference for a theory, its check,
and showing an expression from a file.
-/
namespace TermAlgebra.CommandLine

inductive Format where
  | sexpr
  | unicode
  | latex
  | json
deriving DecidableEq

def Format.ofName? : String → Option Format
  | "sexpr" => some .sexpr
  | "unicode" => some .unicode
  | "latex" => some .latex
  | "json" => some .json
  | _ => none

inductive Command where
  | theories
  | reference (theory : String)
  | check (theory : String) (verbose : Bool)
  | display (path : String) (theory? : Option String) (format? : Option Format)

/-- A log level, a theory or a format is missing where its option was given without a value. -/
structure Request where
  logLevel? : Option String
  command? : Option Command

def helpOption : OptionRule := ⟨["-h", "--help"], .help⟩

def grammar : Grammar where
  options := [helpOption, ⟨["--log-level"], .value "log-level" none⟩]
  takesCommand := true

def theoriesGrammar : Grammar where
  options := [helpOption]

def referenceGrammar : Grammar where
  options := [helpOption]
  positionals := ["theory"]
  required := ["theory"]

def checkGrammar : Grammar where
  options := [helpOption, ⟨["--verbose", "-v"], .flag "verbose"⟩]
  positionals := ["theory"]
  required := ["theory"]

def displayGrammar : Grammar where
  options := [helpOption, ⟨["--theory"], .value "theory" none⟩,
    ⟨["--format"], .value "format" (some ["json", "latex", "sexpr", "unicode"])⟩]
  positionals := ["file"]
  required := ["file", "theory"]

namespace Parsed

variable (parsed : Parsed)

def text (key : String) : String := ((parsed.values.get? key).bind id).getD ""

def format? : Option Format :=
  match parsed.values.get? "format" with
  | none => some .unicode
  | some value? => value?.bind Format.ofName?

end Parsed

/-- The grammar of a command and how the command is put together from what was read. -/
def commandNamed? : String → Option (Grammar × (Parsed → Command))
  | "theories" => some (theoriesGrammar, fun _ => .theories)
  | "reference" => some (referenceGrammar, fun parsed => .reference (parsed.text "theory"))
  | "check" => some (checkGrammar, fun parsed =>
      .check (parsed.text "theory") (parsed.flags.contains "verbose"))
  | "show" => some (displayGrammar, fun parsed =>
      .display (parsed.text "file") ((parsed.values.get? "theory").bind id) parsed.format?)
  | _ => none

/-- Arguments that are not understood are reported only after the command has read its own. -/
def Request.read (args : List String) : Except Stop Request := do
  let parsed ← grammar.read args
  let logLevel? := (parsed.values.get? "log-level").getD (some "WARNING")
  match parsed.command? with
  | none => if parsed.extras.isEmpty then return ⟨logLevel?, none⟩ else throw .misuse
  | some [] => throw .misuse
  | some (name :: rest) =>
      match commandNamed? name with
      | none => throw .misuse
      | some (own, build) =>
          let found ← own.read rest
          if parsed.extras.isEmpty && found.extras.isEmpty then
            return ⟨logLevel?, some (build found)⟩
          else throw .misuse

/-- The capital of a letter, as far as a name of ASCII capitals can result. -/
def capital (c : Char) : Char :=
  if c = 'ı' then 'I' else if c = 'ſ' then 'S' else c.toUpper

def logLevels : List String :=
  ["CRITICAL", "FATAL", "ERROR", "WARN", "WARNING", "INFO", "DEBUG", "NOTSET"]

def isLogLevel (text : String) : Bool := logLevels.contains (text.map capital)

end TermAlgebra.CommandLine
