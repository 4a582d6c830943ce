import TermAlgebra.CommandLine.Run

/-!
The program: reads the named file, if there is one, and answers the command line.
-/
namespace TermAlgebra

def usage : String :=
  "usage: termalgebra [-h] [--log-level LEVEL] {theories,reference,check,show} ...\n"

/-- The number of a system error. Some calls report it negated. -/
def errorNumber (code : UInt32) : Nat := if code < 0x80000000 then code.toNat else (-code).toNat

/-- What an error of the system says of the file at the path, if it is one of the known failures. -/
def fileFailure? (path : String) : IO.Error → Option Failure
  | .noFileOrDirectory .. => some (.noSuchFile path)
  | .inappropriateType _ code _ =>
      some (if errorNumber code = 20 then .notDirectory path else .isDirectory path)
  | .invalidArgument _ code _ =>
      if errorNumber code = 36 then some (.fileNameTooLong path) else none
  | _ => none

/-- The bytes of a file on disk. With an error of the system that is none of the known failures the
path leads nowhere, and what is to be said of the file stands beside the failure. -/
def readFile (path : String) : IO (Except Failure ByteArray × Option String) := do
  let plain := Folder.plainPath path
  try
    return (.ok (← IO.FS.readBinFile plain), none)
  catch error =>
    match fileFailure? plain error with
    | some failure => return (.error failure, none)
    | none => return (.error .badPath, some (CommandLine.loadingError path (toString error)))

end TermAlgebra

open TermAlgebra CommandLine in
def main (args : List String) : IO UInt32 := do
  let path? := match Request.read args with
    | .ok ⟨_, some (.display path _ _)⟩ => some path
    | _ => none
  let (contents, notice?) ← match path? with
    | some path => readFile path
    | none => pure (.error .badPath, none)
  match run standardCatalogue (fun _ => contents) args, notice? with
  | .ok (.printed status output errors), _ =>
      IO.print output
      IO.eprint errors
      return status.toUInt32
  | .ok .overview, _ =>
      IO.print usage
      return 1
  | .ok (.stopped .help), _ =>
      IO.print usage
      return 0
  | .ok (.stopped .misuse), _ =>
      IO.eprint usage
      return 2
  | .error .badPath, some notice =>
      IO.eprint notice
      return 1
  | .error failure, _ =>
      IO.eprintln failure.explanation
      return 1
