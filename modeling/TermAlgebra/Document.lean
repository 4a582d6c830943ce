import TermAlgebra.SExpr.Decode

/-!
Expressions in files. A file holds the JSON document of an S-expression in UTF-8; every line end
is taken as a line feed. Loading reports a file that cannot be opened and a document that is at
fault as a rejection. Bytes that are no UTF-8 and references that cannot be resolved make the
loading itself fail.
-/
namespace TermAlgebra

/-- Files in a directory, by the parts of their paths. All of them may be read. -/
structure Folder where
  files : List (List String × ByteArray)

namespace Folder

/-- Empty parts and single dots say nothing. -/
def parts (path : String) : List String :=
  (path.splitOn "/").filter fun part => part ≠ "" && part ≠ "."

/-- The slashes at the beginning: of two alone both count, of more only one. -/
def root (path : String) : String :=
  if path.startsWith "//" && !path.startsWith "///" then "//"
  else if path.startsWith "/" then "/"
  else ""

/-- The path in its plainest form. -/
def plainPath (path : String) : String :=
  let plain := root path ++ "/".intercalate (parts path)
  if plain = "" then "." else plain

def ofList (files : List (String × ByteArray)) : Folder :=
  ⟨files.map fun (path, bytes) => (parts path, bytes)⟩

variable (folder : Folder) (path : String)

/-- The bytes of a name in a directory, and of a whole path, at most. -/
def nameBound : Nat := 255
def pathBound : Nat := 4095

def isTooLong (part : String) : Bool := nameBound < part.utf8ByteSize

/-- A path that leads out of the folder: above it there are only directories that lead further up.
-/
def outside (parts : List String) : Failure :=
  match parts.find? (· ≠ "..") with
  | none => .isDirectory (plainPath path)
  | some part =>
      if isTooLong part then .fileNameTooLong (plainPath path) else .noSuchFile (plainPath path)

/-- Follows the parts of a path from a directory inside the folder. -/
def follow (directory : List String) : List String → Except Failure ByteArray
  | [] => .error (.isDirectory (plainPath path))
  | part :: rest =>
      if isTooLong part then .error (.fileNameTooLong (plainPath path))
      else if part = ".." then
        if directory.isEmpty then .error (outside path rest)
        else follow directory.dropLast rest
      else
        let place := directory ++ [part]
        match folder.files.find? fun file => file.1 = place with
        | some (_, bytes) =>
            if rest.isEmpty then .ok bytes else .error (.notDirectory (plainPath path))
        | none =>
            if folder.files.any fun file => place.isPrefixOf file.1 then follow place rest
            else .error (.noSuchFile (plainPath path))

/-- The bytes of a file. -/
def read : Except Failure ByteArray :=
  if path.contains '\x00' then .error .badPath
  else if pathBound < (plainPath path).utf8ByteSize then .error (.fileNameTooLong (plainPath path))
  else if path.startsWith "/" then .error (outside path (parts path))
  else folder.follow path [] (parts path)

end Folder

namespace Document

/-- A carriage return, with a line feed after it or without, ends a line. -/
def unifyLineEnds : List Char → List Char
  | [] => []
  | '\r' :: '\n' :: rest => '\n' :: unifyLineEnds rest
  | '\r' :: rest => '\n' :: unifyLineEnds rest
  | c :: rest => c :: unifyLineEnds rest

def decode (bytes : ByteArray) : Except Failure String :=
  match String.fromUTF8? bytes with
  | some text => .ok (String.ofList (unifyLineEnds text.toList))
  | none => .error .undecodable

/-- What becomes of a file: an expression, or the reason for its rejection. -/
inductive Loaded where
  | value (value : Value)
  | rejected (failure : Failure)

def load (algebra : Algebra) (reading : SExpr.Reading) (contents : Except Failure ByteArray) :
    Outcome Loaded :=
  match contents with
  | .error failure => if failure.isFileAccess then .ok (.rejected failure) else .fail failure
  | .ok bytes =>
      match decode bytes with
      | .error failure => .fail failure
      | .ok text => do
          match ← (SExpr.load algebra reading text).attempt with
          | .ok value => return .value value
          | .error failure =>
              if failure.isRejection then return .rejected failure else .fail failure

end Document
end TermAlgebra
