import TermAlgebra.Json.Escape
import TermAlgebra.Number.Numeral
import TermAlgebra.Value.Equality

/-!
Reading a JSON document into a value. Besides the standard the reader accepts `NaN`, `Infinity` and
`-Infinity`. A number with a fraction or an exponent is a floating-point number and any other is an
integer, of any number of digits. A key that occurs again keeps its first place and takes the last
datum. The reader stops at the first fault and reports its line and column.
-/
namespace TermAlgebra.Json

def isSpace (c : Char) : Bool := c = ' ' || c = '\t' || c = '\n' || c = '\r'

def constant? : List Char → Option (Value × List Char)
  | 'n' :: 'u' :: 'l' :: 'l' :: rest => some (.null, rest)
  | 't' :: 'r' :: 'u' :: 'e' :: rest => some (.bool true, rest)
  | 'f' :: 'a' :: 'l' :: 's' :: 'e' :: rest => some (.bool false, rest)
  | 'N' :: 'a' :: 'N' :: rest => some (.float (.nan 0), rest)
  | 'I' :: 'n' :: 'f' :: 'i' :: 'n' :: 'i' :: 't' :: 'y' :: rest =>
      some (.float (.infinite false), rest)
  | '-' :: 'I' :: 'n' :: 'f' :: 'i' :: 'n' :: 'i' :: 't' :: 'y' :: rest =>
      some (.float (.infinite true), rest)
  | _ => none

/-- A text, a constant or a number. -/
def readScalar (text : List Char) : Except Fault (Value × List Char) :=
  match text with
  | '"' :: body =>
      match readText text [] body with
      | .error fault => .error fault
      | .ok (characters, rest) => .ok (.str (String.ofList characters), rest)
  | text =>
      match constant? text with
      | some found => .ok found
      | none =>
          match Numeral.read? text with
          | some (numeral, rest) =>
              let number : Value :=
                if numeral.isInteger then .int numeral.toInt else .float numeral.toBinary64
              .ok (number, rest)
          | none => .error ⟨.expectedValue, text⟩

theorem constant?_length {text rest : List Char} {value : Value}
    (h : constant? text = some (value, rest)) : rest.length < text.length := by
  unfold constant? at h
  split at h <;> simp only [Option.some.injEq, Prod.mk.injEq, reduceCtorEq] at h <;>
    obtain ⟨_, rfl⟩ := h <;> simp only [List.length_cons] <;> omega

theorem readScalar_length {text rest : List Char} {value : Value}
    (h : readScalar text = .ok (value, rest)) : rest.length < text.length := by
  unfold readScalar at h
  split at h
  · split at h
    · simp at h
    · rename_i hread
      obtain ⟨_, rfl⟩ := Prod.mk.inj (Except.ok.inj h)
      have := readText_length hread
      simp only [List.length_cons]
      omega
  · split at h
    · rename_i hconstant
      exact constant?_length (Except.ok.inj h ▸ hconstant)
    · split at h
      · rename_i hread
        obtain ⟨_, rfl⟩ := Prod.mk.inj (Except.ok.inj h)
        exact Numeral.read?_length hread
      · simp at h

/-- A list that is being read holds its items, the last one first. A dictionary holds its entries
and the key whose datum is due. -/
inductive Container where
  | list (items : List Value)
  | dict (entries : List (Value × Value)) (key : Value)

/-- What the document allows next. The inside of an empty container may also end at once. -/
inductive Stage where
  | value (mayClose : Bool)
  | key (entries : List (Value × Value)) (mayClose : Bool)
  | colon (entries : List (Value × Value)) (key : Value)
  | complete (value : Value)

/-- The containers around the current place, innermost first. -/
structure Reading where
  around : List Container
  stage : Stage

def Reading.begin : Reading := ⟨[], .value false⟩

/-- After a complete value its container goes on or ends. -/
def Reading.afterValue (value : Value) (around : List Container) (c : Char) (rest : List Char) :
    Except Fault Reading :=
  match around with
  | [] => .error ⟨.extraData, c :: rest⟩
  | .list items :: around =>
      if c = ',' then .ok ⟨.list (value :: items) :: around, .value false⟩
      else if c = ']' then .ok ⟨around, .complete (.list (value :: items).reverse)⟩
      else .error ⟨.expectedComma, c :: rest⟩
  | .dict entries key :: around =>
      let entries := Value.insert key value entries
      if c = ',' then .ok ⟨around, .key entries false⟩
      else if c = '}' then .ok ⟨around, .complete (.dict entries)⟩
      else .error ⟨.expectedComma, c :: rest⟩

/-- One step over text that begins with a character other than white space. -/
def Reading.step (reading : Reading) (c : Char) (rest : List Char) :
    Except Fault (Reading × List Char) :=
  match reading.stage with
  | .value mayClose =>
      match mayClose && c = ']', reading.around with
      | true, .list items :: around => .ok (⟨around, .complete (.list items.reverse)⟩, rest)
      | _, around =>
          if c = '[' then .ok (⟨.list [] :: around, .value true⟩, rest)
          else if c = '{' then .ok (⟨around, .key [] true⟩, rest)
          else match readScalar (c :: rest) with
            | .error fault => .error fault
            | .ok (value, rest) => .ok (⟨around, .complete value⟩, rest)
  | .key entries mayClose =>
      if mayClose && c = '}' then .ok (⟨reading.around, .complete (.dict entries)⟩, rest)
      else if c = '"' then
        match readText (c :: rest) [] rest with
        | .error fault => .error fault
        | .ok (characters, rest) =>
            .ok (⟨reading.around, .colon entries (.str (String.ofList characters))⟩, rest)
      else .error ⟨.expectedName, c :: rest⟩
  | .colon entries key =>
      if c = ':' then .ok (⟨.dict entries key :: reading.around, .value false⟩, rest)
      else .error ⟨.expectedColon, c :: rest⟩
  | .complete value =>
      match afterValue value reading.around c rest with
      | .error fault => .error fault
      | .ok reading => .ok (reading, rest)

/-- The verdict at the end of the document. -/
def Reading.finish (reading : Reading) : Except Fault Value :=
  match reading.stage, reading.around with
  | .value _, _ => .error ⟨.expectedValue, []⟩
  | .key .., _ => .error ⟨.expectedName, []⟩
  | .colon .., _ => .error ⟨.expectedColon, []⟩
  | .complete value, [] => .ok value
  | .complete _, _ => .error ⟨.expectedComma, []⟩

theorem Reading.step_length {reading next : Reading} {c : Char} {rest after : List Char}
    (h : reading.step c rest = .ok (next, after)) : after.length ≤ rest.length := by
  unfold step at h
  split at h
  · split at h
    · obtain ⟨_, rfl⟩ := Prod.mk.inj (Except.ok.inj h)
      exact Nat.le_refl _
    · split at h
      · obtain ⟨_, rfl⟩ := Prod.mk.inj (Except.ok.inj h)
        exact Nat.le_refl _
      · split at h
        · obtain ⟨_, rfl⟩ := Prod.mk.inj (Except.ok.inj h)
          exact Nat.le_refl _
        · split at h
          · simp at h
          · rename_i hscalar
            obtain ⟨_, rfl⟩ := Prod.mk.inj (Except.ok.inj h)
            exact Nat.le_of_lt_succ (readScalar_length hscalar)
  · split at h
    · obtain ⟨_, rfl⟩ := Prod.mk.inj (Except.ok.inj h)
      exact Nat.le_refl _
    · split at h
      · split at h
        · simp at h
        · rename_i hread
          obtain ⟨_, rfl⟩ := Prod.mk.inj (Except.ok.inj h)
          exact Nat.le_of_lt (readText_length hread)
      · simp at h
  · split at h
    · obtain ⟨_, rfl⟩ := Prod.mk.inj (Except.ok.inj h)
      exact Nat.le_refl _
    · simp at h
  · split at h
    · simp at h
    · obtain ⟨_, rfl⟩ := Prod.mk.inj (Except.ok.inj h)
      exact Nat.le_refl _

/-- Steps through the text, leaving out the white space between the parts. -/
def Reading.run (reading : Reading) : List Char → Except Fault Value
  | [] => reading.finish
  | c :: rest =>
      if isSpace c then reading.run rest
      else match _h : reading.step c rest with
        | .error fault => .error fault
        | .ok (next, after) => next.run after
termination_by text => text.length
decreasing_by
  · simp
  · have := Reading.step_length _h
    simp only [List.length_cons]
    omega

structure ReadError where
  problem : Problem
  line : Nat
  column : Nat
  position : Nat
deriving DecidableEq

/-- Lines and columns count from one, positions from zero. -/
def Fault.locate (document : List Char) (fault : Fault) : ReadError :=
  let position := document.length - fault.remaining.length
  let before := document.take position
  ⟨fault.problem, before.count '\n' + 1, (before.reverse.takeWhile (· ≠ '\n')).length + 1, position⟩

def Problem.text : Problem → String
  | .byteOrderMark => "Unexpected UTF-8 BOM (decode using utf-8-sig)"
  | .expectedValue => "Expecting value"
  | .extraData => "Extra data"
  | .expectedComma => "Expecting ',' delimiter"
  | .expectedColon => "Expecting ':' delimiter"
  | .expectedName => "Expecting property name enclosed in double quotes"
  | .unterminated => "Unterminated string starting at"
  | .controlCharacter => "Invalid control character at"
  | .badEscape => "Invalid \\escape"
  | .badUnicodeEscape => "Invalid \\uXXXX escape"

def ReadError.message (error : ReadError) : String :=
  error.problem.text ++ ": line " ++ toString error.line ++ " column " ++ toString error.column ++
    " (char " ++ toString error.position ++ ")"

/-- A document may not begin with a byte order mark. -/
def read (document : String) : Except ReadError Value :=
  let text := document.toList
  let result : Except Fault Value := match text with
    | '\ufeff' :: _ => .error ⟨.byteOrderMark, text⟩
    | _ => Reading.begin.run text
  result.mapError (Fault.locate text)

end TermAlgebra.Json
