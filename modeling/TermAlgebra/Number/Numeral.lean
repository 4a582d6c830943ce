import TermAlgebra.Number.Binary64

/-!
Written numbers: an optional minus, a whole part without idle zeros, and optionally a fraction and
an exponent, each of any number of digits. A point or an exponent mark that no digit follows is left
unread.
-/
namespace TermAlgebra

structure Numeral where
  negative : Bool
  whole : List Char
  fraction : List Char
  exponent : Int
  isInteger : Bool

namespace Numeral

def isDigit (c : Char) : Bool := '0' ≤ c && c ≤ '9'

def digitsValue (digits : List Char) : Nat :=
  digits.foldl (fun value c => 10 * value + (c.toNat - 48)) 0

/-- One digit or more. -/
def readDigits? (text : List Char) : Option (List Char × List Char) :=
  let digits := text.takeWhile isDigit
  if digits.isEmpty then none else some (digits, text.dropWhile isDigit)

def readWhole? : List Char → Option (List Char × List Char)
  | '0' :: rest => some (['0'], rest)
  | text => readDigits? text

def readFraction? : List Char → Option (List Char × List Char)
  | '.' :: text => readDigits? text
  | _ => none

/-- Whether a minus stands in front, and the text without a sign. -/
def readSign : List Char → Bool × List Char
  | '-' :: rest => (true, rest)
  | '+' :: rest => (false, rest)
  | text => (false, text)

def readExponent? : List Char → Option (Int × List Char)
  | mark :: text =>
      if mark = 'e' ∨ mark = 'E' then
        (readDigits? (readSign text).2).map fun (digits, rest) =>
          let value : Int := digitsValue digits
          (if (readSign text).1 then -value else value, rest)
      else none
  | [] => none

/-- Whether a minus stands in front, and the text after it. -/
def readMinus : List Char → Bool × List Char
  | '-' :: rest => (true, rest)
  | text => (false, text)

/-- The longest numeral at the front of a text, and what follows it. -/
def read? (text : List Char) : Option (Numeral × List Char) :=
  let (negative, text) := readMinus text
  match readWhole? text with
  | none => none
  | some (whole, afterWhole) =>
      let (fraction, afterFraction) := (readFraction? afterWhole).getD ([], afterWhole)
      match readExponent? afterFraction with
      | some (exponent, rest) => some (⟨negative, whole, fraction, exponent, false⟩, rest)
      | none => some (⟨negative, whole, fraction, 0, fraction.isEmpty⟩, afterFraction)

theorem readDigits?_length {text digits rest : List Char}
    (h : readDigits? text = some (digits, rest)) : rest.length < text.length := by
  unfold readDigits? at h
  simp only [List.isEmpty_iff] at h
  split at h
  · simp at h
  · rename_i hne
    obtain ⟨rfl, rfl⟩ := Prod.mk.inj (Option.some.inj h)
    have := congrArg List.length (List.takeWhile_append_dropWhile (p := isDigit) (l := text))
    rw [List.length_append] at this
    have := List.length_pos_iff.2 hne
    omega

theorem readWhole?_length {text digits rest : List Char}
    (h : readWhole? text = some (digits, rest)) : rest.length < text.length := by
  unfold readWhole? at h
  split at h
  · cases h; simp
  · exact readDigits?_length h

theorem readFraction?_length {text digits rest : List Char}
    (h : readFraction? text = some (digits, rest)) : rest.length < text.length := by
  unfold readFraction? at h
  split at h
  · have := readDigits?_length h
    simp only [List.length_cons]
    omega
  · simp at h

theorem readSign_length (text : List Char) : (readSign text).2.length ≤ text.length := by
  unfold readSign
  split <;> simp

theorem readExponent?_length {text rest : List Char} {exponent : Int}
    (h : readExponent? text = some (exponent, rest)) : rest.length < text.length := by
  unfold readExponent? at h
  split at h
  · split at h
    · rename_i mark text _
      obtain ⟨⟨digits, after⟩, hdigits, heq⟩ := Option.map_eq_some_iff.1 h
      obtain ⟨_, rfl⟩ := Prod.mk.inj heq
      have := readDigits?_length hdigits
      have := readSign_length text
      simp only [List.length_cons]
      omega
    · simp at h
  · simp at h

theorem readMinus_length (text : List Char) : (readMinus text).2.length ≤ text.length := by
  unfold readMinus
  split <;> simp

theorem read?_length {text rest : List Char} {numeral : Numeral}
    (h : read? text = some (numeral, rest)) : rest.length < text.length := by
  have hminus := readMinus_length text
  unfold read? at h
  simp only at h
  split at h
  · simp at h
  · rename_i whole afterWhole hwhole
    have hwhole := readWhole?_length hwhole
    have hfraction : ((readFraction? afterWhole).getD ([], afterWhole)).2.length ≤
        afterWhole.length := by
      cases hread : readFraction? afterWhole with
      | none => simp
      | some found => exact Nat.le_of_lt (readFraction?_length hread)
    split at h
    · rename_i hexponent
      have := readExponent?_length hexponent
      obtain ⟨_, rfl⟩ := Prod.mk.inj (Option.some.inj h)
      omega
    · obtain ⟨_, rfl⟩ := Prod.mk.inj (Option.some.inj h)
      omega

def toInt (numeral : Numeral) : Int :=
  let value : Int := digitsValue numeral.whole
  if numeral.negative then -value else value

def toBinary64 (numeral : Numeral) : Binary64 :=
  .ofDecimal numeral.negative (digitsValue (numeral.whole ++ numeral.fraction))
    (numeral.exponent - numeral.fraction.length)

end Numeral

/-- Reads the text of a number that is not NaN: a numeral or a signed infinity. -/
def Binary64.ofText? (text : String) : Option Binary64 :=
  if text = "inf" then some (.infinite false)
  else if text = "-inf" then some (.infinite true)
  else match Numeral.read? text.toList with
    | some (numeral, []) => some numeral.toBinary64
    | _ => none

end TermAlgebra
