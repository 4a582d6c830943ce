import TermAlgebra.Text.Hex

/-!
The inside of a JSON text literal. Written literals are plain ASCII: a character outside the range
from the space to the tilde is escaped by its UTF-16 units unless it has a short escape. Reading
accepts every escape of the format and refuses bare control characters.
-/
namespace TermAlgebra.Json

inductive Problem where
  | byteOrderMark
  | expectedValue
  | extraData
  | expectedComma
  | expectedColon
  | expectedName
  | unterminated
  | controlCharacter
  | badEscape
  | badUnicodeEscape
deriving DecidableEq

/-- A fault is reported where the given end of the document begins. -/
structure Fault where
  problem : Problem
  remaining : List Char
deriving DecidableEq

def unicodeEscape (unit : Nat) : List Char := '\\' :: 'u' :: Text.hexDigits 4 unit

/-- Beyond U+FFFF a character takes two units, the high surrogate first. -/
def codeEscape (code : Nat) : List Char :=
  if code < 0x10000 then unicodeEscape code
  else unicodeEscape (0xD800 + (code - 0x10000) / 0x400) ++
    unicodeEscape (0xDC00 + (code - 0x10000) % 0x400)

def escape (c : Char) : List Char :=
  match c with
  | '"' => ['\\', '"']
  | '\\' => ['\\', '\\']
  | '\n' => ['\\', 'n']
  | '\r' => ['\\', 'r']
  | '\t' => ['\\', 't']
  | '\x08' => ['\\', 'b']
  | '\x0c' => ['\\', 'f']
  | c => if ' ' ≤ c ∧ c ≤ '~' then [c] else codeEscape c.toNat

def shortEscape? : Char → Option Char
  | '"' => some '"'
  | '\\' => some '\\'
  | '/' => some '/'
  | 'b' => some '\x08'
  | 'f' => some '\x0c'
  | 'n' => some '\n'
  | 'r' => some '\r'
  | 't' => some '\t'
  | _ => none

/-- The unit written in the first four characters. -/
def unit? : List Char → Option Nat
  | a :: b :: c :: d :: _ => do
      return (((← Text.hexValue? a) * 16 + (← Text.hexValue? b)) * 16 + (← Text.hexValue? c)) * 16 +
        (← Text.hexValue? d)
  | _ => none

def isHighSurrogate (unit : Nat) : Bool := 0xD800 ≤ unit && unit < 0xDC00
def isLowSurrogate (unit : Nat) : Bool := 0xDC00 ≤ unit && unit < 0xE000

/-- The character of an escape whose digits follow the `u`, and the text after it. More text must
follow the four digits; a low surrogate is looked for only where more text follows its digits too.
A surrogate without its partner is no character and cannot stand in a text: U+0000 is read in its
place. -/
def readUnicodeEscape (digits : List Char) : Except Fault (Char × List Char) :=
  match unit? digits, digits.drop 4 with
  | none, _ => .error ⟨.badUnicodeEscape, 'u' :: digits⟩
  | some _, [] => .error ⟨.badUnicodeEscape, 'u' :: digits⟩
  | some high, after =>
      match isHighSurrogate high, after with
      | true, '\\' :: 'u' :: second =>
          if (second.drop 4).isEmpty then .ok (Char.ofNat high, after)
          else match unit? second with
            | none => .error ⟨.badUnicodeEscape, 'u' :: second⟩
            | some low =>
                if isLowSurrogate low then
                  .ok (Char.ofNat (0x10000 + (high - 0xD800) * 0x400 + (low - 0xDC00)),
                    second.drop 4)
                else .ok (Char.ofNat high, after)
      | _, _ => .ok (Char.ofNat high, after)

theorem readUnicodeEscape_length {digits rest : List Char} {c : Char}
    (h : readUnicodeEscape digits = .ok (c, rest)) : rest.length ≤ digits.length := by
  have hdrop : (digits.drop 4).length ≤ digits.length := by simp
  unfold readUnicodeEscape at h
  split at h
  · simp at h
  · simp at h
  · rename_i high after hunit hafter
    split at h
    · rename_i second _ hsplit
      have hsecond : (second.drop 4).length ≤ digits.length := by
        have := congrArg List.length hsplit
        simp only [List.length_cons, List.length_drop] at this ⊢
        omega
      split at h
      · simp only [Except.ok.injEq, Prod.mk.injEq] at h
        exact h.2 ▸ hdrop
      · split at h
        · simp at h
        · split at h <;> simp only [Except.ok.injEq, Prod.mk.injEq] at h
          · exact h.2 ▸ hsecond
          · exact h.2 ▸ hdrop
    · simp only [Except.ok.injEq, Prod.mk.injEq] at h
      exact h.2 ▸ hdrop

/-- The text of a literal up to its closing quote, and what follows the quote. `opening` is the
document from the opening quote on, and `read` holds the characters read so far, the last one
first. -/
def readText (opening : List Char) (read : List Char) :
    (text : List Char) → Except Fault (List Char × List Char)
  | [] => .error ⟨.unterminated, opening⟩
  | '"' :: rest => .ok (read.reverse, rest)
  | ['\\'] => .error ⟨.unterminated, opening⟩
  | '\\' :: 'u' :: digits =>
      match _h : readUnicodeEscape digits with
      | .error fault => .error fault
      | .ok (c, rest) => readText opening (c :: read) rest
  | '\\' :: mark :: rest =>
      match shortEscape? mark with
      | some c => readText opening (c :: read) rest
      | none => .error ⟨.badEscape, '\\' :: mark :: rest⟩
  | c :: rest =>
      if c < ' ' then .error ⟨.controlCharacter, c :: rest⟩ else readText opening (c :: read) rest
termination_by text => text.length
decreasing_by
  · have := readUnicodeEscape_length _h
    simp only [List.length_cons]
    omega
  · simp only [List.length_cons]
    omega
  · simp

theorem readText_length {opening read text characters rest : List Char}
    (h : readText opening read text = .ok (characters, rest)) : rest.length < text.length := by
  fun_induction readText opening read text with
  | case1 => simp at h
  | case2 => simp_all
  | case3 => simp at h
  | case4 => simp at h
  | case5 read digits c after hread ih =>
    have := readUnicodeEscape_length hread
    have := ih h
    simp only [List.length_cons]
    omega
  | case6 read mark after c _ hmark ih =>
    have := ih h
    simp only [List.length_cons]
    omega
  | case7 => simp at h
  | case8 => simp at h
  | case9 read c after _ _ _ _ hc ih =>
    have := ih h
    simp only [List.length_cons]
    omega

end TermAlgebra.Json
