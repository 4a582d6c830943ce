import Mathlib.Data.List.Basic
import TermAlgebra.Json.Escape
import TermAlgebra.Json.Writer

/-!
Reading a text literal undoes writing it, character by character. A character is written bare, by a
short escape or by its UTF-16 units. The reader looks for a low surrogate wherever it has read a
high one, and a character is never a surrogate itself; so no unit is ever taken together with
one of the next character. The reader wants more text after an escape of four digits, and the
closing quote is always there.
-/
namespace TermAlgebra.Json

theorem unit?_hexDigits {unit : Nat} (h : unit < 0x10000) (rest : List Char) :
    unit? (Text.hexDigits 4 unit ++ rest) = some unit := by
  simp only [Text.hexDigits, List.nil_append, List.cons_append, unit?]
  rw [Text.hexValue?_hexDigit _ (by omega), Text.hexValue?_hexDigit _ (by omega),
    Text.hexValue?_hexDigit _ (by omega), Text.hexValue?_hexDigit _ (by omega)]
  simp only [Option.bind_eq_bind, Option.bind_some, Option.pure_def, Option.some.injEq]
  omega

theorem drop_hexDigits (unit : Nat) (rest : List Char) :
    (Text.hexDigits 4 unit ++ rest).drop 4 = rest :=
  List.drop_left' (Text.hexDigits_length 4 unit)

/-- A unit that is no high surrogate is a character of its own. -/
theorem readUnicodeEscape_unit {unit : Nat} (h : unit < 0x10000)
    (hsingle : isHighSurrogate unit = false) {rest : List Char} (hrest : rest ≠ []) :
    readUnicodeEscape (Text.hexDigits 4 unit ++ rest) = .ok (Char.ofNat unit, rest) := by
  obtain ⟨next, tail, rfl⟩ := List.exists_cons_of_ne_nil hrest
  rw [readUnicodeEscape, unit?_hexDigits h, drop_hexDigits]
  simp only [hsingle]

/-- A high surrogate and the low one after it are one character together. -/
theorem readUnicodeEscape_pair {high low : Nat} (hhigh : isHighSurrogate high = true)
    (hlow : isLowSurrogate low = true) {rest : List Char} (hrest : rest ≠ []) :
    readUnicodeEscape (Text.hexDigits 4 high ++ (unicodeEscape low ++ rest)) =
      .ok (Char.ofNat (0x10000 + (high - 0xD800) * 0x400 + (low - 0xDC00)), rest) := by
  have hbounds : high < 0x10000 ∧ low < 0x10000 := by
    simp only [isHighSurrogate, isLowSurrogate, Bool.and_eq_true, decide_eq_true_eq] at hhigh hlow
    omega
  have hmore : rest.isEmpty = false := by simpa using hrest
  rw [readUnicodeEscape, unit?_hexDigits hbounds.1, drop_hexDigits]
  simp only [unicodeEscape, List.cons_append, hhigh, unit?_hexDigits hbounds.2, drop_hexDigits,
    hmore, hlow, Bool.false_eq_true, if_false, if_true]

section

variable {opening read rest : List Char}

theorem readText_unicodeEscape {digits : List Char} {c : Char}
    (h : readUnicodeEscape digits = .ok (c, rest)) :
    readText opening read ('\\' :: 'u' :: digits) = readText opening (c :: read) rest := by
  rw [readText]
  split
  · rename_i hfault
    cases h.symm.trans hfault
  · rename_i hread
    cases h.symm.trans hread
    rfl

theorem readText_shortEscape {mark c : Char} (hmark : mark ≠ 'u')
    (h : shortEscape? mark = some c) :
    readText opening read ('\\' :: mark :: rest) = readText opening (c :: read) rest := by
  rw [readText]
  · simp only [h]
  · exact hmark

theorem readText_bare {c : Char} (hquote : c ≠ '"') (hslash : c ≠ '\\') (hspace : ' ' ≤ c) :
    readText opening read (c :: rest) = readText opening (c :: read) rest := by
  rw [readText, if_neg (Char.not_lt.mpr hspace)]
  · exact hquote
  · exact fun heq _ => hslash heq
  · exact fun _ heq _ => hslash heq
  · exact fun _ _ heq _ => hslash heq

theorem toNat_not_surrogate (c : Char) : c.toNat < 0xD800 ∨ 0xDFFF < c.toNat ∧ c.toNat < 0x110000 :=
  c.valid

theorem readText_codeEscape (c : Char) (hrest : rest ≠ []) :
    readText opening read (codeEscape c.toNat ++ rest) = readText opening (c :: read) rest := by
  have hvalid := toNat_not_surrogate c
  by_cases hplane : c.toNat < 0x10000
  · have hsingle : isHighSurrogate c.toNat = false := by
      simp only [isHighSurrogate, Bool.and_eq_false_iff, decide_eq_false_iff_not]
      omega
    rw [codeEscape, if_pos hplane, unicodeEscape, List.cons_append, List.cons_append,
      readText_unicodeEscape (readUnicodeEscape_unit hplane hsingle hrest), Char.ofNat_toNat]
  · have hhigh : isHighSurrogate (0xD800 + (c.toNat - 0x10000) / 0x400) = true := by
      simp only [isHighSurrogate, Bool.and_eq_true, decide_eq_true_eq]
      omega
    have hlow : isLowSurrogate (0xDC00 + (c.toNat - 0x10000) % 0x400) = true := by
      simp only [isLowSurrogate, Bool.and_eq_true, decide_eq_true_eq]
      omega
    have hcode : 0x10000 + (0xD800 + (c.toNat - 0x10000) / 0x400 - 0xD800) * 0x400 +
        (0xDC00 + (c.toNat - 0x10000) % 0x400 - 0xDC00) = c.toNat := by omega
    rw [codeEscape, if_neg hplane, List.append_assoc]
    conv_lhs => rw [unicodeEscape, List.cons_append, List.cons_append]
    rw [readText_unicodeEscape (readUnicodeEscape_pair hhigh hlow hrest), hcode, Char.ofNat_toNat]

theorem readText_escape (c : Char) (hrest : rest ≠ []) :
    readText opening read (escape c ++ rest) = readText opening (c :: read) rest := by
  unfold escape
  split
  case h_8 hquote hslash _ _ _ _ _ =>
    split
    · rename_i hprintable
      exact readText_bare hquote hslash hprintable.1
    · exact readText_codeEscape _ hrest
  all_goals exact readText_shortEscape (by decide) rfl

/-- Reading a literal from behind its opening quote gives the characters back. -/
theorem readText_flatMap_escape (characters : List Char) :
    readText opening read (characters.flatMap escape ++ '"' :: rest) =
      .ok (read.reverse ++ characters, rest) := by
  induction characters generalizing read with
  | nil => rw [List.flatMap_nil, List.nil_append, readText, List.append_nil]
  | cons c characters ih =>
    rw [List.flatMap_cons, List.append_assoc, readText_escape c (by simp), ih]
    simp

end

end TermAlgebra.Json
