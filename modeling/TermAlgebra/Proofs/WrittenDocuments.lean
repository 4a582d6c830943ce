import TermAlgebra.Json.Reader
import TermAlgebra.Proofs.DecodedEncodings
import TermAlgebra.Proofs.EscapedTexts

/-!
Reading a document undoes writing it, for nested lists over texts, integers, truth values and
nothing; only which texts are names is lost. The reader is a machine with a stack of open lists.
What a written value does to it does not depend on the lists around the value, and an integer ends
where its digits do, because a comma or a bracket follows everything that is written inside a list.
-/
namespace TermAlgebra

namespace Numeral

theorem isDigit_of_isDigit {c : Char} (h : c.isDigit = true) : isDigit c = true := by
  simp only [Char.isDigit, Bool.and_eq_true, decide_eq_true_eq] at h
  simp only [isDigit, Bool.and_eq_true, decide_eq_true_eq]
  exact h

theorem isDigit_of_mem_toDigits {n : Nat} {c : Char} (h : c ∈ Nat.toDigits 10 n) :
    isDigit c = true :=
  isDigit_of_isDigit (Nat.isDigit_of_mem_toDigits (by decide) (by decide) h)

theorem digitsValue_toDigits (n : Nat) : digitsValue (Nat.toDigits 10 n) = n := by
  conv_rhs => rw [← Nat.ofDigitChars_ten_toDigits (n := n), Nat.ofDigitChars_eq_foldl]
  rfl

/-- No idle zero stands in front of the digits of a number. -/
theorem head?_toDigits_ne_zero {n : Nat} (hn : 0 < n) :
    (Nat.toDigits 10 n).head? ≠ some '0' := by
  induction n using Nat.strongRecOn with
  | ind n ih =>
    by_cases hsmall : n < 10
    · rw [Nat.toDigits_of_lt_base hsmall]
      interval_cases n <;> decide
    · rw [Nat.toDigits_of_base_le (by decide) (by omega),
        List.head?_append_of_ne_nil _ Nat.toDigits_ne_nil]
      exact ih (n / 10) (by omega) (by omega)

/-- The text goes on neither as a digit nor as a fraction or an exponent. -/
def Ends (text : List Char) : Prop :=
  ∀ c ∈ text.head?, isDigit c = false ∧ c ≠ '.' ∧ c ≠ 'e' ∧ c ≠ 'E'

variable {rest : List Char}

theorem readWhole?_toDigits (n : Nat) (hrest : Ends rest) :
    readWhole? (Nat.toDigits 10 n ++ rest) = some (Nat.toDigits 10 n, rest) := by
  rcases Nat.eq_zero_or_pos n with rfl | hn
  · rfl
  · have htake : (Nat.toDigits 10 n ++ rest).takeWhile isDigit = Nat.toDigits 10 n := by
      rw [List.takeWhile_append_of_pos fun c hc => isDigit_of_mem_toDigits hc]
      cases rest with
      | nil => simp
      | cons c tail => simp [(hrest c rfl).1]
    have hdrop : (Nat.toDigits 10 n ++ rest).dropWhile isDigit = rest := by
      rw [List.dropWhile_append_of_pos fun c hc => isDigit_of_mem_toDigits hc]
      cases rest with
      | nil => rfl
      | cons c tail => simp [(hrest c rfl).1]
    have hne : (Nat.toDigits 10 n).isEmpty = false := by simp [Nat.toDigits_ne_nil]
    -- A zero in front would end the whole part by itself.
    rw [readWhole?]
    · simp [readDigits?, htake, hdrop, hne]
    · intro tail heq
      have hhead : (Nat.toDigits 10 n ++ rest).head? = (Nat.toDigits 10 n).head? :=
        List.head?_append_of_ne_nil _ Nat.toDigits_ne_nil
      refine head?_toDigits_ne_zero hn ?_
      rw [← hhead, heq]
      rfl

/-- The digits of a number are read as an integer, after the sign if there is one. -/
theorem read?_digits {text : List Char} {negative : Bool} {n : Nat}
    (hsign : readMinus text = (negative, Nat.toDigits 10 n ++ rest)) (hrest : Ends rest) :
    read? text = some (⟨negative, Nat.toDigits 10 n, [], 0, true⟩, rest) := by
  have hfraction : readFraction? rest = none := by
    cases rest with
    | nil => rfl
    | cons c tail =>
      rw [readFraction?]
      exact fun _ heq => (hrest c rfl).2.1 (List.cons.inj heq).1
  have hexponent : readExponent? rest = none := by
    cases rest with
    | nil => rfl
    | cons c tail => simp [readExponent?, (hrest c rfl).2.2]
  rw [read?, hsign]
  simp [readWhole?_toDigits n hrest, hfraction, hexponent]

theorem exists_toDigits (n : Nat) :
    ∃ c tail, Nat.toDigits 10 n = c :: tail ∧ isDigit c = true := by
  obtain ⟨c, tail, h⟩ := List.exists_cons_of_ne_nil (Nat.toDigits_ne_nil (b := 10) (n := n))
  exact ⟨c, tail, h, isDigit_of_mem_toDigits (h ▸ List.mem_cons_self)⟩

end Numeral

namespace Json

open Value SExpr Numeral

variable {rest : List Char}

/-- What follows a value in a list that is written. -/
def Follows (text : List Char) : Prop := ∀ c ∈ text.head?, c = ',' ∨ c = ']'

theorem Follows.ends (h : Follows rest) : Ends rest := by
  intro c hc
  rcases h c hc with rfl | rfl <;> decide

theorem readScalar_of_read? {c : Char} {tail : List Char} {numeral : Numeral}
    (hquote : c ≠ '"') (hconstant : constant? (c :: tail) = none)
    (hread : read? (c :: tail) = some (numeral, rest)) (hinteger : numeral.isInteger = true) :
    readScalar (c :: tail) = .ok (.int numeral.toInt, rest) := by
  rw [readScalar]
  · simp only [hconstant, hread, hinteger, if_true]
  · exact fun _ heq => hquote (List.cons.inj heq).1

/-- Digits begin no constant. -/
theorem constant?_of_isDigit {c : Char} (h : isDigit c = true) (tail : List Char) :
    constant? (c :: tail) = none := by
  unfold constant?
  split
  case h_7 => rfl
  all_goals
    rename_i heq
    cases heq
    cases h

theorem constant?_minus {c : Char} (h : isDigit c = true) (tail : List Char) :
    constant? ('-' :: c :: tail) = none := by
  unfold constant?
  split
  case h_6 heq =>
    cases heq
    cases h
  case h_7 => rfl
  all_goals
    rename_i heq
    cases heq

theorem ne_of_isDigit {c d : Char} (h : isDigit c = true) (hd : isDigit d = false) : c ≠ d := by
  rintro rfl
  cases h.symm.trans hd

theorem readScalar_nat (n : Nat) (hrest : Follows rest) :
    readScalar (Nat.toDigits 10 n ++ rest) = .ok (.int n, rest) := by
  obtain ⟨c, tail, hdigits, hc⟩ := exists_toDigits n
  have hsign : readMinus (Nat.toDigits 10 n ++ rest) = (false, Nat.toDigits 10 n ++ rest) := by
    rw [hdigits, List.cons_append, readMinus]
    exact fun _ heq => ne_of_isDigit hc (by decide) (List.cons.inj heq).1
  have hread := read?_digits hsign hrest.ends
  rw [hdigits, List.cons_append] at hread ⊢
  rw [readScalar_of_read? (ne_of_isDigit hc (by decide)) (constant?_of_isDigit hc _) hread rfl,
    toInt, ← hdigits, digitsValue_toDigits]
  rfl

theorem readScalar_neg (n : Nat) (hrest : Follows rest) :
    readScalar ('-' :: Nat.toDigits 10 n ++ rest) = .ok (.int (-n), rest) := by
  obtain ⟨c, tail, hdigits, hc⟩ := exists_toDigits n
  have hsign : readMinus ('-' :: Nat.toDigits 10 n ++ rest) =
      (true, Nat.toDigits 10 n ++ rest) := rfl
  have hread := read?_digits hsign hrest.ends
  have hconstant : constant? ('-' :: (Nat.toDigits 10 n ++ rest)) = none := by
    rw [hdigits]
    exact constant?_minus hc _
  rw [List.cons_append] at hread ⊢
  rw [readScalar_of_read? (by decide) hconstant hread rfl, toInt, digitsValue_toDigits]
  rfl

theorem toList_toString_ofNat (n : Nat) :
    (toString (Int.ofNat n)).toList = Nat.toDigits 10 n := by
  change (Nat.repr n).toList = _
  rw [Nat.repr_eq_ofList_toDigits, String.toList_ofList]

theorem toList_toString_negSucc (n : Nat) :
    (toString (Int.negSucc n)).toList = '-' :: Nat.toDigits 10 (n + 1) := by
  have hminus : "-".toList = ['-'] := rfl
  change ("-" ++ Nat.repr (n + 1)).toList = _
  rw [String.toList_append, hminus, Nat.repr_eq_ofList_toDigits, String.toList_ofList]
  rfl

theorem readScalar_int (n : Int) (hrest : Follows rest) :
    readScalar ((toString n).toList ++ rest) = .ok (.int n, rest) := by
  cases n with
  | ofNat n =>
    rw [toList_toString_ofNat]
    exact readScalar_nat n hrest
  | negSucc n =>
    rw [toList_toString_negSucc]
    exact readScalar_neg (n + 1) hrest

theorem readScalar_text (characters : String) (rest : List Char) :
    readScalar (writeText characters ++ rest) = .ok (.str characters, rest) := by
  have hwritten : writeText characters ++ rest =
      '"' :: (characters.toList.flatMap escape ++ '"' :: rest) := by
    simp [writeText]
  rw [hwritten, readScalar, readText_flatMap_escape]
  simp

section Machine

theorem run_step {reading next : Reading} {c : Char} {after : List Char}
    (hspace : isSpace c = false) (h : reading.step c rest = .ok (next, after)) :
    reading.run (c :: rest) = next.run after := by
  rw [Reading.run, if_neg (by simp [hspace])]
  split
  · rename_i hfault
    cases h.symm.trans hfault
  · rename_i hnext
    cases h.symm.trans hnext
    rfl

theorem run_space (reading : Reading) {c : Char} (hspace : isSpace c = true) :
    reading.run (c :: rest) = reading.run rest := by
  rw [Reading.run, if_pos hspace]

/-- Wherever a value may stand, the machine reads the characters as the value. -/
def ReadsAs (characters : List Char) (value : Value) : Prop :=
  ∀ around mayClose rest, Follows rest →
    Reading.run ⟨around, .value mayClose⟩ (characters ++ rest) =
      Reading.run ⟨around, .complete value⟩ rest

theorem readsAs_scalar {c : Char} {tail : List Char} {value : Value}
    (hspace : isSpace c = false) (hclose : c ≠ ']') (hlist : c ≠ '[') (hdict : c ≠ '{')
    (hread : ∀ rest, Follows rest → readScalar (c :: (tail ++ rest)) = .ok (value, rest)) :
    ReadsAs (c :: tail) value := by
  intro around mayClose rest hrest
  refine run_step hspace ?_
  simp [Reading.step, hclose, hlist, hdict, hread rest hrest]

theorem step_open (around : List Container) (mayClose : Bool) :
    Reading.step ⟨around, .value mayClose⟩ '[' rest =
      .ok (⟨.list [] :: around, .value true⟩, rest) := by
  simp [Reading.step]

theorem step_comma (items : List Value) (around : List Container) (value : Value) :
    Reading.step ⟨.list items :: around, .complete value⟩ ',' rest =
      .ok (⟨.list (value :: items) :: around, .value false⟩, rest) := by
  simp [Reading.step, Reading.afterValue]

theorem step_close (items : List Value) (around : List Container) (value : Value) :
    Reading.step ⟨.list items :: around, .complete value⟩ ']' rest =
      .ok (⟨around, .complete (.list (value :: items).reverse)⟩, rest) := by
  simp [Reading.step, Reading.afterValue]

/-- The rest of an open list, up to its bracket. -/
theorem run_items {parts : List (List Char)} {values : List Value}
    (h : List.Forall₂ ReadsAs parts values) (hne : parts ≠ []) (items : List Value)
    (around : List Container) (mayClose : Bool) (rest : List Char) :
    Reading.run ⟨.list items :: around, .value mayClose⟩ (separated parts ++ ']' :: rest) =
      Reading.run ⟨around, .complete (.list (items.reverse ++ values))⟩ rest := by
  induction h generalizing items mayClose with
  | nil => exact absurd rfl hne
  | @cons part value parts values hpart hparts ih =>
    cases hparts with
    | nil =>
      have hbracket : Follows (']' :: rest) := by simp [Follows]
      rw [separated, List.intercalate_singleton, hpart _ _ _ hbracket,
        run_step (by decide) (step_close items around value), List.reverse_cons]
    | @cons next _ others _ =>
      have hparts : separated (part :: next :: others) ++ ']' :: rest =
          part ++ ',' :: ' ' :: (separated (next :: others) ++ ']' :: rest) := by
        simp [separated, List.intercalate_cons_cons]
      rw [hparts, hpart _ _ _ (by simp [Follows]),
        run_step (by decide) (step_comma items around value), run_space _ (by decide),
        ih (by simp), List.reverse_cons, List.append_assoc]
      rfl

theorem readsAs_list {parts : List (List Char)} {values : List Value}
    (h : List.Forall₂ ReadsAs parts values) :
    ReadsAs ('[' :: separated parts ++ [']']) (.list values) := by
  intro around mayClose rest _
  rw [List.cons_append, List.cons_append, List.append_assoc, List.singleton_append,
    run_step (by decide) (step_open around mayClose)]
  cases h with
  | nil =>
    refine run_step (by decide) ?_
    simp [Reading.step]
  | cons hpart hparts => exact run_items (.cons hpart hparts) (by simp) [] around true rest

end Machine

/-- No document that is read begins with a byte order mark. -/
theorem read_of_readsAs {characters : List Char} {value : Value}
    (h : ReadsAs characters value) : read (String.ofList characters) = .ok value := by
  have hrun : Reading.begin.run characters = .ok value := by
    have hwhole := h [] false [] (by simp [Follows])
    rw [List.append_nil, Reading.run.eq_1 ⟨[], .complete value⟩] at hwhole
    exact hwhole
  rw [read, String.toList_ofList]
  split
  · -- A byte order mark would begin no value, but the characters are read as one.
    rename_i rest
    have hfault : Reading.begin.step '\ufeff' rest =
        .error ⟨.expectedValue, '\ufeff' :: rest⟩ := by
      simp [Reading.begin, Reading.step, readScalar, constant?, read?, readMinus, readWhole?,
        readDigits?, isDigit]
    rw [Reading.run, if_neg (by decide)] at hrun
    split at hrun
    · cases hrun
    · rename_i hnext
      cases hfault.symm.trans hnext
  · rw [hrun]
    rfl

/-- Nested lists over texts, integers, truth values and nothing. -/
inductive Writable : Value → Prop
  | null : Writable .null
  | bool (b : Bool) : Writable (.bool b)
  | int (n : Int) : Writable (.int n)
  | text (characters : String) (symbolic : Bool) : Writable (.text characters symbolic)
  | list {items : List Value} (h : ∀ item ∈ items, Writable item) : Writable (.list items)

theorem readsAs_constant {value : Value} {c : Char} {tail : List Char}
    (hspace : isSpace c = false) (hclose : c ≠ ']') (hlist : c ≠ '[') (hdict : c ≠ '{')
    (hquote : c ≠ '"') (h : ∀ rest, constant? (c :: (tail ++ rest)) = some (value, rest)) :
    ReadsAs (c :: tail) value := by
  refine readsAs_scalar hspace hclose hlist hdict fun rest _ => ?_
  rw [readScalar]
  · simp only [h rest]
  · exact fun _ heq => hquote (List.cons.inj heq).1

theorem readsAs_int (n : Int) : ReadsAs (toString n).toList (.int n) := by
  have hread (rest : List Char) (hrest : Follows rest) := readScalar_int n hrest
  obtain ⟨c, tail, htext, hc⟩ : ∃ c tail, (toString n).toList = c :: tail ∧
      (isDigit c = true ∨ c = '-') := by
    cases n with
    | ofNat n =>
      obtain ⟨c, tail, hdigits, hc⟩ := exists_toDigits n
      exact ⟨c, tail, by rw [toList_toString_ofNat, hdigits], Or.inl hc⟩
    | negSucc n => exact ⟨'-', _, toList_toString_negSucc n, Or.inr rfl⟩
  rw [htext] at hread ⊢
  have hother {d : Char} (hd : isDigit d = false) (hminus : d ≠ '-') : c ≠ d := by
    rcases hc with hc | rfl
    · exact ne_of_isDigit hc hd
    · exact hminus.symm
  refine readsAs_scalar ?_ (hother (by decide) (by decide)) (hother (by decide) (by decide))
    (hother (by decide) (by decide)) hread
  simp [isSpace, hother (d := ' ') (by decide) (by decide),
    hother (d := '\t') (by decide) (by decide), hother (d := '\n') (by decide) (by decide),
    hother (d := '\r') (by decide) (by decide)]

theorem readsAs_text (characters : String) : ReadsAs (writeText characters) (.str characters) :=
  readsAs_scalar (by decide) (by decide) (by decide) (by decide)
    fun rest _ => readScalar_text characters rest

theorem readsAs_all {items : List Value}
    (h : ∀ item ∈ items, ∃ characters, writeChars? item = some characters ∧
      ReadsAs characters (unmarked item)) :
    ∃ parts, writeAll? items = some parts ∧
      List.Forall₂ ReadsAs parts (unmarkedAll items) := by
  induction items with
  | nil => exact ⟨[], rfl, .nil⟩
  | cons item others ih =>
    obtain ⟨part, hpart, hreads⟩ := h item List.mem_cons_self
    obtain ⟨parts, hparts, hothers⟩ := ih fun own hown => h own (List.mem_cons_of_mem _ hown)
    exact ⟨part :: parts, by simp [writeAll?, hpart, hparts], .cons hreads hothers⟩

/-- Every writable value is written and read as itself, its names as plain texts. -/
theorem Writable.readsAs {value : Value} (h : Writable value) :
    ∃ characters, writeChars? value = some characters ∧ ReadsAs characters (unmarked value) := by
  induction h with
  | null =>
    exact ⟨_, rfl, readsAs_constant (by decide) (by decide) (by decide) (by decide) (by decide)
      fun _ => rfl⟩
  | bool b =>
    cases b
    all_goals
      exact ⟨_, rfl, readsAs_constant (by decide) (by decide) (by decide) (by decide) (by decide)
        fun _ => rfl⟩
  | int n => exact ⟨_, rfl, readsAs_int n⟩
  | text characters symbolic => exact ⟨_, rfl, readsAs_text characters⟩
  | @list items _ ih =>
    obtain ⟨parts, hparts, hreads⟩ := readsAs_all ih
    exact ⟨'[' :: separated parts ++ [']'], by simp [writeChars?, hparts], readsAs_list hreads⟩

/-- Reading what was written gives the value with plain texts for names. -/
theorem Writable.read_write {value : Value} (h : Writable value) :
    ∃ document, write value = .ok document ∧ read document = .ok (unmarked value) := by
  obtain ⟨characters, hwrite, hreads⟩ := h.readsAs
  exact ⟨String.ofList characters, by simp [write, write?, hwrite], read_of_readsAs hreads⟩

mutual

/-- Names are written like other texts. -/
theorem writeChars?_unmarked (value : Value) :
    writeChars? (unmarked value) = writeChars? value := by
  match value with
  | .text _ _ => rfl
  | .list items => rw [unmarked, writeChars?, writeChars?, writeAll?_unmarkedAll items]
  | .null | .bool _ | .int _ | .float _ | .tuple _ | .dict _ | .fin _ _ | .expr _ _ _ _ => rfl

theorem writeAll?_unmarkedAll (values : List Value) :
    writeAll? (unmarkedAll values) = writeAll? values := by
  match values with
  | [] => rfl
  | value :: rest =>
    rw [unmarkedAll, writeAll?, writeAll?, writeChars?_unmarked value,
      writeAll?_unmarkedAll rest]

end

theorem write_unmarked (value : Value) : write (unmarked value) = write value := by
  rw [write, write, write?, write?, writeChars?_unmarked]

end Json
end TermAlgebra
