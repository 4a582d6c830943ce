import TermAlgebra.Term.Notation

/-!
How a text of the short notation is cut into tokens. A name is taken as long as it goes on, so the
tokens of two texts put together are those of the one followed by those of the other only where no
name runs across the seam. What stands before a character that no name contains is therefore cut
on its own, and a blank at a seam disappears without a trace.
-/
namespace TermAlgebra
namespace Token

/-- An ASCII letter or an underscore, followed by such letters, underscores and digits. -/
def isName (name : String) : Bool :=
  match name.toList with
  | [] => false
  | c :: rest => startsName c && rest.all continuesName

/-- The tokens as they stand in the text. -/
def texts (text : String) : List String := (ofText text).map Token.text

/-- A token that the scan of some text yields. -/
def Scanned : Token → Prop
  | .name characters => isName (String.ofList characters) = true
  | .mark c => startsName c = false ∧ Text.isBlank c = false

/-- No name goes on across the start of the text. -/
def Breaks (text : List Char) : Prop := ∀ c ∈ text.head?, continuesName c = false

theorem continuesName_of_startsName {c : Char} (hstart : startsName c = true) :
    continuesName c = true := by
  simp [continuesName, hstart]

theorem startsName_eq_false {c : Char} (hc : continuesName c = false) : startsName c = false := by
  rw [continuesName, Bool.or_eq_false_iff] at hc
  exact hc.1

theorem exists_range_of_covers {ranges : List (Nat × Nat)} {code : Nat}
    (hcovers : Text.covers ranges code = true) :
    ∃ range ∈ ranges, range.1 ≤ code ∧ code ≤ range.2 := by
  induction ranges with
  | nil => simp [Text.covers] at hcovers
  | cons range rest ih =>
    obtain ⟨first, last⟩ := range
    rw [Text.covers] at hcovers
    split at hcovers
    · cases hcovers
    next hfirst =>
      rcases Bool.or_eq_true_iff.mp hcovers with hlast | hrest
      · exact ⟨(first, last), by simp, Nat.le_of_not_lt hfirst, by simpa using hlast⟩
      · obtain ⟨range, hmem, hrange⟩ := ih hrest
        exact ⟨range, List.mem_cons_of_mem _ hmem, hrange⟩

/-- The ranges of the blanks lie between those of the digits and letters and beyond them. -/
theorem continuesName_eq_false_of_isBlank {c : Char} (hblank : Text.isBlank c = true) :
    continuesName c = false := by
  obtain ⟨range, hmem, hfirst, hlast⟩ := exists_range_of_covers hblank
  have houtside : c.toNat ≤ 32 ∨ 123 ≤ c.toNat := by
    simp only [Text.blankRanges, List.mem_cons, List.not_mem_nil, or_false] at hmem
    rcases hmem with rfl | rfl | rfl | rfl | rfl | rfl | rfl | rfl | rfl | rfl <;>
      simp only at hfirst hlast <;> omega
  have hvalue : c.val.toNat = c.toNat := rfl
  rw [Bool.eq_false_iff]
  simp only [continuesName, startsName, ne_eq, Bool.or_eq_true, Bool.and_eq_true,
    decide_eq_true_eq, Char.le_def, UInt32.le_iff_toNat_le, hvalue,
    ← Char.toNat_inj (c := c) (d := '_'),
    show ('A' : Char).val.toNat = 65 from rfl, show ('Z' : Char).val.toNat = 90 from rfl,
    show ('a' : Char).val.toNat = 97 from rfl, show ('z' : Char).val.toNat = 122 from rfl,
    show ('0' : Char).val.toNat = 48 from rfl, show ('9' : Char).val.toNat = 57 from rfl,
    show ('_' : Char).toNat = 95 from rfl]
  omega

theorem continuesName_of_mem {name : String} (hname : isName name = true) {c : Char}
    (hc : c ∈ name.toList) : continuesName c = true := by
  rw [isName] at hname
  split at hname
  · cases hname
  next first rest hlist =>
    obtain ⟨hstart, hrest⟩ := Bool.and_eq_true_iff.mp hname
    rcases List.mem_cons.mp (hlist ▸ hc) with rfl | hc
    · exact continuesName_of_startsName hstart
    · exact List.all_eq_true.mp hrest c hc

theorem breaks_cons {c : Char} {rest : List Char} (hc : continuesName c = false) :
    Breaks (c :: rest) := by
  intro d hd
  rwa [← Option.some.inj hd]

theorem scan_cons (c : Char) (rest : List Char) :
    scan [] (c :: rest) =
      if startsName c then scan [c] rest
      else if Text.isBlank c then scan [] rest
      else .mark c :: scan [] rest := by
  simp [scan, finish]

/-- Where no name goes on the one begun is over. -/
theorem scan_of_breaks (begun : List Char) {text : List Char} (hbreaks : Breaks text) :
    scan begun text = finish begun ++ scan [] text := by
  cases text with
  | nil => simp [scan, finish]
  | cons c rest =>
    have hc : continuesName c = false := hbreaks c rfl
    rw [scan_cons]
    simp [scan, hc]

theorem scan_append (begun before : List Char) {after : List Char} (hbreaks : Breaks after) :
    scan begun (before ++ after) = scan begun before ++ scan [] after := by
  induction before generalizing begun with
  | nil =>
    rw [List.nil_append, scan_of_breaks begun hbreaks]
    simp [scan]
  | cons c before ih =>
    simp only [List.cons_append, scan]
    split
    · exact ih _
    · split
      · rw [ih, List.append_assoc]
      · split <;> simp [ih]

theorem scan_continued (begun name : List Char) (hbegun : begun ≠ [])
    (hname : ∀ c ∈ name, continuesName c = true) (rest : List Char) :
    scan begun (name ++ rest) = scan (name.reverse ++ begun) rest := by
  induction name generalizing begun with
  | nil => rfl
  | cons c name ih =>
    have hcontinues : (!begun.isEmpty && continuesName c) = true := by
      simp [hname c (by simp), hbegun]
    rw [List.cons_append, scan, if_pos hcontinues,
      ih (c :: begun) (by simp) fun d hd => hname d (by simp [hd])]
    simp

theorem scan_name {name : String} (hname : isName name = true) {rest : List Char}
    (hbreaks : Breaks rest) :
    scan [] (name.toList ++ rest) = .name name.toList :: scan [] rest := by
  rw [isName] at hname
  split at hname
  · cases hname
  next c tail hlist =>
    obtain ⟨hstart, htail⟩ := Bool.and_eq_true_iff.mp hname
    rw [hlist, List.cons_append, scan_cons, if_pos hstart,
      scan_continued [c] tail (by simp) (List.all_eq_true.mp htail), scan_of_breaks _ hbreaks]
    cases hreversed : tail.reverse ++ [c] with
    | nil => simp at hreversed
    | cons d begun =>
      rw [finish, ← hreversed]
      · simp
      · simp

theorem scan_mark {c : Char} (hname : continuesName c = false) (hblank : Text.isBlank c = false)
    (rest : List Char) : scan [] (c :: rest) = .mark c :: scan [] rest := by
  rw [scan_cons, if_neg (by simp [startsName_eq_false hname]), if_neg (by simp [hblank])]

theorem scan_blanks {blanks : List Char} (hblanks : ∀ c ∈ blanks, Text.isBlank c = true)
    (rest : List Char) : scan [] (blanks ++ rest) = scan [] rest := by
  induction blanks with
  | nil => rfl
  | cons c blanks ih =>
    have hc : Text.isBlank c = true := hblanks c (by simp)
    have hstart := startsName_eq_false (continuesName_eq_false_of_isBlank hc)
    rw [List.cons_append, scan_cons, if_neg (by simp [hstart]), if_pos hc]
    exact ih fun d hd => hblanks d (by simp [hd])

/-- Blanks at a place where no token runs across leave no trace. -/
theorem scan_insert_blanks {before blanks after : List Char}
    (hblanks : ∀ c ∈ blanks, Text.isBlank c = true)
    (hseam : scan [] (before ++ after) = scan [] before ++ scan [] after) :
    scan [] (before ++ blanks ++ after) = scan [] (before ++ after) := by
  cases blanks with
  | nil => simp
  | cons c blanks =>
    have hbreaks : Breaks ((c :: blanks) ++ after) :=
      breaks_cons (continuesName_eq_false_of_isBlank (hblanks c (by simp)))
    rw [List.append_assoc, scan_append [] before hbreaks, scan_blanks hblanks, hseam]

theorem scanned_of_mem_scan {begun : List Char} {text : List Char}
    (hbegun : begun = [] ∨ isName (String.ofList begun.reverse) = true) :
    ∀ token ∈ scan begun text, token.Scanned := by
  have hfinish : ∀ token ∈ finish begun, token.Scanned := by
    intro token htoken
    unfold finish at htoken
    split at htoken
    · simp at htoken
    · obtain rfl := List.mem_singleton.mp htoken
      exact hbegun.resolve_left (by simpa using ‹_›)
  induction text generalizing begun with
  | nil => exact hfinish
  | cons c rest ih =>
    have hempty : ∀ token ∈ finish ([] : List Char), token.Scanned := by simp [finish]
    rw [scan]
    split
    next hcontinues =>
      obtain ⟨hnonempty, hc⟩ := Bool.and_eq_true_iff.mp hcontinues
      have hname := hbegun.resolve_left (by simpa using hnonempty)
      have hlonger : isName (String.ofList (c :: begun).reverse) = true := by
        rw [isName, String.toList_ofList] at hname ⊢
        rw [List.reverse_cons]
        cases hreversed : begun.reverse with
        | nil => simp [hreversed] at hname
        | cons d tail =>
          rw [hreversed] at hname
          simpa [hc] using hname
      refine ih (.inr hlonger) ?_
      intro token htoken
      obtain rfl : token = .name (c :: begun).reverse := by simpa [finish] using htoken
      exact hlonger
    · intro token htoken
      rcases List.mem_append.mp htoken with htoken | htoken
      · exact hfinish token htoken
      · split at htoken
        next hstart =>
          have hname : isName (String.ofList [c].reverse) = true := by simp [isName, hstart]
          refine ih (.inr hname) ?_ token htoken
          intro token htoken
          obtain rfl : token = .name [c].reverse := by simpa [finish] using htoken
          exact hname
        next hstart =>
          split at htoken
          · exact ih (.inl rfl) hempty token htoken
          next hblank =>
            rcases List.mem_cons.mp htoken with rfl | htoken
            · exact ⟨by simpa using hstart, by simpa using hblank⟩
            · exact ih (.inl rfl) hempty token htoken

theorem scanned_of_mem_ofText {text : String} {token : Token} (htoken : token ∈ ofText text) :
    token.Scanned := scanned_of_mem_scan (.inl rfl) token htoken

/-- A mark never begins a name, so the text of a token tells which of the two it is. -/
theorem Scanned.eq_of_text_eq {token other : Token} (htoken : token.Scanned)
    (hother : other.Scanned) (htext : token.text = other.text) : token = other := by
  have hne : ∀ characters c, (Token.name characters).Scanned → (Token.mark c).Scanned →
      String.ofList characters ≠ String.ofList [c] := by
    intro characters c hname hmark heq
    simp [Scanned, heq, isName, hmark.1] at hname
  cases token <;> cases other <;> simp only [Token.text] at htext
  · rw [String.ofList_injective htext]
  · exact absurd htext (hne _ _ htoken hother)
  · exact absurd htext.symm (hne _ _ hother htoken)
  · have hlist := String.ofList_injective htext
    simpa using hlist

theorem eq_of_map_text_eq {tokens others : List Token} (htokens : ∀ token ∈ tokens, token.Scanned)
    (hothers : ∀ token ∈ others, token.Scanned)
    (htexts : tokens.map Token.text = others.map Token.text) : tokens = others := by
  induction tokens generalizing others with
  | nil => simpa using htexts.symm
  | cons token tokens ih =>
    cases others with
    | nil => simp at htexts
    | cons other others =>
      simp only [List.mem_cons, forall_eq_or_imp] at htokens hothers
      simp only [List.map_cons, List.cons.injEq] at htexts
      rw [htokens.1.eq_of_text_eq hothers.1 htexts.1, ih htokens.2 hothers.2 htexts.2]

theorem texts_eq_iff {text other : String} :
    texts text = texts other ↔ ofText text = ofText other :=
  ⟨eq_of_map_text_eq (fun _ => scanned_of_mem_ofText) fun _ => scanned_of_mem_ofText,
    fun heq => by rw [texts, texts, heq]⟩

theorem texts_append_eq_iff {before after : String} :
    texts (before ++ after) = texts before ++ texts after ↔
      ofText (before ++ after) = ofText before ++ ofText after := by
  constructor
  · intro heq
    refine eq_of_map_text_eq (fun _ => scanned_of_mem_ofText) (fun token htoken => ?_)
      (by simpa [texts] using heq)
    rcases List.mem_append.mp htoken with htoken | htoken <;> exact scanned_of_mem_ofText htoken
  · intro heq
    simp [texts, heq]

end Token
end TermAlgebra
