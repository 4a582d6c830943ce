import TermAlgebra.Proofs.PrintedTerms

/-!
The short notation as a whole: terms, types with their bare names, and equations. A result depends
on the tokens alone, so blanks between tokens never matter, and the two printed forms of a type
are read alike. An equation is cut at its first `==` before either side is cut into tokens. Blanks
inside these two characters are therefore the only ones that count, and since no side of a printed
equation contains the character, the first place is the one where it was printed.
-/
namespace TermAlgebra

theorem Term.parse_congr {text other : String} (htokens : Token.ofText text = Token.ofText other)
    (term : Term) : Term.parse text = .ok term ↔ Term.parse other = .ok term := by
  rw [Term.parse_eq_ok_iff, Term.parse_eq_ok_iff, htokens]

theorem Term.parseType_eq_ok_iff {text : String} {type : Term} :
    Term.parseType text = .ok type ↔ ∃ term, Term.parse text = .ok term ∧ term.asType = type := by
  cases hparse : Term.parse text with
  | error error =>
    rw [Term.parseType, hparse]
    simp [bind, Except.bind]
  | ok term =>
    rw [Term.parseType, hparse]
    simp [bind, Except.bind, pure, Except.pure]

theorem Term.parse_print {term : Term} (hnamed : term.Named) :
    Term.parse term.print = .ok term :=
  Term.parse_eq_ok_iff.mpr (Term.ofText_print hnamed)

theorem Term.parseType_print {type : Term} (hnamed : type.Named)
    (happlication : type.isApplication = true) :
    Term.parseType type.print = .ok type ∧ Term.parseType (Theory.typeText type) = .ok type := by
  cases type with
  | var name => cases happlication
  | app head args =>
    have hprint : Term.parseType (app head args).print = .ok (app head args) :=
      Term.parseType_eq_ok_iff.mpr ⟨_, Term.parse_print hnamed, rfl⟩
    cases args with
    | cons arg args => exact ⟨hprint, hprint⟩
    | nil =>
      have hvar : (var head).Named := Term.named_var.mpr (Term.named_app.mp hnamed).1
      exact ⟨hprint, Term.parseType_eq_ok_iff.mpr ⟨_, Term.parse_print hvar, rfl⟩⟩

namespace Equation

theorem splitAtEquals_cons (c : Char) (rest : List Char) :
    splitAtEquals (c :: rest) =
      if c = '=' ∧ rest.head? = some '=' then some ([], rest.tail)
      else (splitAtEquals rest).map fun sides => (c :: sides.1, sides.2) := by
  by_cases hequals : c = '=' ∧ rest.head? = some '='
  · rw [if_pos hequals]
    obtain ⟨rfl, hhead⟩ := hequals
    cases rest with
    | nil => cases hhead
    | cons d rest => rw [Option.some.inj hhead, splitAtEquals, List.tail_cons]
  · rw [if_neg hequals, splitAtEquals]
    rintro rhs rfl rfl
    exact hequals ⟨rfl, rfl⟩

theorem eq_append_of_splitAtEquals {text lhs rhs : List Char}
    (hsplit : splitAtEquals text = some (lhs, rhs)) : text = lhs ++ '=' :: '=' :: rhs := by
  induction text generalizing lhs with
  | nil => cases hsplit
  | cons c rest ih =>
    rw [splitAtEquals_cons] at hsplit
    split at hsplit
    next hequals =>
      obtain ⟨rfl, hhead⟩ := hequals
      cases hsplit
      cases rest with
      | nil => cases hhead
      | cons d rest => rw [Option.some.inj hhead]; rfl
    next =>
      obtain ⟨⟨left, right⟩, hrest, hsides⟩ := Option.map_eq_some_iff.mp hsplit
      cases hsides
      rw [ih hrest, List.cons_append]

theorem splitAtEquals_append_of_some {before lhs rhs : List Char} (after : List Char)
    (hsplit : splitAtEquals before = some (lhs, rhs)) :
    splitAtEquals (before ++ after) = some (lhs, rhs ++ after) := by
  induction before generalizing lhs with
  | nil => cases hsplit
  | cons c rest ih =>
    rw [List.cons_append, splitAtEquals_cons]
    rw [splitAtEquals_cons] at hsplit
    split at hsplit
    next hequals =>
      obtain ⟨rfl, hhead⟩ := hequals
      cases hsplit
      cases rest with
      | nil => cases hhead
      | cons d rest => simp [Option.some.inj hhead]
    next hne =>
      obtain ⟨⟨left, right⟩, hrest, hsides⟩ := Option.map_eq_some_iff.mp hsplit
      cases hsides
      have hhead : (rest ++ after).head? = rest.head? := by
        cases rest with
        | nil => cases hrest
        | cons d rest => rfl
      rw [hhead, if_neg hne, ih hrest, Option.map_some]

/-- The seam of two texts is not inside `==`. -/
def Parted (before after : List Char) : Prop :=
  before.getLast? = some '=' → after.head? ≠ some '='

theorem splitAtEquals_append_of_none {before after : List Char}
    (hsplit : splitAtEquals before = none) (hparted : Parted before after) :
    splitAtEquals (before ++ after) =
      (splitAtEquals after).map fun sides => (before ++ sides.1, sides.2) := by
  induction before with
  | nil => simp
  | cons c rest ih =>
    rw [splitAtEquals_cons] at hsplit
    split at hsplit
    next => cases hsplit
    next hne =>
      have hrest : splitAtEquals rest = none := by simpa using hsplit
      have hseam : ¬(c = '=' ∧ (rest ++ after).head? = some '=') := by
        rintro ⟨rfl, hhead⟩
        cases rest with
        | nil => exact hparted rfl hhead
        | cons d rest => exact hne ⟨rfl, hhead⟩
      have hparted' : Parted rest after := by
        intro hlast
        refine hparted ?_
        rw [List.getLast?_cons_of_ne_nil (by rintro rfl; cases hlast), hlast]
      rw [List.cons_append, splitAtEquals_cons, if_neg hseam, ih hrest hparted']
      cases splitAtEquals after <;> rfl

theorem splitAtEquals_eq_none {text : List Char} (hequals : '=' ∉ text) :
    splitAtEquals text = none := by
  cases hsplit : splitAtEquals text with
  | none => rfl
  | some sides =>
    rw [eq_append_of_splitAtEquals hsplit] at hequals
    simp at hequals

theorem parse_eq_ok_iff {text : String} {equation : Equation} :
    parse text = .ok equation ↔
      ∃ lhs rhs, splitAtEquals text.toList = some (lhs, rhs) ∧
        Term.parse (String.ofList lhs) = .ok equation.lhs ∧
        Term.parse (String.ofList rhs) = .ok equation.rhs := by
  constructor
  · intro hparse
    rw [parse] at hparse
    split at hparse
    · cases hparse
    next lhs rhs hsplit =>
      cases hlhs : Term.parse (String.ofList lhs) with
      | error error => rw [hlhs] at hparse; cases hparse
      | ok left =>
        cases hrhs : Term.parse (String.ofList rhs) with
        | error error => rw [hlhs, hrhs] at hparse; cases hparse
        | ok right =>
          rw [hlhs, hrhs] at hparse
          cases hparse
          exact ⟨lhs, rhs, hsplit, hlhs, hrhs⟩
  · rintro ⟨lhs, rhs, hsplit, hlhs, hrhs⟩
    rw [parse, hsplit]
    simp only [hlhs, hrhs]
    rfl

/-- Blanks at a seam outside `==` leave the cut where it is and the tokens of both sides as they
are. -/
theorem splitAtEquals_insert_blanks {before blanks after : List Char}
    (hblanks : ∀ c ∈ blanks, Text.isBlank c = true) (hparted : Parted before after)
    (hseam : Token.scan [] (before ++ after) = Token.scan [] before ++ Token.scan [] after) :
    (splitAtEquals (before ++ blanks ++ after) = none ∧ splitAtEquals (before ++ after) = none) ∨
      ∃ lhs rhs lhs' rhs', splitAtEquals (before ++ blanks ++ after) = some (lhs', rhs') ∧
        splitAtEquals (before ++ after) = some (lhs, rhs) ∧
        Token.scan [] lhs' = Token.scan [] lhs ∧ Token.scan [] rhs' = Token.scan [] rhs := by
  have hequals : '=' ∉ blanks := fun hmem => absurd (hblanks _ hmem) (by decide)
  have hmarks : ∀ lhs rhs : List Char, Token.scan [] (lhs ++ '=' :: '=' :: rhs) =
      Token.scan [] lhs ++ .mark '=' :: .mark '=' :: Token.scan [] rhs := by
    intro lhs rhs
    rw [Token.scan_append [] lhs (Token.breaks_cons (by decide)),
      Token.scan_mark (by decide) (by decide), Token.scan_mark (by decide) (by decide)]
  cases hbefore : splitAtEquals before with
  | some sides =>
    obtain ⟨lhs, rhs⟩ := sides
    refine .inr ⟨lhs, rhs ++ after, lhs, rhs ++ blanks ++ after, ?_, ?_, rfl, ?_⟩
    · rw [List.append_assoc, List.append_assoc, splitAtEquals_append_of_some _ hbefore]
    · exact splitAtEquals_append_of_some _ hbefore
    · refine Token.scan_insert_blanks hblanks ?_
      rw [eq_append_of_splitAtEquals hbefore, List.append_assoc, List.cons_append, List.cons_append,
        hmarks, hmarks, List.append_assoc] at hseam
      simpa using List.append_cancel_left hseam
  | none =>
    have hleft : Parted before (blanks ++ after) := by
      cases blanks with
      | nil => exact hparted
      | cons c blanks =>
        intro _ hhead
        exact hequals (by simp [Option.some.inj hhead])
    have hright : Parted blanks after := fun hlast =>
      absurd (List.mem_of_getLast? hlast) hequals
    rw [List.append_assoc, splitAtEquals_append_of_none hbefore hleft,
      splitAtEquals_append_of_none (splitAtEquals_eq_none hequals) hright,
      splitAtEquals_append_of_none hbefore hparted]
    cases hafter : splitAtEquals after with
    | none => exact .inl ⟨rfl, rfl⟩
    | some sides =>
      obtain ⟨lhs, rhs⟩ := sides
      refine .inr ⟨before ++ lhs, rhs, before ++ (blanks ++ lhs), rhs, rfl, rfl, ?_, rfl⟩
      rw [← List.append_assoc]
      refine Token.scan_insert_blanks hblanks ?_
      rw [eq_append_of_splitAtEquals hafter, ← List.append_assoc, hmarks, hmarks,
        ← List.append_assoc] at hseam
      exact List.append_cancel_right hseam

end Equation

theorem Term.not_mem_print (term : Term) (hnamed : term.Named) : '=' ∉ term.print.toList := by
  have hname : ∀ name : String, Token.isName name = true → '=' ∉ name.toList :=
    fun name hname hmem => absurd (Token.continuesName_of_mem hname hmem) (by decide)
  cases term with
  | var name => exact hname name (Term.named_var.mp hnamed)
  | app head args =>
    obtain ⟨hhead, hargs⟩ := Term.named_app.mp hnamed
    intro hmem
    rw [Term.toList_print_app, Term.printAll_eq_map, List.map_map] at hmem
    simp only [List.mem_append, List.mem_cons, List.not_mem_nil, or_false] at hmem
    rcases hmem with hmem | hmem | hmem | hmem
    · exact hname head hhead hmem
    · exact absurd hmem (by decide)
    · rcases Term.mem_intercalate hmem with hmem | ⟨part, hpart, hmem⟩
      · exact absurd hmem (by decide)
      · obtain ⟨arg, harg, rfl⟩ := List.mem_map.mp hpart
        exact Term.not_mem_print arg (hargs arg harg) hmem
    · exact absurd hmem (by decide)

theorem Equation.parse_print {equation : Equation} (hlhs : equation.lhs.Named)
    (hrhs : equation.rhs.Named) : Equation.parse equation.print = .ok equation := by
  have hblank : ∀ c ∈ [' '], Text.isBlank c = true := List.forall_mem_singleton.mpr (by decide)
  refine Equation.parse_eq_ok_iff.mpr
    ⟨equation.lhs.print.toList ++ [' '], ' ' :: equation.rhs.print.toList, ?_, ?_, ?_⟩
  · have hlist : equation.print.toList =
        (equation.lhs.print.toList ++ [' ']) ++ '=' :: '=' :: ' ' :: equation.rhs.print.toList := by
      simp [Equation.print]
    have hnone : Equation.splitAtEquals (equation.lhs.print.toList ++ [' ']) = none :=
      Equation.splitAtEquals_eq_none (by simp [Term.not_mem_print _ hlhs])
    rw [hlist, Equation.splitAtEquals_append_of_none hnone (fun hlast => by simp at hlast),
      Equation.splitAtEquals_cons, if_pos ⟨rfl, rfl⟩]
    simp
  · refine Term.parse_eq_ok_iff.mpr ?_
    rw [Token.ofText, String.toList_ofList, Term.scan_print _ hlhs (Token.breaks_cons (by decide))]
    rw [show Token.scan [] [' '] = [] by decide, List.append_nil]
  · refine Term.parse_eq_ok_iff.mpr ?_
    rw [Token.ofText, String.toList_ofList, ← List.singleton_append, Token.scan_blanks hblank]
    exact Term.ofText_print hrhs

theorem Equation.parse_insert_blanks {before blanks after : String}
    (hblanks : ∀ c ∈ blanks.toList, Text.isBlank c = true)
    (hseam : Token.ofText (before ++ after) = Token.ofText before ++ Token.ofText after)
    (hparted : Equation.Parted before.toList after.toList) (equation : Equation) :
    Equation.parse (before ++ blanks ++ after) = .ok equation ↔
      Equation.parse (before ++ after) = .ok equation := by
  simp only [Token.ofText, String.toList_append] at hseam
  rw [Equation.parse_eq_ok_iff, Equation.parse_eq_ok_iff]
  simp only [String.toList_append]
  rcases Equation.splitAtEquals_insert_blanks hblanks hparted hseam with
    ⟨hnone, hnone'⟩ | ⟨lhs, rhs, lhs', rhs', hsplit, hsplit', hlhs, hrhs⟩
  · rw [hnone, hnone']
  · have hleft : Term.parse (String.ofList lhs') = .ok equation.lhs ↔
        Term.parse (String.ofList lhs) = .ok equation.lhs :=
      Term.parse_congr (by simpa [Token.ofText] using hlhs) equation.lhs
    have hright : Term.parse (String.ofList rhs') = .ok equation.rhs ↔
        Term.parse (String.ofList rhs) = .ok equation.rhs :=
      Term.parse_congr (by simpa [Token.ofText] using hrhs) equation.rhs
    rw [hsplit, hsplit']
    constructor
    · rintro ⟨_, _, hsides, hl, hr⟩
      cases hsides
      exact ⟨_, _, rfl, hleft.mp hl, hright.mp hr⟩
    · rintro ⟨_, _, hsides, hl, hr⟩
      cases hsides
      exact ⟨_, _, rfl, hleft.mpr hl, hright.mpr hr⟩

/-- A text is read as a term exactly when its tokens are those of the printed term and all names
of the term are names; any other text is an error. Printed terms, types and equations are read
back, and blanks at a seam of two tokens change no result, `==` being one token of an equation. -/
theorem notation_exact :
    (∀ (text : String) (term : Term), Term.parse text = .ok term ↔
      term.Named ∧ Token.texts text = Token.texts term.print) ∧
    (∀ text : String, (∃ error, Term.parse text = .error error) ↔
      ∀ term : Term, term.Named → Token.texts text ≠ Token.texts term.print) ∧
    (∀ term : Term, term.Named → Term.parse term.print = .ok term ∧
      (term.isApplication = true → Term.parseType term.print = .ok term ∧
        Term.parseType (Theory.typeText term) = .ok term)) ∧
    (∀ equation : Equation, equation.lhs.Named → equation.rhs.Named →
      Equation.parse equation.print = .ok equation) ∧
    (∀ before blanks after : String, (∀ c ∈ blanks.toList, Text.isBlank c = true) →
      Token.texts (before ++ after) = Token.texts before ++ Token.texts after →
      (∀ term, Term.parse (before ++ blanks ++ after) = .ok term ↔
        Term.parse (before ++ after) = .ok term) ∧
      (∀ type, Term.parseType (before ++ blanks ++ after) = .ok type ↔
        Term.parseType (before ++ after) = .ok type) ∧
      (Equation.Parted before.toList after.toList → ∀ equation,
        Equation.parse (before ++ blanks ++ after) = .ok equation ↔
          Equation.parse (before ++ after) = .ok equation)) := by
  refine ⟨fun text term => Term.parse_eq_ok_iff_texts, fun text => ?_, fun term hnamed => ?_,
    fun equation hlhs hrhs => Equation.parse_print hlhs hrhs,
    fun before blanks after hblanks hseam => ?_⟩
  · constructor
    · rintro ⟨error, herror⟩ term hnamed htexts
      rw [Term.parse_eq_ok_iff_texts.mpr ⟨hnamed, htexts⟩] at herror
      cases herror
    · intro hnone
      cases hparse : Term.parse text with
      | error error => exact ⟨error, rfl⟩
      | ok term =>
        obtain ⟨hnamed, htexts⟩ := Term.parse_eq_ok_iff_texts.mp hparse
        exact absurd htexts (hnone term hnamed)
  · exact ⟨Term.parse_print hnamed, Term.parseType_print hnamed⟩
  · have htokens := Token.texts_append_eq_iff.mp hseam
    have hread : ∀ term, Term.parse (before ++ blanks ++ after) = .ok term ↔
        Term.parse (before ++ after) = .ok term := by
      refine Term.parse_congr ?_
      simp only [Token.ofText, String.toList_append] at htokens ⊢
      exact Token.scan_insert_blanks hblanks htokens
    refine ⟨hread, fun type => ?_, Equation.parse_insert_blanks hblanks htokens⟩
    simp only [Term.parseType_eq_ok_iff, hread]

/-- The type of the morphisms out of the domain of `f`, alone and in an equation. -/
theorem notation_exact_of_domain :
    Term.parse "Hom(dom(f),B)" = .ok (.app "Hom" [.app "dom" [.var "f"], .var "B"]) ∧
      Term.parseType "Ob" = .ok (.app "Ob" []) ∧
      Equation.parse "dom(f) == B" = .ok ⟨.app "dom" [.var "f"], .var "B"⟩ ∧
      Equation.parse "dom( \t f) == B" = .ok ⟨.app "dom" [.var "f"], .var "B"⟩ ∧
      ∀ term : Term, term.Named → Token.texts "Hom(,)" ≠ Token.texts term.print := by
  obtain ⟨_, herror, hprinted, hequation, hblanks⟩ := notation_exact
  have hread := hequation ⟨.app "dom" [.var "f"], .var "B"⟩ (by decide) (by decide)
  have hblank : ∀ c ∈ " \t ".toList, Text.isBlank c = true := by
    rw [show " \t ".toList = [' ', '\t', ' '] by decide]
    exact List.forall_mem_cons.mpr ⟨by decide, List.forall_mem_cons.mpr
      ⟨by decide, List.forall_mem_singleton.mpr (by decide)⟩⟩
  have hspaced := (hblanks "dom(" " \t " "f) == B" hblank (by decide)).2.2
    (fun hlast => absurd hlast (by decide)) ⟨.app "dom" [.var "f"], .var "B"⟩
  refine ⟨(hprinted (.app "Hom" [.app "dom" [.var "f"], .var "B"]) (by decide)).1,
    ((hprinted (.app "Ob" []) (by decide)).2 rfl).2, hread, hspaced.mpr hread,
    (herror "Hom(,)").mp ⟨.expectedName "Hom(,)", by cbv⟩⟩

end TermAlgebra
