import TermAlgebra.Proofs.NotationTokens
import TermAlgebra.Theory.Reference

/-!
The short notation is read exactly: a text is the notation of a term if and only if it has the
tokens of the printed term. The reading is a machine that keeps the open applications, so both
directions go through what a state has read. From the left, every step adds its token to what the
state spells, and a state that may finish spells a term. From the right, the spelling of a term
leads from any state that expects a term to the state behind it, whatever follows. Printing and
scanning meet in the spelling, and there it matters that the names are names: a name that is cut
into several tokens, or none, prints as something else.
-/
namespace TermAlgebra
namespace Term

mutual

/-- The tokens of the printed form, with every name one token. -/
def spell : Term → List Token
  | .var name => [.name name.toList]
  | .app head args =>
      .name head.toList :: .mark '(' ::
        ([Token.mark ','].intercalate (spellAll args) ++ [.mark ')'])

def spellAll : List Term → List (List Token)
  | [] => []
  | term :: rest => spell term :: spellAll rest

end

/-- Every variable and every head is a name of the notation. -/
def Named (term : Term) : Prop := ∀ name ∈ term.freeVars ++ term.heads, Token.isName name = true

instance (term : Term) : Decidable term.Named :=
  inferInstanceAs (Decidable (∀ name ∈ term.freeVars ++ term.heads, Token.isName name = true))

theorem spellAll_eq_map (terms : List Term) : spellAll terms = terms.map spell := by
  induction terms with
  | nil => rfl
  | cons term rest ih => simp [spellAll, ih]

theorem named_var {name : String} : (var name).Named ↔ Token.isName name = true := by
  simp [Named, freeVars, heads]

theorem mem_freeVarsAll {name : String} {terms : List Term} :
    name ∈ freeVarsAll terms ↔ ∃ term ∈ terms, name ∈ term.freeVars := by
  induction terms with
  | nil => simp [freeVarsAll]
  | cons term rest ih => simp [freeVarsAll, ih]

theorem mem_headsAll {name : String} {terms : List Term} :
    name ∈ headsAll terms ↔ ∃ term ∈ terms, name ∈ term.heads := by
  induction terms with
  | nil => simp [headsAll]
  | cons term rest ih => simp [headsAll, ih]

theorem named_app {head : String} {args : List Term} :
    (app head args).Named ↔ Token.isName head = true ∧ ∀ arg ∈ args, arg.Named := by
  constructor
  · intro hnamed
    refine ⟨hnamed head (by simp [heads]), fun arg harg name hname => hnamed name ?_⟩
    simp only [freeVars, heads, List.mem_append, List.mem_cons, mem_freeVarsAll, mem_headsAll]
    rcases List.mem_append.mp hname with hname | hname
    · exact .inl ⟨arg, harg, hname⟩
    · exact .inr (.inr ⟨arg, harg, hname⟩)
  · rintro ⟨hhead, hargs⟩ name hname
    simp only [freeVars, heads, List.mem_append, List.mem_cons, mem_freeVarsAll,
      mem_headsAll] at hname
    rcases hname with ⟨arg, harg, hname⟩ | rfl | ⟨arg, harg, hname⟩
    · exact hargs arg harg name (by simp [hname])
    · exact hhead
    · exact hargs arg harg name (by simp [hname])

theorem intercalate_append_singleton {α : Type} (separator last : List α) (parts : List (List α)) :
    separator.intercalate (parts ++ [last]) = parts.flatMap (· ++ separator) ++ last := by
  induction parts with
  | nil => simp
  | cons part parts ih =>
    rw [List.cons_append, List.intercalate_cons_of_ne_nil (by simp), ih]
    simp

theorem mem_intercalate_of_mem {α : Type} {x : α} (separator : List α) {parts : List (List α)}
    {part : List α} (hpart : part ∈ parts) (hx : x ∈ part) : x ∈ separator.intercalate parts := by
  induction parts with
  | nil => simp at hpart
  | cons first parts ih =>
    by_cases hnil : parts = []
    · subst hnil
      simpa [List.mem_singleton.mp hpart] using hx
    · rw [List.intercalate_cons_of_ne_nil hnil]
      rcases List.mem_cons.mp hpart with rfl | hpart
      · simp [hx]
      · simp [ih hpart]

theorem mem_intercalate {α : Type} {x : α} {separator : List α} {parts : List (List α)}
    (hx : x ∈ separator.intercalate parts) : x ∈ separator ∨ ∃ part ∈ parts, x ∈ part := by
  induction parts with
  | nil => simp at hx
  | cons part parts ih =>
    by_cases hnil : parts = []
    · subst hnil
      exact .inr ⟨part, by simp, by simpa using hx⟩
    · rw [List.intercalate_cons_of_ne_nil hnil] at hx
      simp only [List.mem_append] at hx
      rcases hx with (hx | hx) | hx
      · exact .inr ⟨part, by simp, hx⟩
      · exact .inl hx
      · rcases ih hx with hx | ⟨part, hpart, hx⟩
        · exact .inl hx
        · exact .inr ⟨part, by simp [hpart], hx⟩

end Term

namespace Reading

variable (text : String)

/-- What the open applications have read, the outermost one first. -/
def pendingTokens : List (String × List Term) → List Token
  | [] => []
  | (head, args) :: outer =>
      pendingTokens outer ++
        .name head.toList :: .mark '(' :: args.reverse.flatMap (·.spell ++ [.mark ','])

def Stage.tokens : Stage → List Token
  | .start => []
  | .opened => []
  | .named name => [.name name.toList]
  | .closed term => term.spell

/-- What a state has read. -/
def tokens (reading : Reading) : List Token := pendingTokens reading.pending ++ reading.stage.tokens

/-- An application just opened has no arguments yet. -/
def Consistent (reading : Reading) : Prop :=
  reading.stage = .opened → ∀ frame ∈ reading.pending.head?, frame.2 = []

theorem afterTerm_reads {term : Term} {pending : List (String × List Term)} {token : Token}
    {next : Reading} (hstep : afterTerm text term pending token = .ok next) :
    next.Consistent ∧ next.tokens = pendingTokens pending ++ term.spell ++ [token] := by
  cases pending with
  | nil => cases hstep
  | cons frame pending =>
    obtain ⟨head, args⟩ := frame
    simp only [afterTerm] at hstep
    split at hstep
    next hclosed =>
      cases hstep
      refine ⟨nofun, ?_⟩
      simp [tokens, Stage.tokens, pendingTokens, Term.spell, Term.spellAll_eq_map,
        Term.intercalate_append_singleton, hclosed, List.flatMap_map,
        -List.map_reverse]
    next =>
      split at hstep
      next hcomma =>
        cases hstep
        refine ⟨nofun, ?_⟩
        simp [tokens, Stage.tokens, pendingTokens, hcomma]
      next => cases hstep

/-- A step adds its token to what has been read. -/
theorem step_reads {reading next : Reading} {token : Token} (hconsistent : reading.Consistent)
    (hstep : step text reading token = .ok next) :
    next.Consistent ∧ next.tokens = reading.tokens ++ [token] := by
  obtain ⟨pending, stage⟩ := reading
  cases stage with
  | start =>
    cases token with
    | mark c => cases hstep
    | name characters =>
      cases hstep
      exact ⟨nofun, by simp [tokens, Stage.tokens]⟩
  | opened =>
    cases token with
    | name characters =>
      cases hstep
      exact ⟨nofun, by simp [tokens, Stage.tokens]⟩
    | mark c =>
      simp only [step] at hstep
      split at hstep
      next heq =>
        cases hstep
        obtain rfl : _ = [] := hconsistent rfl _ rfl
        refine ⟨nofun, ?_⟩
        simp [tokens, Stage.tokens, pendingTokens, Term.spell, Term.spellAll]
      next => cases hstep
  | named name =>
    simp only [step] at hstep
    split at hstep
    next hparen =>
      cases hstep
      refine ⟨fun _ frame hframe => Option.some.inj hframe ▸ rfl, ?_⟩
      simp [tokens, Stage.tokens, pendingTokens, hparen]
    next =>
      obtain ⟨hnext, htokens⟩ := afterTerm_reads text hstep
      exact ⟨hnext, by simpa [tokens, Stage.tokens, Term.spell] using htokens⟩
  | closed term =>
    obtain ⟨hnext, htokens⟩ := afterTerm_reads text hstep
    exact ⟨hnext, by simpa [tokens, Stage.tokens] using htokens⟩

theorem foldlM_reads {reading last : Reading} {read : List Token}
    (hconsistent : reading.Consistent) (hrun : read.foldlM (step text) reading = .ok last) :
    last.tokens = reading.tokens ++ read := by
  induction read generalizing reading with
  | nil =>
    cases hrun
    simp
  | cons token read ih =>
    rw [List.foldlM_cons] at hrun
    cases hstep : step text reading token with
    | error error => rw [hstep] at hrun; cases hrun
    | ok next =>
      rw [hstep] at hrun
      obtain ⟨hnext, htokens⟩ := step_reads text hconsistent hstep
      rw [ih hnext hrun, htokens, List.append_assoc, List.singleton_append]

theorem tokens_eq_of_finish {reading : Reading} {term : Term}
    (hfinish : reading.finish text = .ok term) : reading.tokens = term.spell := by
  obtain ⟨pending, stage⟩ := reading
  cases stage <;> cases pending <;> cases hfinish <;>
    simp [tokens, pendingTokens, Stage.tokens, Term.spell]

/-- The state behind a complete term. -/
def after (pending : List (String × List Term)) : Term → Reading
  | .var name => ⟨pending, .named name⟩
  | .app head args => ⟨pending, .closed (.app head args)⟩

theorem step_after {pending : List (String × List Term)} {term : Term} {token : Token}
    (htoken : token ≠ .mark '(') :
    step text (after pending term) token = afterTerm text term pending token := by
  cases term with
  | var name => simp [step, after, htoken]
  | app head args => rfl

theorem foldlM_step {reading next : Reading} {token : Token} {rest : List Token}
    (hstep : step text reading token = .ok next) :
    (token :: rest).foldlM (step text) reading = rest.foldlM (step text) next := by
  rw [List.foldlM_cons, hstep]
  rfl

mutual

/-- Where a term is expected its spelling is read, whatever follows. -/
theorem foldlM_spell (term : Term) (pending : List (String × List Term)) {stage : Stage}
    (hstage : stage = .start ∨ stage = .opened) (rest : List Token) :
    (term.spell ++ rest).foldlM (step text) ⟨pending, stage⟩ =
      rest.foldlM (step text) (after pending term) := by
  have hname : ∀ name : String, step text ⟨pending, stage⟩ (.name name.toList) =
      .ok ⟨pending, .named name⟩ := by
    intro name
    rcases hstage with rfl | rfl <;> simp [step]
  cases term with
  | var name => exact foldlM_step text (hname name)
  | app head args =>
    have hopen : step text ⟨pending, .named head⟩ (.mark '(') =
        .ok ⟨(head, []) :: pending, .opened⟩ := by simp [step]
    rw [Term.spell, List.cons_append, foldlM_step text (hname head), List.cons_append,
      foldlM_step text hopen, List.append_assoc, List.singleton_append]
    by_cases hargs : args = []
    · subst hargs
      exact foldlM_step text (by simp [step, after])
    · exact foldlM_spellAll args hargs head [] pending (.inr rfl) rest

theorem foldlM_spellAll (args : List Term) (hargs : args ≠ []) (head : String) (done : List Term)
    (pending : List (String × List Term)) {stage : Stage}
    (hstage : stage = .start ∨ stage = .opened) (rest : List Token) :
    ([Token.mark ','].intercalate (Term.spellAll args) ++ .mark ')' :: rest).foldlM (step text)
        ⟨(head, done) :: pending, stage⟩ =
      rest.foldlM (step text) ⟨pending, .closed (.app head (done.reverse ++ args))⟩ := by
  cases args with
  | nil => exact absurd rfl hargs
  | cons arg args =>
    cases args with
    | nil =>
      rw [Term.spellAll, Term.spellAll, List.intercalate_singleton, foldlM_spell arg _ hstage]
      exact foldlM_step text (by rw [step_after text (by decide)]; simp [afterTerm])
    | cons other args =>
      have hcomma : step text (after ((head, done) :: pending) arg) (.mark ',') =
          .ok ⟨(head, arg :: done) :: pending, .start⟩ := by
        rw [step_after text (by decide)]
        simp [afterTerm]
      rw [Term.spellAll, List.intercalate_cons_of_ne_nil (by simp [Term.spellAll]),
        List.append_assoc, List.append_assoc, foldlM_spell arg _ hstage, List.singleton_append,
        foldlM_step text hcomma,
        foldlM_spellAll (other :: args) (by simp) head (arg :: done) pending (.inl rfl) rest]
      simp

end

theorem finish_after (term : Term) : (after [] term).finish text = .ok term := by
  cases term <;> rfl

end Reading

namespace Term

theorem parse_eq_ok_iff {text : String} {term : Term} :
    parse text = .ok term ↔ Token.ofText text = term.spell := by
  constructor
  · intro hparse
    rw [parse] at hparse
    cases hrun : (Token.ofText text).foldlM (Reading.step text) Reading.begin with
    | error error => rw [hrun] at hparse; cases hparse
    | ok last =>
      rw [hrun] at hparse
      have hread := Reading.foldlM_reads text (fun h => by cases h) hrun
      rw [Reading.tokens_eq_of_finish text hparse] at hread
      simpa [Reading.tokens, Reading.begin, Reading.pendingTokens, Reading.Stage.tokens]
        using hread.symm
  · intro htokens
    have hrun := Reading.foldlM_spell text term [] (.inl rfl) []
    rw [List.append_nil, ← htokens] at hrun
    rw [parse, Reading.begin, hrun]
    exact Reading.finish_after text term

/-- A scan leaves no token that is not a name or a mark of the notation. -/
theorem named_of_spell (term : Term) (hscanned : ∀ token ∈ term.spell, token.Scanned) :
    term.Named := by
  cases term with
  | var name =>
    have hname := hscanned (.name name.toList) (by simp [spell])
    rw [Token.Scanned, String.ofList_toList] at hname
    exact named_var.mpr hname
  | app head args =>
    have hname := hscanned (.name head.toList) (by simp [spell])
    rw [Token.Scanned, String.ofList_toList] at hname
    refine named_app.mpr ⟨hname, fun arg harg => named_of_spell arg fun token htoken => ?_⟩
    refine hscanned token ?_
    rw [spell, spellAll_eq_map]
    have hmem := mem_intercalate_of_mem [Token.mark ','] (List.mem_map_of_mem harg) htoken
    simp [hmem]

theorem toList_print_app (head : String) (args : List Term) :
    (app head args).print.toList =
      head.toList ++ '(' :: ([','].intercalate ((printAll args).map String.toList) ++ [')']) := by
  simp [print, Text.application, String.toList_intercalate]

mutual

/-- The printed form of a term with names is cut into its spelling, whatever no name continues
into. -/
theorem scan_print (term : Term) (hnamed : term.Named) {rest : List Char}
    (hbreaks : Token.Breaks rest) :
    Token.scan [] (term.print.toList ++ rest) = term.spell ++ Token.scan [] rest := by
  cases term with
  | var name => exact Token.scan_name (named_var.mp hnamed) hbreaks
  | app head args =>
    obtain ⟨hhead, hargs⟩ := named_app.mp hnamed
    rw [toList_print_app, List.append_assoc, List.cons_append, List.append_assoc,
      List.singleton_append, Token.scan_name hhead (Token.breaks_cons (by decide)),
      Token.scan_mark (by decide) (by decide), scan_printAll args hargs (by decide),
      Token.scan_mark (by decide) (by decide)]
    simp [spell]

theorem scan_printAll (args : List Term) (hnamed : ∀ arg ∈ args, arg.Named) {c : Char}
    (hc : Token.continuesName c = false) {rest : List Char} :
    Token.scan [] ([','].intercalate ((printAll args).map String.toList) ++ c :: rest) =
      [Token.mark ','].intercalate (spellAll args) ++ Token.scan [] (c :: rest) := by
  cases args with
  | nil => rfl
  | cons arg args =>
    have harg : arg.Named := hnamed arg (by simp)
    cases args with
    | nil => simpa [printAll, spellAll] using scan_print arg harg (Token.breaks_cons hc)
    | cons other args =>
      rw [printAll, List.map_cons, List.intercalate_cons_of_ne_nil (by simp [printAll]), spellAll,
        List.intercalate_cons_of_ne_nil (by simp [spellAll]), List.append_assoc, List.append_assoc,
        List.singleton_append, scan_print arg harg (Token.breaks_cons (by decide)),
        Token.scan_mark (by decide) (by decide),
        scan_printAll (other :: args) (fun a ha => hnamed a (by simp [ha])) hc]
      simp

end

theorem ofText_print {term : Term} (hnamed : term.Named) :
    Token.ofText term.print = term.spell := by
  have hscan : Token.scan [] (term.print.toList ++ []) = term.spell ++ Token.scan [] [] :=
    scan_print term hnamed (by simp [Token.Breaks])
  simpa [Token.ofText, Token.scan, Token.finish] using hscan

/-- A text is read as a term when it has the tokens of the printed term. -/
theorem parse_eq_ok_iff_texts {text : String} {term : Term} :
    parse text = .ok term ↔ term.Named ∧ Token.texts text = Token.texts term.print := by
  rw [parse_eq_ok_iff]
  constructor
  · intro htokens
    have hnamed : term.Named := named_of_spell term fun token htoken =>
      Token.scanned_of_mem_ofText (htokens ▸ htoken)
    exact ⟨hnamed, Token.texts_eq_iff.mpr (htokens.trans (ofText_print hnamed).symm)⟩
  · rintro ⟨hnamed, htexts⟩
    exact (Token.texts_eq_iff.mp htexts).trans (ofText_print hnamed)

end Term
end TermAlgebra
