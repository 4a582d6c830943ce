import TermAlgebra.Proofs.DeclaredSorts
import TermAlgebra.Proofs.ReorderedTheories

/-!
Overloads that cannot be told apart. The check counts the declarations of a name whose parameters
have the same sorts, while a call takes the first declaration that accepts its arguments. Where no
parameter takes all data, the sorts of the arguments are those of the parameters, so two
declarations accept the same arguments just when the check counts them together. A name without a
warning then has at most one declaration for any arguments, and it does not matter which is looked
at first.
-/
namespace TermAlgebra

section Counting

variable {α : Type} {p : α → Bool} {items reordered : List α}

/-- A property is counted more than once if it holds at two places. -/
theorem one_lt_countP_iff : 1 < items.countP p ↔
    ∃ (i j : Nat) (a b : α), i < j ∧ items[i]? = some a ∧ items[j]? = some b ∧
      p a = true ∧ p b = true := by
  induction items with
  | nil => simp
  | cons item rest ih =>
    rw [List.countP_cons]
    by_cases hitem : p item = true
    · rw [if_pos hitem, Nat.lt_add_left_iff_pos, List.countP_pos_iff]
      refine ⟨fun hrest => ?_, fun hplaces => ?_⟩
      · obtain ⟨b, hmem, hb⟩ := hrest
        obtain ⟨j, hj⟩ := List.mem_iff_getElem?.mp hmem
        exact ⟨0, j + 1, item, b, Nat.succ_pos j, rfl, hj, hitem, hb⟩
      · obtain ⟨i, j, a, b, hlt, -, hj, -, hb⟩ := hplaces
        obtain ⟨k, rfl⟩ := Nat.exists_eq_add_of_lt hlt
        exact ⟨b, List.mem_of_getElem? hj, hb⟩
    · rw [if_neg hitem, Nat.add_zero, ih]
      refine ⟨fun hplaces => ?_, fun hplaces => ?_⟩
      · obtain ⟨i, j, a, b, hlt, hi, hj, ha, hb⟩ := hplaces
        exact ⟨i + 1, j + 1, a, b, Nat.succ_lt_succ hlt, hi, hj, ha, hb⟩
      · obtain ⟨i, j, a, b, hlt, hi, hj, ha, hb⟩ := hplaces
        obtain ⟨k, rfl⟩ := Nat.exists_eq_add_of_lt hlt
        cases i with
        | zero =>
          cases hi
          exact absurd ha hitem
        | succ i =>
          refine ⟨i, i + k + 1, a, b, by omega, hi, ?_, ha, hb⟩
          rw [← hj, show i + 1 + k + 1 = i + k + 1 + 1 by omega, List.getElem?_cons_succ]

/-- If at most one item has the property, it is found in whatever order one looks. -/
theorem find?_eq_of_perm (h : reordered.Perm items) (hone : items.countP p ≤ 1) :
    reordered.find? p = items.find? p := by
  have hfilter := h.filter p
  rw [List.countP_eq_length_filter] at hone
  rw [← List.head?_filter, ← List.head?_filter]
  match hitems : items.filter p with
  | [] => rw [hitems] at hfilter; rw [hfilter.eq_nil]
  | [item] => rw [hitems] at hfilter; rw [hfilter.eq_singleton]
  | _ :: _ :: _ => rw [hitems] at hone; simp at hone

end Counting

section Sorts

/-- Where no sort takes all data, values fit one list of sorts only. -/
theorem FitAll.eq {sorts sorts' : List String} {values : List Value} (h : FitAll sorts values)
    (h' : FitAll sorts' values) (hsorts : anySort ∉ sorts) (hsorts' : anySort ∉ sorts') :
    sorts = sorts' := by
  induction h generalizing sorts' with
  | nil =>
    cases h'
    rfl
  | cons hvalue _ ih =>
    cases h' with
    | cons hvalue' hrest' =>
      rw [List.mem_cons, not_or] at hsorts hsorts'
      have hsort := (Constructor.fits_iff.mp hvalue).resolve_left (Ne.symm hsorts.1)
      have hsort' := (Constructor.fits_iff.mp hvalue').resolve_left (Ne.symm hsorts'.1)
      rw [Value.hasSort_unique hsort hsort', ih hrest' hsorts.2 hsorts'.2]

/-- There are values of any sorts. -/
theorem exists_fitAll (sorts : List String) : ∃ values, FitAll sorts values := by
  refine ⟨sorts.map fun sort => .expr "" [] [] sort, ?_⟩
  rw [FitAll, List.forall₂_map_right_iff, List.forall₂_same]
  intro sort _
  exact Constructor.fits_iff.mpr (Or.inr (decide_eq_true rfl))

end Sorts

namespace TermConstructor

/-- Whether the constructor is a declaration of the name that accepts the arguments. -/
def answers (name : String) (args : List Value) (c : TermConstructor) : Bool :=
  c.name = name && Constructor.accepts ⟨c, .compound⟩ args

theorem answers_iff {name : String} {args : List Value} {c : TermConstructor} :
    c.answers name args = true ↔ c.name = name ∧ FitAll c.paramSorts args := by
  rw [answers, Bool.and_eq_true, decide_eq_true_eq, Constructor.accepts_iff_fitAll]

end TermConstructor

namespace Theory

variable {theory reordered : Theory}

/-- Two declarations of the name at different places accept the same arguments. -/
def Overlaps (theory : Theory) (name : String) : Prop :=
  ∃ (args : List Value) (i j : Nat) (c d : TermConstructor), i < j ∧
    theory.terms[i]? = some c ∧ theory.terms[j]? = some d ∧
    c.answers name args = true ∧ d.answers name args = true

/-- A diagnostic that warns of overloads of the name. -/
def WarnsOf (name : String) (d : Diagnostic) : Prop :=
  d.issue.rule = "overload_ambiguous" ∧ d.constructor? = some name

theorem overlaps_iff {name : String} :
    theory.Overlaps name ↔ ∃ args, 1 < theory.terms.countP (·.answers name args) := by
  simp only [Overlaps, one_lt_countP_iff]

section Warnings

/-- How many declarations the name has for parameters of the sorts. -/
def declarations (theory : Theory) (name : String) (sorts : List String) : Nat :=
  theory.terms.countP fun c => (c.name, c.paramSorts) == (name, sorts)

theorem mem_overloadDiagnostics {d : Diagnostic} : d ∈ theory.overloadDiagnostics ↔
    ∃ name sorts, 1 < theory.declarations name sorts ∧
      d = ⟨some name, .ambiguousOverload name sorts (theory.declarations name sorts)⟩ := by
  have hcount (key : String × List String) :
      (theory.terms.map fun c => (c.name, c.paramSorts)).count key =
        theory.declarations key.1 key.2 := by
    rw [List.count, List.countP_map]
    rfl
  simp only [overloadDiagnostics, occurrences, List.mem_filterMap, List.mem_map,
    List.mem_eraseDups, Option.ite_none_right_eq_some, Option.some.injEq, hcount]
  refine ⟨fun hreported => ?_, fun hcounted => ?_⟩
  · obtain ⟨_, ⟨⟨name, sorts⟩, -, rfl⟩, hlt, rfl⟩ := hreported
    exact ⟨name, sorts, hlt, rfl⟩
  · obtain ⟨name, sorts, hlt, rfl⟩ := hcounted
    obtain ⟨c, hc, hkey⟩ := List.countP_pos_iff.mp (Nat.zero_lt_of_lt hlt)
    exact ⟨_, ⟨(name, sorts), ⟨c, hc, beq_iff_eq.mp hkey⟩, rfl⟩, hlt, rfl⟩

/-- Only the pass over the overloads warns of them. -/
theorem mem_overloadDiagnostics_of_rule {d : Diagnostic} (hd : d ∈ theory.findings)
    (hrule : d.issue.rule = "overload_ambiguous") : d ∈ theory.overloadDiagnostics := by
  have hlocal : d.issue.isLocal ≠ true := by
    intro hlocal
    cases hissue : d.issue <;> simp [hissue, Issue.rule, Issue.isLocal] at hrule hlocal
  simp only [findings, List.mem_append, List.mem_flatMap, List.mem_map] at hd
  rcases hd with ((hname | ⟨t, -, issue, htype, rfl⟩) | ⟨c, -, issue, hterm, rfl⟩) | hregress
  · exact (nameDiagnostics_cases hname).resolve_left (by simp [hrule])
  · exact absurd (typeConstructorIssues_are_local htype) hlocal
  · exact absurd (termConstructorIssues_are_local hterm) hlocal
  · obtain ⟨other, rfl, -⟩ := mem_regressDiagnostics.mp hregress
    simp [regress, Issue.rule] at hrule

/-- The check warns of a name just when it counts two declarations of it for the same sorts. -/
theorem warned_iff {name : String} : (∃ d ∈ theory.findings, WarnsOf name d) ↔
    ∃ sorts, 1 < theory.declarations name sorts := by
  refine ⟨fun hwarned => ?_, fun hcounted => ?_⟩
  · obtain ⟨d, hd, hrule, hname⟩ := hwarned
    obtain ⟨other, sorts, hlt, rfl⟩ :=
      mem_overloadDiagnostics.mp (mem_overloadDiagnostics_of_rule hd hrule)
    cases hname
    exact ⟨sorts, hlt⟩
  · obtain ⟨sorts, hlt⟩ := hcounted
    have hmem : ⟨some name, .ambiguousOverload name sorts (theory.declarations name sorts)⟩ ∈
        theory.findings := by
      simp only [findings, nameDiagnostics, List.mem_append]
      exact Or.inl (Or.inl (Or.inl (Or.inr
        (mem_overloadDiagnostics.mpr ⟨name, sorts, hlt, rfl⟩))))
    exact ⟨_, hmem, rfl, rfl⟩

/-- Where no parameter takes all data, declarations accept the same arguments just when they take
the same sorts. -/
theorem overlaps_iff_declarations (hsorts : ∀ c ∈ theory.terms, anySort ∉ c.paramSorts)
    {name : String} : theory.Overlaps name ↔ ∃ sorts, 1 < theory.declarations name sorts := by
  simp only [Overlaps, declarations, one_lt_countP_iff, TermConstructor.answers_iff, beq_iff_eq,
    Prod.mk.injEq]
  refine ⟨fun hoverlap => ?_, fun hcounted => ?_⟩
  · obtain ⟨args, i, j, c, d, hlt, hc, hd, ⟨hname, hfit⟩, hname', hfit'⟩ := hoverlap
    have hsame : c.paramSorts = d.paramSorts := hfit.eq hfit'
      (hsorts c (List.mem_of_getElem? hc)) (hsorts d (List.mem_of_getElem? hd))
    exact ⟨d.paramSorts, i, j, c, d, hlt, hc, hd, ⟨hname, hsame⟩, hname', rfl⟩
  · obtain ⟨sorts, i, j, c, d, hlt, hc, hd, ⟨hname, hsame⟩, hname', hsame'⟩ := hcounted
    obtain ⟨args, hfit⟩ := exists_fitAll sorts
    exact ⟨args, i, j, c, d, hlt, hc, hd, ⟨hname, hsame ▸ hfit⟩, hname', hsame' ▸ hfit⟩

end Warnings

end Theory

namespace Calculus

variable {calculus reordered : Calculus}

theorem resolve_of_overloads_ne_nil {name : String} (h : calculus.overloads name ≠ [])
    (args : List Value) : calculus.resolve name args =
      match (calculus.overloads name).find? fun c => c.accepts args with
      | some c => .ok c
      | none => .error (calculus.noMethod name args) := by
  unfold resolve
  split
  · rename_i hnil
    exact absurd hnil h
  · rfl

theorem countP_accepts (name : String) (args : List Value) :
    ((calculus.theory.termsNamed name).map (⟨·, .compound⟩)).countP
        (fun c : Constructor => c.accepts args) =
      calculus.theory.terms.countP (·.answers name args) := by
  rw [List.countP_map, Theory.termsNamed, List.countP_filter]
  congr 1
  funext c
  exact Bool.and_comm _ _

/-- Where at most one declaration answers, it is found in every order of declaration. -/
theorem resolve_of_reorders (hname : reordered.name = calculus.name)
    (h : reordered.theory.Reorders calculus.theory) {name : String} {args : List Value}
    (hone : calculus.theory.terms.countP (·.answers name args) ≤ 1) :
    reordered.resolve name args = calculus.resolve name args := by
  have hterms :
      ((reordered.theory.termsNamed name).map fun c => (⟨c, .compound⟩ : Constructor)).Perm
        ((calculus.theory.termsNamed name).map (⟨·, .compound⟩)) := (h.termsNamed name).map _
  have hoverloads : (reordered.overloads name).Perm (calculus.overloads name) := by
    rw [overloads, overloads, h.types]
    exact hterms.append_right _
  have hfind : (reordered.overloads name).find? (fun c => c.accepts args) =
      (calculus.overloads name).find? fun c => c.accepts args := by
    rw [← countP_accepts] at hone
    rw [overloads, overloads, List.find?_append, List.find?_append, h.types,
      find?_eq_of_perm hterms hone]
  by_cases hnil : calculus.overloads name = []
  · have hnil' : reordered.overloads name = [] := by
      rw [hnil] at hoverloads
      exact hoverloads.eq_nil
    simp only [resolve, hnil, hnil', hname]
  · have hnil' : reordered.overloads name ≠ [] := by
      intro hempty
      rw [hempty] at hoverloads
      exact hnil hoverloads.symm.eq_nil
    rw [resolve_of_overloads_ne_nil hnil', resolve_of_overloads_ne_nil hnil, hfind, noMethod,
      noMethod, hname]

end Calculus

namespace Theory

variable {theory : Theory}

/-- Where no parameter of a term constructor takes all data, the check warns of the overloads of a
name exactly if two declarations of it accept the same arguments. Without a warning at most one
declaration accepts any given arguments, and a call finds the same one, or fails in the same way, in
whatever order the term constructors are declared. -/
theorem overload_warning_exact {diagnostics : List Diagnostic}
    (hcheck : theory.check = .ok diagnostics)
    (hsorts : ∀ c ∈ theory.terms, anySort ∉ c.paramSorts) (name : String) :
    ((∃ d ∈ diagnostics, WarnsOf name d) ↔ theory.Overlaps name) ∧
    ((¬∃ d ∈ diagnostics, WarnsOf name d) → ∀ args,
      theory.terms.countP (·.answers name args) ≤ 1 ∧
      ∀ calculus reordered : Calculus, calculus.theory = theory →
        reordered.theory.Reorders theory → reordered.name = calculus.name →
        reordered.resolve name args = calculus.resolve name args) := by
  have hexact : (∃ d ∈ diagnostics, WarnsOf name d) ↔ theory.Overlaps name := by
    rw [overlaps_iff_declarations hsorts, ← warned_iff]
    simp only [mem_check_iff hcheck]
  refine ⟨hexact, fun hnone args => ?_⟩
  have hone : theory.terms.countP (·.answers name args) ≤ 1 := by
    rw [hexact, overlaps_iff, not_exists] at hnone
    exact Nat.le_of_not_lt (hnone args)
  refine ⟨hone, fun calculus reordered htheory hreorders hname => ?_⟩
  subst htheory
  exact Calculus.resolve_of_reorders hname hreorders hone

section Example

open Standard Calculus

/-- Monoidal categories with two ways to join objects, which cannot be told apart. -/
def joined : Theory := monoidal.extend "Joined" []
  [constructor "join" [] (objects ["A", "B"]) ob none,
    constructor "join" [] (objects ["C", "D"]) ob none] none

/-- The two ways to join overlap; the two tensor products are found in the reverse order as well. -/
theorem overload_warning_of_joined :
    let reversed : Theory := { joined with terms := joined.terms.reverse }
    joined.check = .ok [⟨some "join", .ambiguousOverload "join" ["Ob", "Ob"] 2⟩] ∧
      (∀ c ∈ joined.terms, anySort ∉ c.paramSorts) ∧ joined.Overlaps "join" ∧
      ∀ args, (calculusOf reversed).resolve "otimes" args =
        (calculusOf joined).resolve "otimes" args := by
  intro reversed
  have hcheck : joined.check =
      .ok [⟨some "join", .ambiguousOverload "join" ["Ob", "Ob"] 2⟩] := by cbv
  have hsorts : ∀ c ∈ joined.terms, anySort ∉ c.paramSorts := by decide
  have hreorders : reversed.Reorders joined := ⟨rfl, joined.terms.reverse_perm⟩
  refine ⟨hcheck, hsorts, ?_, fun args => ?_⟩
  · exact (overload_warning_exact hcheck hsorts "join").1.mp ⟨_, List.mem_cons_self, rfl, rfl⟩
  · have hnone : ¬∃ d ∈ [(⟨some "join", .ambiguousOverload "join" ["Ob", "Ob"] 2⟩ : Diagnostic)],
        WarnsOf "otimes" d := by
      simp [WarnsOf]
    exact ((overload_warning_exact hcheck hsorts "otimes").2 hnone args).2
      (calculusOf joined) (calculusOf reversed) rfl hreorders rfl

end Example

end Theory
end TermAlgebra
