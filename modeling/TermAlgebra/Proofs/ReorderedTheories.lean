import Mathlib.Data.List.Permutation
import TermAlgebra.Proofs.ConstantCycles
import TermAlgebra.Proofs.PlainCalculus
import TermAlgebra.Proofs.ReachedParameters

/-!
Theories that declare the same term constructors in another order. What is looked up in a theory
depends on its types, which stay in order, or on which overloads a name has; only lists of names
come out in another order. So the check gives the same diagnostics, each of them as often, and a
calculus is refused for the one theory just when it is for the other. For the constructions that
come back to themselves this rests on what the search finds and not on the way it takes: the graph
of the reordered theory has the same edges, but both its names and its edges stand in another order.
-/
namespace TermAlgebra

section Occurrences

variable {α : Type} [BEq α] [LawfulBEq α] {keys keys' : List α}

theorem nodup_eraseDups : ∀ keys : List α, keys.eraseDups.Nodup
  | [] => List.nodup_nil
  | key :: rest => by
    have hfresh : key ∉ (rest.filter fun other => !other == key).eraseDups := by
      simp [List.mem_eraseDups]
    rw [List.eraseDups_cons]
    exact List.nodup_cons.mpr ⟨hfresh, nodup_eraseDups _⟩
termination_by keys => keys.length
decreasing_by exact Nat.lt_succ_of_le (List.length_filter_le _ rest)

theorem eraseDups_perm (h : keys.Perm keys') : keys.eraseDups.Perm keys'.eraseDups := by
  apply (List.perm_ext_iff_of_nodup (nodup_eraseDups keys) (nodup_eraseDups keys')).mpr
  intro key
  rw [List.mem_eraseDups, List.mem_eraseDups, h.mem_iff]

theorem occurrences_perm (h : keys.Perm keys') :
    (occurrences keys).Perm (occurrences keys') := by
  have hcount : (fun key => (key, keys.count key)) = fun key => (key, keys'.count key) := by
    funext key
    rw [h.count_eq]
  rw [occurrences, occurrences, hcount]
  exact (eraseDups_perm h).map _

end Occurrences

namespace Theory

/-- The first theory has the types of the second in the same order and its term constructors in any
order. -/
structure Reorders (reordered theory : Theory) : Prop where
  types : reordered.types = theory.types
  terms : reordered.terms.Perm theory.terms

variable {reordered theory : Theory}

section Lookups

theorem Reorders.typeNames (h : reordered.Reorders theory) :
    reordered.typeNames = theory.typeNames := by
  rw [Theory.typeNames, Theory.typeNames, h.types]

theorem Reorders.isAccessor (h : reordered.Reorders theory) :
    reordered.isAccessor = theory.isAccessor := by
  funext name
  rw [Theory.isAccessor, Theory.isAccessor, h.types]

theorem Reorders.accessorPlaces (h : reordered.Reorders theory) :
    reordered.accessorPlaces = theory.accessorPlaces := by
  rw [Theory.accessorPlaces, Theory.accessorPlaces, h.types]

theorem Reorders.type? (h : reordered.Reorders theory) : reordered.type? = theory.type? := by
  funext name
  rw [Theory.type?, Theory.type?, h.types]

theorem Reorders.termsNamed (h : reordered.Reorders theory) (name : String) :
    (reordered.termsNamed name).Perm (theory.termsNamed name) :=
  h.terms.filter _

/-- The ways to the parameters of a constructor go through declared types only. -/
theorem Reorders.paths (h : reordered.Reorders theory) (c : TermConstructor) :
    c.paths reordered = c.paths theory := by
  apply TermConstructor.paths_congr
  intro name
  have hvariables : reordered.typeVariables = theory.typeVariables := by
    funext type
    cases type with
    | var => rfl
    | app head args => simp only [typeVariables, h.type?]
  simp only [TermConstructor.steps, hvariables]

theorem Reorders.expandedResult (h : reordered.Reorders theory) (c : TermConstructor) :
    c.expandedResult reordered = c.expandedResult theory := by
  rw [TermConstructor.expandedResult, TermConstructor.expandedResult, h.paths]

end Lookups

section Issues

theorem Reorders.headIssues (h : reordered.Reorders theory) :
    reordered.headIssues = theory.headIssues := by
  funext place head given
  have hoverloads := h.termsNamed head
  simp only [Theory.headIssues, h.isAccessor, hoverloads.isEmpty_eq, hoverloads.all_eq]

mutual

theorem Reorders.termIssues (h : reordered.Reorders theory) (place : Place) (term : Term) :
    reordered.termIssues place term = theory.termIssues place term := by
  match term with
  | .var _ => rfl
  | .app head args =>
    rw [Theory.termIssues, Theory.termIssues, h.headIssues, Reorders.termIssuesAll h place args]

theorem Reorders.termIssuesAll (h : reordered.Reorders theory) (place : Place)
    (terms : List Term) :
    reordered.termIssuesAll place terms = theory.termIssuesAll place terms := by
  match terms with
  | [] => rfl
  | term :: rest =>
    rw [Theory.termIssuesAll, Theory.termIssuesAll, Reorders.termIssues h place term,
      Reorders.termIssuesAll h place rest]

end

theorem Reorders.typeIssues (h : reordered.Reorders theory) :
    reordered.typeIssues = theory.typeIssues := by
  funext place type
  cases type with
  | var => rfl
  | app head args => simp only [Theory.typeIssues, h.type?, h.termIssuesAll]

theorem Reorders.typeConstructorIssues (h : reordered.Reorders theory) :
    reordered.typeConstructorIssues = theory.typeConstructorIssues := by
  funext t
  simp only [Theory.typeConstructorIssues, h.typeIssues]

theorem Reorders.termConstructorIssues (h : reordered.Reorders theory) :
    reordered.termConstructorIssues = theory.termConstructorIssues := by
  funext c
  simp only [Theory.termConstructorIssues, h.paths, h.typeIssues, h.termIssues]

theorem Reorders.typeNameIssues (h : reordered.Reorders theory) :
    reordered.typeNameIssues = theory.typeNameIssues := by
  rw [Theory.typeNameIssues, Theory.typeNameIssues, h.typeNames]

theorem Reorders.termNameIssues (h : reordered.Reorders theory) :
    reordered.termNameIssues = theory.termNameIssues := by
  funext name
  rw [Theory.termNameIssues, Theory.termNameIssues, h.typeNames, h.isAccessor]

theorem Reorders.accessorIssues (h : reordered.Reorders theory) :
    reordered.accessorIssues = theory.accessorIssues := by
  funext name
  simp only [Theory.accessorIssues, accessorOwners, h.typeNames, h.accessorPlaces]

end Issues

section Diagnostics

theorem Reorders.termNames (h : reordered.Reorders theory) :
    reordered.termNames.Perm theory.termNames :=
  eraseDups_perm (h.terms.map _)

/-- Overloads that take the same sorts are counted, wherever they stand. -/
theorem Reorders.overloadDiagnostics (h : reordered.Reorders theory) :
    reordered.overloadDiagnostics.Perm theory.overloadDiagnostics :=
  (occurrences_perm (h.terms.map _)).filterMap _

theorem Reorders.nameDiagnostics (h : reordered.Reorders theory) :
    reordered.nameDiagnostics.Perm theory.nameDiagnostics := by
  rw [Theory.nameDiagnostics, Theory.nameDiagnostics, accessorNames, accessorNames,
    h.accessorPlaces, h.typeNameIssues, h.termNameIssues, h.accessorIssues]
  have hnames := h.termNames.flatMap_right theory.termNameIssues
  exact (((hnames.append_left _).append_right _).map _).append h.overloadDiagnostics

theorem Reorders.constantCall_iff (h : reordered.Reorders theory) (caller callee : String) :
    reordered.ConstantCall caller callee ↔ theory.ConstantCall caller callee := by
  simp only [ConstantCall, h.terms.mem_iff, h.expandedResult]

/-- Both searches find the names on cycles of the same calls, each name once. -/
theorem Reorders.regressDiagnostics (h : reordered.Reorders theory) :
    reordered.regressDiagnostics.Perm theory.regressDiagnostics := by
  have hcalls : reordered.ConstantCall = theory.ConstantCall := by
    funext caller callee
    exact propext (h.constantCall_iff caller callee)
  apply (List.perm_ext_iff_of_nodup regressDiagnostics_nodup regressDiagnostics_nodup).mpr
  intro d
  rw [mem_regressDiagnostics, mem_regressDiagnostics, hcalls]

/-- The passes of the check find the same one after the other: those over names and over term
constructors in another order, that over type constructors in the same. -/
theorem Reorders.findings (h : reordered.Reorders theory) :
    reordered.findings.Perm theory.findings := by
  rw [Theory.findings, Theory.findings, h.types, h.typeConstructorIssues, h.termConstructorIssues]
  exact ((h.nameDiagnostics.append_right _).append (h.terms.flatMap_right _)).append
    h.regressDiagnostics

end Diagnostics

section Checks

theorem accepted_iff_of_check {diagnostics : List Diagnostic} (h : theory.check = .ok diagnostics) :
    theory.Accepted ↔ ∀ d ∈ diagnostics, d.isError = false := by
  refine ⟨fun haccepted => ?_, fun hnone => ⟨diagnostics, h, hnone⟩⟩
  obtain ⟨_, hcheck, hnone⟩ := haccepted
  cases hcheck.symm.trans h
  exact hnone

/-- The only theories for which a calculus is refused as ill-formed are those that are not accepted.
-/
theorem illFormed_iff (hcheck : ∃ diagnostics, theory.check = .ok diagnostics)
    (name? : Option String) (overrides : Table Override) :
    (∃ errors, Calculus.create theory name? overrides = .error (.illFormed theory.name errors)) ↔
      ¬theory.Accepted := by
  obtain ⟨diagnostics, hcheck⟩ := hcheck
  have haccepted : theory.Accepted ↔ diagnostics.filter Diagnostic.isError = [] := by
    simp [accepted_iff_of_check hcheck, List.filter_eq_nil_iff]
  rw [haccepted, Calculus.create_of_check hcheck]
  by_cases herrors : diagnostics.filter Diagnostic.isError = []
  · simp only [herrors, ne_eq, not_true_eq_false, if_false, iff_false, not_exists]
    intro errors
    split <;> nofun
  · simp [herrors]

/-- Checking does not depend on the order of the term constructors: the same diagnostics are listed,
each as often, so both theories are accepted or neither is, and a calculus is refused for both or
for neither, whatever its name and overrides. -/
theorem Reorders.check_perm (h : reordered.Reorders theory)
    (happlications : ∀ c ∈ theory.terms, c.result.isApplication = true) :
    ∃ diagnostics diagnostics', theory.check = .ok diagnostics ∧
      reordered.check = .ok diagnostics' ∧ diagnostics'.Perm diagnostics ∧
      (reordered.Accepted ↔ theory.Accepted) ∧
      ∀ name? overrides,
        (∃ errors, Calculus.create reordered name? overrides =
          .error (.illFormed reordered.name errors)) ↔
        ∃ errors, Calculus.create theory name? overrides =
          .error (.illFormed theory.name errors) := by
  have happlications' : ∀ c ∈ reordered.terms, c.result.isApplication = true :=
    fun c hc => happlications c (h.terms.mem_iff.mp hc)
  have hcheck := check_of_applications happlications
  have hcheck' := check_of_applications happlications'
  have hperm : (reordered.findings.mergeSort Diagnostic.notAfter).Perm
      (theory.findings.mergeSort Diagnostic.notAfter) :=
    ((List.mergeSort_perm _ _).trans h.findings).trans (List.mergeSort_perm _ _).symm
  have haccepted : reordered.Accepted ↔ theory.Accepted := by
    rw [accepted_iff_of_check hcheck', accepted_iff_of_check hcheck]
    exact ⟨fun hnone d hd => hnone d (hperm.mem_iff.mpr hd),
      fun hnone d hd => hnone d (hperm.mem_iff.mp hd)⟩
  refine ⟨_, _, hcheck, hcheck', hperm, haccepted, fun name? overrides => ?_⟩
  rw [illFormed_iff ⟨_, hcheck'⟩, illFormed_iff ⟨_, hcheck⟩, haccepted]

open Standard

/-- Two points that lie over each other, and two ways to join objects that cannot be told apart. -/
def tangled : Theory := crossed.extend "Tangled" []
  [constructor "join" [] (objects ["A", "B"]) ob none,
    constructor "join" [] (objects ["C", "D"]) ob none] none

theorem check_perm_tangled :
    let reversed : Theory := { tangled with terms := tangled.terms.reverse }
    let ambiguity : Diagnostic := ⟨some "join", .ambiguousOverload "join" ["Ob", "Ob"] 2⟩
    reversed.Reorders tangled ∧ (∀ c ∈ tangled.terms, c.result.isApplication = true) ∧
      ∃ diagnostics, reversed.check = .ok diagnostics ∧
        diagnostics.Perm [regress "left", regress "right", ambiguity] ∧ ¬reversed.Accepted := by
  intro reversed ambiguity
  have hreorders : reversed.Reorders tangled := ⟨rfl, tangled.terms.reverse_perm⟩
  have happlications : ∀ c ∈ tangled.terms, c.result.isApplication = true := by decide
  have hfound : tangled.check = .ok [regress "left", regress "right", ambiguity] := by cbv
  obtain ⟨_, diagnostics, hcheck, hcheck', hperm, haccepted, -⟩ :=
    hreorders.check_perm happlications
  cases hcheck.symm.trans hfound
  refine ⟨hreorders, happlications, diagnostics, hcheck', hperm, ?_⟩
  rw [haccepted, accepted_iff_of_check hfound]
  intro hnone
  cases hnone _ List.mem_cons_self

end Checks
end Theory
end TermAlgebra
