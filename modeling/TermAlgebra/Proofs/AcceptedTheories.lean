import Mathlib.Data.List.Nodup
import TermAlgebra.Theory.Check

/-!
What the check of a theory guarantees. An accepted theory has one type constructor for a name; the
names of term constructors, type constructors, accessors and of the generators' head are kept
apart; and no declaration has an issue. The order in which diagnostics are listed plays no part.
-/
namespace TermAlgebra

/-- Whether the issue is one of a declaration on its own. The others are about names, and about
constructions that come back to themselves. -/
def Issue.isLocal : Issue → Bool
  | .variableAsType .. | .undeclaredType .. | .typeArity .. | .accessorArity .. | .undeclaredTerm ..
  | .termArity .. | .untypedParameter _ | .undeclaredVariable .. | .unrecoverable _ => true
  | _ => false

theorem Issue.severity_of_isLocal {issue : Issue} (h : issue.isLocal = true) :
    issue.severity = .error := by
  cases issue <;> first | rfl | cases h

namespace Theory

/-- The check finds no error; there may be warnings. -/
def Accepted (theory : Theory) : Prop :=
  ∃ diagnostics, theory.check = .ok diagnostics ∧ ∀ d ∈ diagnostics, d.isError = false

/-- The check finds no error, and no accessor that several type constructors share. -/
def AcceptedUnshared (theory : Theory) : Prop :=
  ∃ diagnostics, theory.check = .ok diagnostics ∧
    ∀ d ∈ diagnostics, d.isError = false ∧ d.issue.rule ≠ "accessor_shared"

/-- What holds of the declarations of a theory without errors. -/
structure Consistent (theory : Theory) : Prop where
  typeNames_nodup : theory.typeNames.Nodup
  term_ne_generator : ∀ c ∈ theory.terms, c.name ≠ generatorHead
  term_not_type : ∀ c ∈ theory.terms, c.name ∉ theory.typeNames
  term_not_accessor : ∀ c ∈ theory.terms, theory.isAccessor c.name = false
  type_not_accessor : ∀ t ∈ theory.types, theory.isAccessor t.name = false
  typeConstructorIssues : ∀ t ∈ theory.types, theory.typeConstructorIssues t = []
  termConstructorIssues : ∀ c ∈ theory.terms, theory.termConstructorIssues c = []

variable {theory : Theory}

theorem AcceptedUnshared.accepted (h : theory.AcceptedUnshared) : theory.Accepted := by
  obtain ⟨diagnostics, hcheck, hnone⟩ := h
  exact ⟨diagnostics, hcheck, fun d hd => (hnone d hd).1⟩

/-- The diagnostics are those that were found, in another order. -/
theorem mem_check_iff {diagnostics : List Diagnostic} (h : theory.check = .ok diagnostics)
    {d : Diagnostic} : d ∈ diagnostics ↔ d ∈ theory.findings := by
  unfold check at h
  split at h
  · cases h
  · cases h
    exact List.mem_mergeSort

theorem Accepted.no_error (h : theory.Accepted) {d : Diagnostic} (hd : d ∈ theory.findings) :
    d.isError = false := by
  obtain ⟨diagnostics, hcheck, hnone⟩ := h
  exact hnone d ((mem_check_iff hcheck).mpr hd)

theorem mem_findings_of_name {issue : Issue}
    (h : issue ∈ theory.typeNameIssues ++ theory.termNames.flatMap theory.termNameIssues ++
      theory.accessorNames.flatMap theory.accessorIssues) :
    ⟨none, issue⟩ ∈ theory.findings := by
  simp only [findings, nameDiagnostics, List.mem_append]
  exact Or.inl (Or.inl (Or.inl (Or.inl (List.mem_map.mpr ⟨issue, h, rfl⟩))))

theorem mem_findings_of_termName {c : TermConstructor} (hc : c ∈ theory.terms) {issue : Issue}
    (h : issue ∈ theory.termNameIssues c.name) : ⟨none, issue⟩ ∈ theory.findings := by
  apply mem_findings_of_name
  have hname : c.name ∈ theory.termNames :=
    List.mem_eraseDups.mpr (List.mem_map.mpr ⟨c, hc, rfl⟩)
  exact List.mem_append.mpr (Or.inl (List.mem_append.mpr
    (Or.inr (List.mem_flatMap.mpr ⟨c.name, hname, h⟩))))

theorem mem_accessorNames {name : String} :
    name ∈ theory.accessorNames ↔ theory.isAccessor name = true := by
  simp only [accessorNames, accessorPlaces, isAccessor, List.mem_eraseDups, List.mem_map,
    List.mem_flatMap, List.any_eq_true, List.contains_iff_mem]
  constructor
  · rintro ⟨place, ⟨t, ht, p, hp, rfl⟩, rfl⟩
    exact ⟨t, ht, List.fst_mem_of_mem_zipIdx hp⟩
  · rintro ⟨t, ht, hname⟩
    obtain ⟨i, hi, rfl⟩ := List.mem_iff_getElem.mp hname
    exact ⟨(t.params[i], t.name, i), ⟨t, ht, (t.params[i], i), List.mk_mem_zipIdx_iff_getElem?.mpr
      (List.getElem?_eq_getElem hi), rfl⟩, rfl⟩

theorem Accepted.typeNames_nodup (h : theory.Accepted) : theory.typeNames.Nodup := by
  apply List.nodup_iff_count.mpr
  intro name
  by_contra hcount
  have hmem : name ∈ theory.typeNames := List.count_pos_iff.mp (by omega)
  have hissue : Issue.repeatedType name (theory.typeNames.count name) ∈ theory.typeNameIssues := by
    refine List.mem_filterMap.mpr ⟨(name, theory.typeNames.count name), ?_, ?_⟩
    · exact List.mem_map.mpr ⟨name, List.mem_eraseDups.mpr hmem, rfl⟩
    · simp only [ite_eq_left_iff]
      omega
  have herror := h.no_error (mem_findings_of_name
    (List.mem_append.mpr (Or.inl (List.mem_append.mpr (Or.inl hissue)))))
  simp [Diagnostic.isError, Issue.severity] at herror

theorem Accepted.termNameIssues_eq_nil (h : theory.Accepted) {c : TermConstructor}
    (hc : c ∈ theory.terms) : theory.termNameIssues c.name = [] := by
  apply List.eq_nil_iff_forall_not_mem.mpr
  intro issue hissue
  have herror := h.no_error (mem_findings_of_termName hc hissue)
  simp only [termNameIssues, List.mem_append, List.mem_ite_nil_right, List.mem_singleton] at hissue
  rcases hissue with (⟨_, rfl⟩ | ⟨_, rfl⟩) | ⟨_, rfl⟩ <;>
    simp [Diagnostic.isError, Issue.severity] at herror

theorem Accepted.accessor_not_type (h : theory.Accepted) {name : String}
    (hacc : theory.isAccessor name = true) : name ∉ theory.typeNames := by
  intro htype
  have hissue : Issue.accessorNamedAsType name ∈ theory.accessorIssues name := by
    simp [accessorIssues, htype]
  have herror := h.no_error (mem_findings_of_name (List.mem_append.mpr (Or.inr
    (List.mem_flatMap.mpr ⟨name, mem_accessorNames.mpr hacc, hissue⟩))))
  simp [Diagnostic.isError, Issue.severity] at herror

theorem headIssues_are_local {place : Place} {head : String} {given : Nat} {issue : Issue}
    (h : issue ∈ theory.headIssues place head given) : issue.isLocal = true := by
  unfold headIssues at h
  split at h
  · split at h
    · simp at h
    · rw [List.mem_singleton.mp h]
      rfl
  · dsimp only at h
    split at h
    · rw [List.mem_singleton.mp h]
      rfl
    · split at h
      · rw [List.mem_singleton.mp h]
        rfl
      · simp at h

mutual

theorem termIssues_are_local (place : Place) (term : Term) {issue : Issue}
    (h : issue ∈ theory.termIssues place term) : issue.isLocal = true := by
  match term with
  | .var _ => simp [termIssues] at h
  | .app head args =>
    rw [termIssues, List.mem_append] at h
    rcases h with h | h
    · exact headIssues_are_local h
    · exact termIssuesAll_are_local place args h

theorem termIssuesAll_are_local (place : Place) (terms : List Term) {issue : Issue}
    (h : issue ∈ theory.termIssuesAll place terms) : issue.isLocal = true := by
  match terms with
  | [] => simp [termIssuesAll] at h
  | term :: rest =>
    rw [termIssuesAll, List.mem_append] at h
    rcases h with h | h
    · exact termIssues_are_local place term h
    · exact termIssuesAll_are_local place rest h

end

theorem typeIssues_are_local {place : Place} {type : Term} {issue : Issue}
    (h : issue ∈ theory.typeIssues place type) : issue.isLocal = true := by
  unfold typeIssues at h
  split at h
  · rw [List.mem_singleton.mp h]
    rfl
  · split at h
    · simp at h
    · split at h
      · rw [List.mem_singleton.mp h]
        rfl
      · rw [List.mem_append] at h
        rcases h with h | h
        · split at h
          · simp at h
          · rw [List.mem_singleton.mp h]
            rfl
        · exact termIssuesAll_are_local place _ h

theorem untypedIssues_are_local {params : List String} {context : Table Term} {issue : Issue}
    (h : issue ∈ untypedIssues params context) : issue.isLocal = true := by
  obtain ⟨param, -, hissue⟩ := List.mem_filterMap.mp h
  split at hissue
  · cases hissue
  · cases hissue
    rfl

theorem typeConstructorIssues_are_local {t : TypeConstructor} {issue : Issue}
    (h : issue ∈ theory.typeConstructorIssues t) : issue.isLocal = true := by
  simp only [typeConstructorIssues, List.mem_append, List.mem_flatMap] at h
  rcases h with h | ⟨entry, -, h | h⟩
  · exact untypedIssues_are_local h
  · exact typeIssues_are_local h
  · obtain ⟨name, -, hissue⟩ := List.mem_filterMap.mp h
    split at hissue
    · cases hissue
    · cases hissue
      rfl

theorem termConstructorIssues_are_local {c : TermConstructor} {issue : Issue}
    (h : issue ∈ theory.termConstructorIssues c) : issue.isLocal = true := by
  simp only [termConstructorIssues, List.mem_append, List.mem_flatMap] at h
  rcases h with (((h | ⟨entry, -, h⟩) | h) | ⟨equation, -, h | h⟩) | h
  · exact untypedIssues_are_local h
  · exact typeIssues_are_local h
  · exact typeIssues_are_local h
  · exact termIssues_are_local .equation _ h
  · exact termIssues_are_local .equation _ h
  · obtain ⟨name, -, hissue⟩ := List.mem_filterMap.mp h
    split at hissue
    · cases hissue
    · cases hissue
      rfl

theorem Accepted.typeConstructorIssues_eq_nil (h : theory.Accepted) {t : TypeConstructor}
    (ht : t ∈ theory.types) : theory.typeConstructorIssues t = [] := by
  apply List.eq_nil_iff_forall_not_mem.mpr
  intro issue hissue
  have hmem : ⟨some t.name, issue⟩ ∈ theory.findings := by
    simp only [findings, List.mem_append]
    exact Or.inl (Or.inl (Or.inr (List.mem_flatMap.mpr
      ⟨t, ht, List.mem_map.mpr ⟨issue, hissue, rfl⟩⟩)))
  have herror := h.no_error hmem
  simp [Diagnostic.isError, Issue.severity_of_isLocal (typeConstructorIssues_are_local hissue)]
    at herror

theorem Accepted.termConstructorIssues_eq_nil (h : theory.Accepted) {c : TermConstructor}
    (hc : c ∈ theory.terms) : theory.termConstructorIssues c = [] := by
  apply List.eq_nil_iff_forall_not_mem.mpr
  intro issue hissue
  have hmem : ⟨some c.name, issue⟩ ∈ theory.findings := by
    simp only [findings, List.mem_append]
    exact Or.inl (Or.inr (List.mem_flatMap.mpr
      ⟨c, hc, List.mem_map.mpr ⟨issue, hissue, rfl⟩⟩))
  have herror := h.no_error hmem
  simp [Diagnostic.isError, Issue.severity_of_isLocal (termConstructorIssues_are_local hissue)]
    at herror

/-- An accepted theory is consistent. -/
theorem Accepted.consistent (h : theory.Accepted) : theory.Consistent where
  typeNames_nodup := h.typeNames_nodup
  term_ne_generator := by
    intro c hc heq
    have hnil := h.termNameIssues_eq_nil hc
    simp [termNameIssues, heq] at hnil
  term_not_type := by
    intro c hc hmem
    have hnil := h.termNameIssues_eq_nil hc
    simp [termNameIssues, hmem] at hnil
  term_not_accessor := by
    intro c hc
    by_contra hacc
    have hnil := h.termNameIssues_eq_nil hc
    simp [termNameIssues, hacc] at hnil
  type_not_accessor := by
    intro t ht
    by_contra hacc
    exact h.accessor_not_type (by simpa using hacc) (List.mem_map.mpr ⟨t, ht, rfl⟩)
  typeConstructorIssues := fun t ht => h.typeConstructorIssues_eq_nil ht
  termConstructorIssues := fun c hc => h.termConstructorIssues_eq_nil hc

end Theory
end TermAlgebra
