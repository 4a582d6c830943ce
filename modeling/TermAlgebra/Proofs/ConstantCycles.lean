import Mathlib.Data.List.Count
import Mathlib.Logic.Relation
import TermAlgebra.Proofs.TheoryLookups
import TermAlgebra.Theory.Standard

/-!
The search for nullary constructors whose construction comes back to itself. A name is searched once
for all branches together, so a branch may give up at a name that another branch has entered and not
yet left. What carries the search through is that the names seen so far lead on only to names that
are seen or pending: if nothing is pending and the target has not turned up, the names seen are
closed under the edges, and the target cannot be reached. Which edge is followed first plays no
part, so what is found depends on the edges only.
-/
namespace TermAlgebra

open Relation

/-- The part stands somewhere in the term; it may be the whole of it. -/
inductive Term.Inside (part : Term) : Term → Prop
  | whole : Inside part part
  | argument {head : String} {args : List Term} {arg : Term} (hmem : arg ∈ args)
      (h : Inside part arg) : Inside part (.app head args)

namespace Term

variable {part : Term} {isConstant : String → Bool} {name : String}

theorem inside_app_iff {head : String} {args : List Term} :
    Inside part (.app head args) ↔ part = .app head args ∨ ∃ arg ∈ args, Inside part arg := by
  constructor
  · rintro (_ | ⟨hmem, h⟩)
    · exact Or.inl rfl
    · exact Or.inr ⟨_, hmem, h⟩
  · rintro (rfl | ⟨arg, hmem, h⟩)
    · exact .whole
    · exact .argument hmem h

mutual

theorem mem_constantsIn (term : Term) : name ∈ constantsIn isConstant term ↔
    isConstant name = true ∧ Inside (.app name []) term := by
  match term with
  | .var other =>
    simp only [constantsIn, List.not_mem_nil, false_iff, not_and]
    rintro - ⟨⟩
  | .app head args =>
    rw [constantsIn, List.mem_append, mem_constantsInAll args, inside_app_iff]
    simp only [List.mem_ite_nil_right, Bool.and_eq_true, List.isEmpty_iff, List.mem_singleton,
      Term.app.injEq]
    constructor
    · rintro (⟨⟨rfl, hconstant⟩, rfl⟩ | ⟨hconstant, hinside⟩)
      · exact ⟨hconstant, Or.inl ⟨rfl, rfl⟩⟩
      · exact ⟨hconstant, Or.inr hinside⟩
    · rintro ⟨hconstant, ⟨rfl, rfl⟩ | hinside⟩
      · exact Or.inl ⟨⟨rfl, hconstant⟩, rfl⟩
      · exact Or.inr ⟨hconstant, hinside⟩

theorem mem_constantsInAll (terms : List Term) : name ∈ constantsInAll isConstant terms ↔
    isConstant name = true ∧ ∃ term ∈ terms, Inside (.app name []) term := by
  match terms with
  | [] => simp [constantsInAll]
  | term :: rest =>
    rw [constantsInAll, List.mem_append, mem_constantsIn term, mem_constantsInAll rest]
    simp only [List.mem_cons, exists_eq_or_imp]
    rw [← and_or_left]

end

end Term

namespace Graph

/-- One step leads from the source to the target. -/
def Edge (graph : Graph) (source target : String) : Prop := target ∈ graph.next source

/-- Nothing that was seen leads past the pending names, and the target was not seen. -/
structure Frontier (graph : Graph) (target : String) (seen pending : List String) : Prop where
  unseen : target ∉ seen
  step : ∀ source ∈ seen, ∀ name, graph.Edge source name → name ∈ seen ∨ name ∈ pending

variable {graph : Graph} {target : String} {seen pending : List String}

theorem Frontier.skip {name : String} (h : graph.Frontier target seen (name :: pending))
    (hname : name ∈ seen) : graph.Frontier target seen pending where
  unseen := h.unseen
  step source hsource other hedge := by
    rcases h.step source hsource other hedge with hseen | hpending
    · exact Or.inl hseen
    · rcases List.mem_cons.mp hpending with rfl | hrest
      · exact Or.inl hname
      · exact Or.inr hrest

theorem Frontier.enter {name : String} (h : graph.Frontier target seen (name :: pending))
    (hname : name ≠ target) :
    graph.Frontier target (name :: seen) (graph.next name ++ pending) where
  unseen hmem := by
    rcases List.mem_cons.mp hmem with heq | hseen
    · exact hname heq.symm
    · exact h.unseen hseen
  step source hsource other hedge := by
    rcases List.mem_cons.mp hsource with rfl | hseen
    · exact Or.inr (List.mem_append_left _ hedge)
    · rcases h.step source hseen other hedge with hother | hpending
      · exact Or.inl (List.mem_cons_of_mem _ hother)
      · rcases List.mem_cons.mp hpending with rfl | hrest
        · exact Or.inl List.mem_cons_self
        · exact Or.inr (List.mem_append_right _ hrest)

/-- A search without success ends with a set of names that it cannot leave. -/
theorem exists_closed_of_reaches (hfrontier : graph.Frontier target seen pending)
    (h : graph.reaches target seen pending = false) :
    ∃ closed : List String, target ∉ closed ∧ (∀ name ∈ pending, name ∈ closed) ∧
      (∀ name ∈ seen, name ∈ closed) ∧
      ∀ source ∈ closed, ∀ name, graph.Edge source name → name ∈ closed := by
  fun_induction reaches graph target seen pending with
  | case1 seen =>
    refine ⟨seen, hfrontier.unseen, by simp, fun _ hname => hname, ?_⟩
    intro source hsource name hedge
    exact (hfrontier.step source hsource name hedge).resolve_right List.not_mem_nil
  | case2 => cases h
  | case3 seen name pending hne hseen ih =>
    have hname : name ∈ seen := List.contains_iff_mem.mp hseen
    obtain ⟨closed, htarget, hpending, hclosed, hstep⟩ := ih (hfrontier.skip hname) h
    exact ⟨closed, htarget, List.forall_mem_cons.mpr ⟨hclosed name hname, hpending⟩, hclosed, hstep⟩
  | case4 seen name pending hne hseen ih =>
    obtain ⟨closed, htarget, hpending, hclosed, hstep⟩ := ih (hfrontier.enter hne) h
    rw [List.forall_mem_cons] at hclosed
    refine ⟨closed, htarget, List.forall_mem_cons.mpr ⟨hclosed.1, fun other hother => ?_⟩,
      hclosed.2, hstep⟩
    exact hpending other (List.mem_append_right _ hother)

theorem exists_of_reaches (h : graph.reaches target seen pending = true) :
    ∃ name ∈ pending, ReflTransGen graph.Edge name target := by
  fun_induction reaches graph target seen pending with
  | case1 => cases h
  | case2 => exact ⟨target, List.mem_cons_self, .refl⟩
  | case3 seen name pending hne hseen ih =>
    obtain ⟨other, hother, hreach⟩ := ih h
    exact ⟨other, List.mem_cons_of_mem _ hother, hreach⟩
  | case4 seen name pending hne hseen ih =>
    obtain ⟨other, hother, hreach⟩ := ih h
    rcases List.mem_append.mp hother with hnext | hpending
    · exact ⟨name, List.mem_cons_self, hreach.head hnext⟩
    · exact ⟨other, List.mem_cons_of_mem _ hpending, hreach⟩

theorem mem_of_closed {source : String} {closed : List String}
    (hclosed : ∀ source ∈ closed, ∀ name, graph.Edge source name → name ∈ closed)
    (hsource : source ∈ closed) (h : ReflTransGen graph.Edge source target) : target ∈ closed := by
  induction h with
  | refl => exact hsource
  | tail _ hlast ih => exact hclosed _ ih _ hlast

/-- The search finds exactly the names on cycles. -/
theorem onCycle_iff {name : String} :
    graph.onCycle name = true ↔ TransGen graph.Edge name name := by
  rw [onCycle, TransGen.head'_iff]
  constructor
  · intro h
    exact exists_of_reaches h
  · rintro ⟨successor, hedge, hreach⟩
    by_contra hsearch
    have hempty : graph.Frontier name [] (graph.next name) := ⟨List.not_mem_nil, by simp⟩
    obtain ⟨closed, hname, hnext, -, hstep⟩ :=
      exists_closed_of_reaches hempty (Bool.eq_false_iff.mpr hsearch)
    exact hname (mem_of_closed hstep (hnext successor hedge) hreach)

theorem onCycle_congr {other : Graph}
    (h : ∀ source target, graph.Edge source target ↔ other.Edge source target) (name : String) :
    graph.onCycle name = other.onCycle name := by
  have hedges : graph.Edge = other.Edge := by
    funext source target
    exact propext (h source target)
  rw [Bool.eq_iff_iff, onCycle_iff, onCycle_iff, hedges]

theorem mem_keys_of_edge {source : String} (h : graph.Edge source target) :
    source ∈ graph.keys := by
  unfold Edge next at h
  cases hget : Table.get? graph source with
  | none => simp [hget] at h
  | some names => exact List.mem_map.mpr ⟨_, Table.mem_of_get?_eq_some hget, rfl⟩

theorem next_insert (name key : String) (names : List String) :
    Graph.next (graph.insert name names) key = if key = name then names else graph.next key := by
  rw [next, Table.get?_insert]
  split <;> rfl

/-- Each declaration adds its names to those that are next to the declared one already. -/
theorem mem_next_foldl {α : Type} (key : α → String) (names : α → List String)
    (declarations : List α) {name : String} :
    name ∈ Graph.next (declarations.foldl (fun graph declaration =>
        graph.insert (key declaration)
          (Graph.next graph (key declaration) ++ names declaration)) graph) target ↔
      name ∈ graph.next target ∨
        ∃ declaration ∈ declarations, key declaration = target ∧ name ∈ names declaration := by
  induction declarations generalizing graph with
  | nil => simp
  | cons declaration rest ih =>
    rw [List.foldl_cons, ih, next_insert]
    simp only [List.mem_cons, exists_eq_or_imp, ← or_assoc]
    by_cases htarget : target = key declaration
    · subst htarget
      simp
    · simp [if_neg htarget, Ne.symm htarget]

end Graph

namespace Theory

variable {theory : Theory}

/-- Some nullary declaration of the caller has a result type whose expansion applies the callee to
no arguments, and some declaration of the callee is nullary. -/
def ConstantCall (theory : Theory) (caller callee : String) : Prop :=
  (∃ c ∈ theory.terms, c.name = caller ∧ c.isNullary = true ∧
    Term.Inside (.app callee []) (c.expandedResult theory)) ∧
  ∃ d ∈ theory.terms, d.name = callee ∧ d.isNullary = true

theorem isConstant_iff {name : String} : theory.isConstant name = true ↔
    ∃ d ∈ theory.terms, d.name = name ∧ d.isNullary = true := by
  simp [isConstant, termsNamed]

theorem edge_constantGraph {caller callee : String} :
    theory.constantGraph.Edge caller callee ↔ theory.ConstantCall caller callee := by
  rw [Graph.Edge, constantGraph, Graph.mem_next_foldl]
  simp only [Term.mem_constantsIn, isConstant_iff, List.mem_filter, ConstantCall]
  have hempty : callee ∉ Graph.next Table.empty caller := List.not_mem_nil
  constructor
  · rintro (hmem | ⟨c, ⟨hc, hnullary⟩, hname, hconstant, hinside⟩)
    · exact absurd hmem hempty
    · exact ⟨⟨c, hc, hname, hnullary, hinside⟩, hconstant⟩
  · rintro ⟨⟨c, hc, hname, hnullary, hinside⟩, hconstant⟩
    exact Or.inr ⟨c, ⟨hc, hnullary⟩, hname, hconstant, hinside⟩

theorem onCycle_constantGraph {name : String} : theory.constantGraph.onCycle name = true ↔
    TransGen theory.ConstantCall name name := by
  have hedges : theory.constantGraph.Edge = theory.ConstantCall := by
    funext caller callee
    exact propext edge_constantGraph
  rw [Graph.onCycle_iff, hedges]

/-- The report that the construction of a nullary constructor comes back to itself. -/
def regress (name : String) : Diagnostic := ⟨some name, .nullaryRegress name⟩

theorem regress_injective : Function.Injective regress := by
  rintro name other ⟨⟩
  rfl

theorem mem_regressDiagnostics {d : Diagnostic} : d ∈ theory.regressDiagnostics ↔
    ∃ name, d = regress name ∧ TransGen theory.ConstantCall name name := by
  simp only [regressDiagnostics, List.mem_map, List.mem_filter, onCycle_constantGraph]
  constructor
  · rintro ⟨name, ⟨-, hcycle⟩, rfl⟩
    exact ⟨name, rfl, hcycle⟩
  · rintro ⟨name, rfl, hcycle⟩
    obtain ⟨successor, hedge, -⟩ := TransGen.head'_iff.mp hcycle
    exact ⟨name, ⟨Graph.mem_keys_of_edge (edge_constantGraph.mpr hedge), hcycle⟩, rfl⟩

theorem regressDiagnostics_nodup : theory.regressDiagnostics.Nodup :=
  (theory.constantGraph.distinct.filter _).map regress_injective

section Reports

theorem rule_of_isLocal {issue : Issue} (h : issue.isLocal = true) :
    issue.rule ≠ "nullary_regress" := by
  cases issue with
  | nullaryRegress => cases h
  | _ => simp [Issue.rule]

/-- The pass over the names reports what is wrong with a name, or warns of overloads. -/
theorem nameDiagnostics_cases {d : Diagnostic} (h : d ∈ theory.nameDiagnostics) :
    d.issue.rule ∈ ["type_name_unique", "name_collision", "accessor_shared"] ∨
      d ∈ theory.overloadDiagnostics := by
  rw [nameDiagnostics, List.mem_append] at h
  refine h.imp_left fun hname => ?_
  simp only [typeNameIssues, termNameIssues, accessorIssues, List.mem_append, List.mem_map,
    List.mem_flatMap, List.mem_filterMap, List.mem_ite_nil_right, List.mem_singleton,
    Option.ite_none_right_eq_some, Option.some.injEq] at hname
  rcases hname with ⟨issue, (⟨_, -, -, rfl⟩ | ⟨_, -, (⟨-, rfl⟩ | ⟨-, rfl⟩) | ⟨-, rfl⟩⟩) |
    ⟨_, -, ⟨-, rfl⟩ | ⟨-, rfl⟩⟩, rfl⟩
  all_goals simp [Issue.rule]

theorem rule_of_overloadDiagnostics {d : Diagnostic} (h : d ∈ theory.overloadDiagnostics) :
    d.issue.rule = "overload_ambiguous" := by
  simp only [overloadDiagnostics, List.mem_filterMap, Option.ite_none_right_eq_some,
    Option.some.injEq] at h
  obtain ⟨_, -, -, rfl⟩ := h
  rfl

theorem rule_of_nameDiagnostics {d : Diagnostic} (h : d ∈ theory.nameDiagnostics) :
    d.issue.rule ≠ "nullary_regress" := by
  intro hrule
  rcases nameDiagnostics_cases h with hname | hoverload
  · simp [hrule] at hname
  · simp [rule_of_overloadDiagnostics hoverload] at hrule

/-- Apart from what the search reports, nothing comes back to itself. -/
theorem exists_findings_eq (theory : Theory) : ∃ others,
    theory.findings = others ++ theory.regressDiagnostics ∧
      ∀ d ∈ others, d.issue.rule ≠ "nullary_regress" := by
  refine ⟨_, rfl, fun d hd => ?_⟩
  simp only [List.mem_append, List.mem_flatMap, List.mem_map] at hd
  rcases hd with (hname | ⟨t, -, issue, hissue, rfl⟩) | ⟨c, -, issue, hissue, rfl⟩
  · exact rule_of_nameDiagnostics hname
  · exact rule_of_isLocal (typeConstructorIssues_are_local hissue)
  · exact rule_of_isLocal (termConstructorIssues_are_local hissue)

theorem mem_findings_of_rule {d : Diagnostic} (hrule : d.issue.rule = "nullary_regress")
    (hd : d ∈ theory.findings) : d ∈ theory.regressDiagnostics := by
  obtain ⟨others, hfindings, hothers⟩ := exists_findings_eq theory
  rw [hfindings] at hd
  exact (List.mem_append.mp hd).resolve_left fun hmem => hothers d hmem hrule

theorem count_regress {name : String} (h : TransGen theory.ConstantCall name name) :
    theory.findings.count (regress name) = 1 := by
  obtain ⟨others, hfindings, hothers⟩ := exists_findings_eq theory
  have hnone : regress name ∉ others := fun hmem => hothers _ hmem rfl
  have hone : theory.regressDiagnostics.count (regress name) = 1 :=
    List.count_eq_one_of_mem regressDiagnostics_nodup (mem_regressDiagnostics.mpr ⟨name, rfl, h⟩)
  rw [hfindings, List.count_append, List.count_eq_zero_of_not_mem hnone, hone]

theorem check_of_applications (h : ∀ c ∈ theory.terms, c.result.isApplication = true) :
    theory.check = .ok (theory.findings.mergeSort Diagnostic.notAfter) := by
  have hnone : (theory.terms.find? fun c => c.isNullary && !c.result.isApplication) = none := by
    rw [List.find?_eq_none]
    intro c hc
    simp [h c hc]
  rw [check, hnone]

/-- If all result types are applications, the check comes to an end, and it reports just once each
name that lies on a cycle of calls of constants, and no other. The report does not depend on the
order in which the calls of a name are followed. -/
theorem regress_reported (theory : Theory)
    (h : ∀ c ∈ theory.terms, c.result.isApplication = true) :
    ∃ diagnostics, theory.check = .ok diagnostics ∧
      (∀ d ∈ diagnostics, d.issue.rule = "nullary_regress" → d.isError = true ∧
        ∃ name, d = regress name ∧ TransGen theory.ConstantCall name name) ∧
      (∀ name, TransGen theory.ConstantCall name name →
        diagnostics.count (regress name) = 1) ∧
      ∀ graph : Graph, graph.keys = theory.constantGraph.keys →
        (∀ caller callee, graph.Edge caller callee ↔ theory.ConstantCall caller callee) →
        (graph.keys.filter graph.onCycle).map regress = theory.regressDiagnostics := by
  refine ⟨_, check_of_applications h, ?_, ?_, ?_⟩
  · intro d hd hrule
    have hregress := mem_findings_of_rule hrule (List.mem_mergeSort.mp hd)
    obtain ⟨name, rfl, hcycle⟩ := mem_regressDiagnostics.mp hregress
    exact ⟨rfl, name, rfl, hcycle⟩
  · intro name hcycle
    rw [(List.mergeSort_perm _ _).count_eq]
    exact count_regress hcycle
  · intro graph hkeys hedges
    have hcycles : graph.onCycle = theory.constantGraph.onCycle := by
      funext name
      exact Graph.onCycle_congr
        (fun caller callee => (hedges caller callee).trans edge_constantGraph.symm) name
    rw [hkeys, hcycles]
    rfl

def pointType : TypeConstructor where
  name := "Pt"
  params := ["X"]
  context := .ofList (Standard.objects ["X"])

/-- Two points, each of which lies over the other. -/
def crossed : Theory where
  name := "Crossed"
  types := [Standard.objectType, pointType]
  terms := [Standard.constructor "left" [] [] (.app "Pt" [.app "right" []]) none,
    Standard.constructor "right" [] [] (.app "Pt" [.app "left" []]) none]

theorem regress_reported_crossed :
    (∀ c ∈ crossed.terms, c.result.isApplication = true) ∧
      ∃ diagnostics, crossed.check = .ok diagnostics ∧
        diagnostics.count (regress "left") = 1 ∧ diagnostics.count (regress "right") = 1 := by
  have happlications : ∀ c ∈ crossed.terms, c.result.isApplication = true := by decide
  have hleft : (crossed.terms[0]).expandedResult crossed = .app "Pt" [.app "right" []] := rfl
  have hright : (crossed.terms[1]).expandedResult crossed = .app "Pt" [.app "left" []] := rfl
  have hinside (name : String) : Term.Inside (.app name []) (.app "Pt" [.app name []]) :=
    .argument List.mem_cons_self .whole
  have hcalls : crossed.ConstantCall "left" "right" ∧ crossed.ConstantCall "right" "left" :=
    ⟨⟨⟨crossed.terms[0], by simp [crossed], rfl, rfl, hleft ▸ hinside "right"⟩,
      ⟨crossed.terms[1], by simp [crossed], rfl, rfl⟩⟩,
    ⟨⟨crossed.terms[1], by simp [crossed], rfl, rfl, hright ▸ hinside "left"⟩,
      ⟨crossed.terms[0], by simp [crossed], rfl, rfl⟩⟩⟩
  obtain ⟨diagnostics, hcheck, -, honce, -⟩ := regress_reported crossed happlications
  exact ⟨happlications, diagnostics, hcheck, honce "left" (.head hcalls.1 (.single hcalls.2)),
    honce "right" (.head hcalls.2 (.single hcalls.1))⟩

end Reports

end Theory
end TermAlgebra
