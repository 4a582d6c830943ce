import Mathlib.Data.List.Forall2
import TermAlgebra.Proofs.SilentOutcomes

/-!
Simulation of one algebra by another along a relation between their values: whatever a call of the
first computes, the same call of the second computes from related arguments, up to the relation.
Evaluation of terms, through the algebra or through its members, and default implementations keep
the relation. An algebra that simulates another along equality computes at least as much.
-/
namespace TermAlgebra

/-- The environments bind the same variables, to related values. -/
def Environment.Related (R : Value → Value → Prop) (env env' : Environment) : Prop :=
  ∀ name, Option.Rel R (env name) (env' name)

variable {R : Value → Value → Prop}

theorem lastEntry_zip_related {args args' : List Value} (h : List.Forall₂ R args args')
    (params : List String) (name : String) :
    Option.Rel R (lastEntry name (params.zip args)) (lastEntry name (params.zip args')) := by
  induction h generalizing params with
  | nil =>
    rw [List.zip_nil_right]
    exact Option.Rel.none
  | @cons a a' rest rest' hhead _ ih =>
    cases params with
    | nil => exact Option.Rel.none
    | cons param params =>
      rw [List.zip_cons_cons, List.zip_cons_cons, lastEntry, lastEntry]
      have hrest := ih params
      generalize lastEntry name (params.zip rest) = found at hrest
      generalize lastEntry name (params.zip rest') = found' at hrest
      cases hrest with
      | some hfound => exact Option.Rel.some hfound
      | none =>
        by_cases hparam : param = name
        · simp only [Option.orElse_none, if_pos hparam]
          exact Option.Rel.some hhead
        · simp only [Option.orElse_none, if_neg hparam]
          exact Option.Rel.none

theorem Environment.related_ofArgs {args args' : List Value} (h : List.Forall₂ R args args')
    (params : List String) :
    Environment.Related R (.ofArgs params args) (.ofArgs params args') :=
  fun name => lastEntry_zip_related h params name

namespace Algebra

open Outcome

structure Simulates (R : Value → Value → Prop) (source target : Algebra) : Prop where
  silent : source.Silent
  call : ∀ {name args args' result}, List.Forall₂ R args args' →
    source.call name args = .ok result →
      ∃ result', target.call name args' = .ok result' ∧ R result result'
  member : ∀ {name}, source.member name = .ok () → target.member name = .ok ()

variable {source target : Algebra} {env env' : Environment}

theorem variableValue_related (henv : Environment.Related R env env') {name : String}
    {result : Value} (h : variableValue env name = .ok result) :
    ∃ result', variableValue env' name = .ok result' ∧ R result result' := by
  have hrel := henv name
  unfold variableValue at h ⊢
  generalize env name = bound at h hrel
  generalize env' name = bound' at hrel
  cases hrel with
  | none => simp at h
  | some hvalue =>
    cases (ok_eq_ok_iff _ _).mp h
    exact ⟨_, rfl, hvalue⟩

theorem Simulates.found (sim : Simulates R source target) {viaMembers : Bool} {head : String}
    (h : source.found viaMembers head = .ok ()) : target.found viaMembers head = .ok () := by
  rw [found_eq_ok_iff] at h ⊢
  exact fun hvia => sim.member (h hvia)

mutual

theorem Simulates.evaluateVia (sim : Simulates R source target) {viaMembers : Bool}
    (henv : Environment.Related R env env') (term : Term) {result : Value}
    (h : source.evaluateVia viaMembers env term = .ok result) :
    ∃ result', target.evaluateVia viaMembers env' term = .ok result' ∧ R result result' := by
  match term with
  | .var name =>
    rw [evaluateVia_var] at h ⊢
    exact variableValue_related henv h
  | .app head args =>
    rw [evaluateVia_app, (silent_found head).bind_eq_ok_iff] at h
    obtain ⟨_, hfound, h⟩ := h
    rw [(sim.silent.evaluateAllVia args).bind_eq_ok_iff] at h
    obtain ⟨values, hvalues, hcall⟩ := h
    obtain ⟨values', hvalues', hrel⟩ := Simulates.evaluateAllVia sim henv args hvalues
    obtain ⟨result', hcall', hresult⟩ := sim.call hrel hcall
    refine ⟨result', ?_, hresult⟩
    rw [evaluateVia_app, sim.found hfound, ok_bind, hvalues', ok_bind, hcall']

theorem Simulates.evaluateAllVia (sim : Simulates R source target) {viaMembers : Bool}
    (henv : Environment.Related R env env') (terms : List Term) {results : List Value}
    (h : source.evaluateAllVia viaMembers env terms = .ok results) :
    ∃ results', target.evaluateAllVia viaMembers env' terms = .ok results' ∧
      List.Forall₂ R results results' := by
  match terms with
  | [] =>
    rw [evaluateAllVia_nil] at h ⊢
    cases (ok_eq_ok_iff _ _).mp h
    exact ⟨[], rfl, List.Forall₂.nil⟩
  | term :: rest =>
    rw [evaluateAllVia_cons, (sim.silent.evaluateVia term).bind_eq_ok_iff] at h
    obtain ⟨value, hvalue, h⟩ := h
    rw [(sim.silent.evaluateAllVia rest).bind_eq_ok_iff] at h
    obtain ⟨values, hvalues, h⟩ := h
    cases (ok_eq_ok_iff _ _).mp h
    obtain ⟨value', hvalue', hhead⟩ := Simulates.evaluateVia sim henv term hvalue
    obtain ⟨values', hvalues', hrest⟩ := Simulates.evaluateAllVia sim henv rest hvalues
    refine ⟨value' :: values', ?_, List.Forall₂.cons hhead hrest⟩
    rw [evaluateAllVia_cons, hvalue', ok_bind, hvalues', ok_bind]

end

theorem Simulates.evaluate (sim : Simulates R source target)
    (henv : Environment.Related R env env') (term : Term) {result : Value}
    (h : source.evaluate env term = .ok result) :
    ∃ result', target.evaluate env' term = .ok result' ∧ R result result' := by
  change source.evaluateVia false env term = .ok result at h
  exact sim.evaluateVia henv term h

theorem Simulates.evaluateAll (sim : Simulates R source target)
    (henv : Environment.Related R env env') (terms : List Term) {results : List Value}
    (h : source.evaluateAll env terms = .ok results) :
    ∃ results', target.evaluateAll env' terms = .ok results' ∧ List.Forall₂ R results results' := by
  change source.evaluateAllVia false env terms = .ok results at h
  exact sim.evaluateAllVia henv terms h

theorem Simulates.applyDefinition (sim : Simulates R source target) (definition : Definition)
    (params : List String) {args args' : List Value} (hargs : List.Forall₂ R args args')
    {result : Value} (h : source.applyDefinition definition params args = .ok result) :
    ∃ result', target.applyDefinition definition params args' = .ok result' ∧ R result result' := by
  have henv := Environment.related_ofArgs hargs params
  rw [applyDefinition_eq] at h ⊢
  exact sim.evaluateVia henv definition.body h

end Algebra
end TermAlgebra
