import TermAlgebra.Proofs.FunctorValues

/-!
Functors with a table of images for generators. Where the calls of the target do not look at the
time, the functor does not either, and it succeeds on a value exactly when it succeeds on the
arguments and the target's call on their images does, unless the table has the value.
-/
namespace TermAlgebra

namespace Outcome

variable {α β : Type}

/-- The result does not depend on when the operation starts. -/
def Timeless (outcome : Outcome α) : Prop :=
  ∀ stamp stamp', (outcome.run stamp).result = (outcome.run stamp').result

theorem Silent.timeless {outcome : Outcome α} (h : outcome.Silent) : outcome.Timeless := by
  obtain ⟨result, rfl⟩ := h
  exact fun _ _ => rfl

theorem Timeless.bind {outcome : Outcome α} {next : α → Outcome β} (h : outcome.Timeless)
    (hnext : ∀ value, (next value).Timeless) : (outcome.bind next).Timeless := by
  intro stamp stamp'
  have hresult := h stamp stamp'
  simp only [Outcome.bind]
  cases hrun : (outcome.run stamp).result with
  | error failure => rw [hrun] at hresult; simp only [← hresult]
  | ok value =>
    rw [hrun] at hresult
    simp only [← hresult]
    exact hnext value _ _

/-- A chain succeeds exactly when each step does, if the later steps do not look at the time. -/
theorem bind_result_iff {outcome : Outcome α} {next : α → Outcome β}
    (hnext : ∀ value, (next value).Timeless) {result : β} :
    (outcome.bind next).result = .ok result ↔
      ∃ value, outcome.result = .ok value ∧ (next value).result = .ok result := by
  constructor
  · intro hresult
    obtain ⟨value, stamp, hvalue, hrest⟩ := exists_of_run_bind hresult
    exact ⟨value, hvalue, (hnext value firstStamp stamp).trans hrest⟩
  · rintro ⟨value, hvalue, hrest⟩
    have hrun : (outcome.run firstStamp).result = .ok value := hvalue
    simp only [Outcome.result, Outcome.bind, hrun]
    exact (hnext value _ firstStamp).trans hrest

end Outcome

/-- A node that a table has is equal to one of the table's keys. -/
theorem mem_of_tabledImage? {images : Images} {node image : Value}
    (h : tabledImage? images node = some image) :
    ∃ key, (key, image) ∈ images ∧ Value.Same key node := by
  have hlookup : node.lookup images = some image := by
    cases node with
    | expr head args typeArgs sort =>
      rw [tabledImage?] at h
      split at h
      · exact (Option.filter_eq_some_iff.mp h).1
      · cases h
    | _ => cases h
  clear h
  induction images with
  | nil => cases hlookup
  | cons entry rest ih =>
    obtain ⟨key, own⟩ := entry
    rw [Value.lookup] at hlookup
    by_cases hsame : Value.Same key node
    · rw [if_pos hsame, Option.some.injEq] at hlookup
      exact ⟨key, by rw [hlookup]; exact List.mem_cons_self, hsame⟩
    · rw [if_neg hsame] at hlookup
      obtain ⟨key', hmem, hsame'⟩ := ih hlookup
      exact ⟨key', List.mem_cons_of_mem _ hmem, hsame'⟩

namespace Algebra

open Outcome

variable {target : Algebra} {images : Images}

theorem isExpr_of_functor {value result : Value}
    (h : (target.functor images .empty value).result = .ok result) : value.isExpr = true := by
  cases value with
  | expr => rfl
  | _ => cases h

theorem Silent.timeless (h : target.Silent) : target.Timeless :=
  fun name args => (h name args none).timeless

mutual

theorem Timeless.functor (htimeless : target.Timeless) (value : Value) :
    (target.functor images .empty value).Timeless := by
  match value with
  | .expr head args typeArgs sort =>
    cases htabled : tabledImage? images (.expr head args typeArgs sort) with
    | some image =>
      rw [functor_tabled htabled]
      exact (silent_ok image).timeless
    | none =>
      rw [functor_untabled htabled]
      exact (Timeless.functorAll htimeless args).bind fun values => htimeless _ values
  | .null | .bool _ | .int _ | .float _ | .text _ _ | .list _ | .tuple _ | .dict _ | .fin _ _ =>
    exact (silent_fail .notExpression).timeless

theorem Timeless.functorAll (htimeless : target.Timeless) (values : List Value) :
    (target.functorAll images .empty values).Timeless := by
  match values with
  | [] => exact (silent_ok []).timeless
  | value :: rest =>
    have hvalue : (target.mapped images value).Timeless := by
      rw [mapped]
      split
      · exact Timeless.functor htimeless value
      · exact (silent_ok value).timeless
    rw [functorAll_mapped]
    exact hvalue.bind fun image => (Timeless.functorAll htimeless rest).bind fun images =>
      (silent_ok _).timeless

end

theorem Timeless.mapped (htimeless : target.Timeless) (value : Value) :
    (target.mapped images value).Timeless := by
  rw [Algebra.mapped]
  split
  · exact htimeless.functor value
  · exact (silent_ok value).timeless

section Results

variable (htimeless : target.Timeless)

include htimeless

/-- The functor is applied argument by argument. -/
theorem Timeless.functorAll_result_iff {values results : List Value} :
    (target.functorAll images .empty values).result = .ok results ↔
      List.Forall₂ (fun value image => (target.mapped images value).result = .ok image)
        values results := by
  induction values generalizing results with
  | nil =>
    constructor
    · intro h
      cases h
      exact List.Forall₂.nil
    · intro h
      cases h
      rfl
  | cons value rest ih =>
    have hsplit : (target.functorAll images .empty (value :: rest)).result = .ok results ↔
        ∃ image, (target.mapped images value).result = .ok image ∧
          ∃ others, (target.functorAll images .empty rest).result = .ok others ∧
            (ok (image :: others)).result = .ok results := by
      rw [functorAll_mapped, bind_result_iff fun image =>
        (htimeless.functorAll rest).bind fun images => (silent_ok _).timeless]
      simp only [bind_result_iff fun images => (silent_ok _).timeless]
    rw [hsplit]
    constructor
    · rintro ⟨image, himage, others, hothers, h⟩
      cases h
      exact List.Forall₂.cons himage (ih.mp hothers)
    · intro h
      cases h with
      | cons himage hothers => exact ⟨_, himage, _, ih.mpr hothers, rfl⟩

/-- A node that is not in the table is rebuilt from the images of its arguments. -/
theorem Timeless.functor_result_iff {head sort : String} {args typeArgs : List Value}
    (h : tabledImage? images (.expr head args typeArgs sort) = none) {result : Value} :
    (target.functor images .empty (.expr head args typeArgs sort)).result = .ok result ↔
      ∃ values, List.Forall₂ (fun value image => (target.mapped images value).result = .ok image)
          args values ∧ (target.call (constructorName head sort) values).result = .ok result := by
  rw [functor_untabled h, bind_result_iff fun values => htimeless _ values]
  simp only [htimeless.functorAll_result_iff]

end Results

end Algebra
end TermAlgebra
