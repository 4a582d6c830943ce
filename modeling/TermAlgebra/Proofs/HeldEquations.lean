import TermAlgebra.Proofs.SilentOutcomes

/-!
The equations of a domain, as they hold in an algebra: both sides have values, and the values are
equal. Checking a domain finds the first equation that does not hold.
-/
namespace TermAlgebra

namespace Algebra

open Outcome

variable {algebra : Algebra} {env : Environment}

theorem evaluate_var {name : String} {value : Value} (h : env name = some value) :
    algebra.evaluate env (.var name) = .ok value := by
  simp [Algebra.evaluate, variableValue, h]

theorem evaluate_app_one {head : String} {term : Term} {value : Value}
    (h : algebra.evaluate env term = .ok value) :
    algebra.evaluate env (.app head [term]) = algebra.call head [value] := by
  simp [Algebra.evaluate, Algebra.evaluateAll, h, bind_eq, pure_eq]

/-- Both sides of the equation have values, which are equal. -/
def Holds (algebra : Algebra) (env : Environment) (equation : Equation) : Prop :=
  ∃ lhs rhs, algebra.evaluate env equation.lhs = .ok lhs ∧
    algebra.evaluate env equation.rhs = .ok rhs ∧ Value.equal lhs rhs = true

theorem firstViolated?_of_holds {equations : List Equation}
    (h : ∀ equation ∈ equations, algebra.Holds env equation) :
    algebra.firstViolated? env equations = .ok none := by
  induction equations with
  | nil => rfl
  | cons equation rest ih =>
    obtain ⟨lhs, rhs, hlhs, hrhs, hequal⟩ := h equation List.mem_cons_self
    rw [firstViolated?, hlhs, bind_eq, ok_bind, hrhs, bind_eq, ok_bind, if_pos hequal]
    exact ih fun e he => h e (List.mem_cons_of_mem _ he)

/-- If all sides have values and some equation does not hold, a violated one is found. -/
theorem firstViolated?_of_not_holds {equations : List Equation}
    (hvalues : ∀ equation ∈ equations, ∃ lhs rhs, algebra.evaluate env equation.lhs = .ok lhs ∧
      algebra.evaluate env equation.rhs = .ok rhs)
    (h : ¬∀ equation ∈ equations, algebra.Holds env equation) :
    ∃ equation, algebra.firstViolated? env equations = .ok (some equation) := by
  induction equations with
  | nil => simp at h
  | cons equation rest ih =>
    obtain ⟨lhs, rhs, hlhs, hrhs⟩ := hvalues equation List.mem_cons_self
    rw [firstViolated?, hlhs, bind_eq, ok_bind, hrhs, bind_eq, ok_bind]
    by_cases hequal : Value.equal lhs rhs = true
    · rw [if_pos hequal]
      refine ih (fun e he => hvalues e (List.mem_cons_of_mem _ he)) fun hrest => h ?_
      exact List.forall_mem_cons.mpr ⟨⟨lhs, rhs, hlhs, hrhs, hequal⟩, hrest⟩
    · exact ⟨equation, by rw [if_neg hequal]; rfl⟩

theorem validate_of_holds {constructor : TermConstructor} {equations : List Equation}
    {args : List Value} (hlength : args.length = constructor.arity)
    (h : ∀ equation ∈ equations, algebra.Holds (.ofArgs constructor.params args) equation) :
    algebra.validate constructor equations args = .ok () := by
  unfold validate
  split
  · rfl
  · rw [if_neg (by simpa using hlength), firstViolated?_of_holds h]
    rfl

theorem validate_of_not_holds {constructor : TermConstructor} {equations : List Equation}
    {args : List Value} (hlength : args.length = constructor.arity)
    (hvalues : ∀ equation ∈ equations, ∃ lhs rhs,
      algebra.evaluate (.ofArgs constructor.params args) equation.lhs = .ok lhs ∧
        algebra.evaluate (.ofArgs constructor.params args) equation.rhs = .ok rhs)
    (h : ¬∀ equation ∈ equations, algebra.Holds (.ofArgs constructor.params args) equation) :
    algebra.validate constructor equations args =
      .fail (.outsideDomain constructor.name args) := by
  obtain ⟨equation, hfirst⟩ := firstViolated?_of_not_holds hvalues h
  unfold validate
  split
  · rename_i hnil
    rw [List.isEmpty_iff.mp hnil] at h
    simp at h
  · rw [if_neg (by simpa using hlength), hfirst]
    rfl

/-- A domain of one equation compares the values of its two sides. -/
theorem validate_single {constructor : TermConstructor} {equation : Equation} {args : List Value}
    {lhs rhs : Value} (hlength : args.length = constructor.arity)
    (hlhs : algebra.evaluate (.ofArgs constructor.params args) equation.lhs = .ok lhs)
    (hrhs : algebra.evaluate (.ofArgs constructor.params args) equation.rhs = .ok rhs) :
    algebra.validate constructor [equation] args =
      if Value.equal lhs rhs = true then .ok ()
      else .fail (.outsideDomain constructor.name args) := by
  split
  next hequal =>
    refine validate_of_holds hlength (List.forall_mem_singleton.mpr ?_)
    exact ⟨lhs, rhs, hlhs, hrhs, hequal⟩
  next hequal =>
    refine validate_of_not_holds hlength (List.forall_mem_singleton.mpr ⟨lhs, rhs, hlhs, hrhs⟩) ?_
    intro hholds
    obtain ⟨lhs', rhs', hlhs', hrhs', hequal'⟩ := hholds equation List.mem_cons_self
    rw [hlhs, ok_eq_ok_iff] at hlhs'
    rw [hrhs, ok_eq_ok_iff] at hrhs'
    rw [hlhs', hrhs'] at hequal
    exact hequal hequal'

/-- A silent algebra that lets the arguments pass has found each equation to hold. -/
theorem holds_of_firstViolated? (h : algebra.Silent) {equations : List Equation}
    (hnone : algebra.firstViolated? env equations = .ok none) :
    ∀ equation ∈ equations, algebra.Holds env equation := by
  induction equations with
  | nil => simp
  | cons equation rest ih =>
    rw [firstViolated?, bind_eq, (h.evaluate _ _).bind_eq_ok_iff] at hnone
    obtain ⟨lhs, hlhs, hnone⟩ := hnone
    rw [bind_eq, (h.evaluate _ _).bind_eq_ok_iff] at hnone
    obtain ⟨rhs, hrhs, hnone⟩ := hnone
    split at hnone
    · rename_i hequal
      exact List.forall_mem_cons.mpr ⟨⟨lhs, rhs, hlhs, hrhs, hequal⟩, ih hnone⟩
    · cases (ok_eq_ok_iff _ _).mp hnone

theorem holds_of_validate (h : algebra.Silent) {constructor : TermConstructor}
    {equations : List Equation} {args : List Value}
    (hpass : algebra.validate constructor equations args = .ok ()) :
    ∀ equation ∈ equations, algebra.Holds (.ofArgs constructor.params args) equation := by
  unfold validate at hpass
  split at hpass
  · rename_i hnil
    rw [List.isEmpty_iff.mp hnil]
    simp
  · split at hpass
    · cases fail_ne_ok _ _ hpass
    · rw [bind_eq, (h.firstViolated? _ _).bind_eq_ok_iff] at hpass
      obtain ⟨violated, hviolated, hpass⟩ := hpass
      cases violated with
      | none => exact holds_of_firstViolated? h hviolated
      | some equation => cases fail_ne_ok _ _ hpass

end Algebra
end TermAlgebra
