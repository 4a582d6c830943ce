import TermAlgebra.Proofs.BuiltValues
import TermAlgebra.Proofs.ReachedParameters
import TermAlgebra.Theory.Domain

/-!
Calculi that contain another one. Where every name that is found in a calculus is found in a second
one with the same meaning, all calls that succeed in the first succeed in the second and give the
same results, strict calls as well as others. The induction is on the bound on nesting: one level
of a call looks names up and evaluates declared terms, and these agree one level below.
-/
namespace TermAlgebra

namespace Algebra

open Outcome

variable {source target : Algebra} {env : Environment}

theorem environment_related_refl (env : Environment) : Environment.Related Eq env env := by
  intro name
  cases env name with
  | none => exact Option.Rel.none
  | some value => exact Option.Rel.some rfl

theorem Simulates.evaluate_eq (sim : Simulates Eq source target) {term : Term} {result : Value}
    (h : source.evaluate env term = .ok result) : target.evaluate env term = .ok result := by
  obtain ⟨result', hresult', rfl⟩ := sim.evaluate (environment_related_refl env) term h
  exact hresult'

theorem Simulates.evaluateAll_eq (sim : Simulates Eq source target) {terms : List Term}
    {results : List Value} (h : source.evaluateAll env terms = .ok results) :
    target.evaluateAll env terms = .ok results := by
  obtain ⟨results', hresults', heq⟩ := sim.evaluateAll (environment_related_refl env) terms h
  rw [List.forall₂_eq_eq_eq] at heq
  rw [heq]
  exact hresults'

theorem Simulates.applyDefinition_eq (sim : Simulates Eq source target) {definition : Definition}
    {params : List String} {args : List Value} {result : Value}
    (h : source.applyDefinition definition params args = .ok result) :
    target.applyDefinition definition params args = .ok result := by
  obtain ⟨result', hresult', rfl⟩ :=
    sim.applyDefinition definition params (List.forall₂_refl args) h
  exact hresult'

/-- Equations that are all checked without finding a violated one are so in the target too. -/
theorem Simulates.firstViolated?_eq (sim : Simulates Eq source target)
    {equations : List Equation} (h : source.firstViolated? env equations = .ok none) :
    target.firstViolated? env equations = .ok none := by
  induction equations with
  | nil => rfl
  | cons equation rest ih =>
    rw [firstViolated?, bind_eq, (sim.silent.evaluate _ _).bind_eq_ok_iff] at h
    obtain ⟨lhs, hlhs, h⟩ := h
    rw [bind_eq, (sim.silent.evaluate _ _).bind_eq_ok_iff] at h
    obtain ⟨rhs, hrhs, h⟩ := h
    rw [firstViolated?, bind_eq, sim.evaluate_eq hlhs, ok_bind, bind_eq, sim.evaluate_eq hrhs,
      ok_bind]
    by_cases hequal : Value.equal lhs rhs = true
    · rw [if_pos hequal] at h ⊢
      exact ih h
    · rw [if_neg hequal] at h
      cases (ok_eq_ok_iff _ _).mp h

theorem Simulates.validate_eq (sim : Simulates Eq source target) {constructor : TermConstructor}
    {equations : List Equation} {args : List Value}
    (h : source.validate constructor equations args = .ok ()) :
    target.validate constructor equations args = .ok () := by
  unfold validate at h ⊢
  by_cases hnil : equations.isEmpty = true
  · rw [if_pos hnil]
    rfl
  · rw [if_neg hnil] at h ⊢
    by_cases hlength : args.length ≠ constructor.arity
    · rw [if_pos hlength] at h
      exact absurd h (fail_ne_ok _ _)
    · rw [if_neg hlength, bind_eq, (sim.silent.firstViolated? _ _).bind_eq_ok_iff] at h
      obtain ⟨violated, hviolated, h⟩ := h
      cases violated with
      | none => rw [if_neg hlength, bind_eq, sim.firstViolated?_eq hviolated, ok_bind]; rfl
      | some equation => exact absurd h (fail_ne_ok _ _)

end Algebra

namespace Calculus

open TermAlgebra.Algebra Outcome

theorem resolve_eq_ok_iff {calculus : Calculus} {name : String} {args : List Value}
    {constructor : Constructor} : calculus.resolve name args = .ok constructor ↔
      (calculus.overloads name).find? (fun c => c.accepts args) = some constructor := by
  unfold resolve
  split
  · rename_i hnil
    simp [hnil]
  · split
    · rename_i found hfind
      simp [hfind]
    · rename_i hfind
      simp [hfind]

/-- What the first calculus finds under a name, the second finds as well, and it finds the same
ways to the parameters of the constructor. -/
structure Embeds (source target : Calculus) : Prop where
  isAccessor : ∀ {name}, source.theory.isAccessor name = true →
    target.theory.isAccessor name = true
  access : ∀ {name value result}, source.access name value = .ok result →
    target.access name value = .ok result
  member : ∀ {name}, source.member name = .ok () → target.member name = .ok ()
  resolve : ∀ {name args constructor}, source.resolve name args = .ok constructor →
    target.resolve name args = .ok constructor
  not_accessor : ∀ {name args constructor}, source.resolve name args = .ok constructor →
    target.theory.isAccessor name = false
  paths : ∀ {name args constructor}, source.resolve name args = .ok constructor →
    constructor.declaration.paths target.theory = constructor.declaration.paths source.theory

variable {source target : Calculus} {name : String} {args : List Value}
  {constructor : Constructor}

theorem Embeds.expandedResult (h : source.Embeds target)
    (hresolve : source.resolve name args = .ok constructor) :
    constructor.declaration.expandedResult target.theory =
      constructor.declaration.expandedResult source.theory := by
  rw [TermConstructor.expandedResult, TermConstructor.expandedResult, h.paths hresolve]

theorem Embeds.domain (h : source.Embeds target)
    (hresolve : source.resolve name args = .ok constructor) :
    constructor.declaration.domain target.theory =
      constructor.declaration.domain source.theory := by
  have hexpand : constructor.declaration.expandEquation target.theory =
      constructor.declaration.expandEquation source.theory := by
    funext equation
    rw [TermConstructor.expandEquation, TermConstructor.expandEquation, h.paths hresolve]
  rw [TermConstructor.domain, TermConstructor.domain, TermConstructor.derivedEquations,
    TermConstructor.derivedEquations, h.paths hresolve, hexpand]

/-- One level of nesting: each way in which a call of the first calculus succeeds is a way in which
the call of the second does. -/
theorem Embeds.yields (h : source.Embeds target) {inner inner' : Algebra}
    (sim : Simulates Eq inner inner') {result : Value}
    (hyields : source.Yields inner name args result) : target.Yields inner' name args result := by
  cases hyields with
  | access haccessor hresult => exact .access (h.isAccessor haccessor) (h.access hresult)
  | define _ hresolve hdefinition hresult =>
    exact .define (h.not_accessor hresolve) (h.resolve hresolve) hdefinition
      (sim.applyDefinition_eq hresult)
  | build hbuilds =>
    obtain ⟨head, types, hexpanded, htypes⟩ := hbuilds.typeArgs
    refine .build ⟨h.not_accessor hbuilds.resolve, h.resolve hbuilds.resolve, hbuilds.definition?,
      head, types, ?_, sim.evaluateAll_eq htypes⟩
    rw [h.expandedResult hbuilds.resolve]
    exact hexpanded

theorem Embeds.simulates (h : source.Embeds target) (hsource : source.Plain)
    (htarget : target.Plain) (n : Nat) : Simulates Eq (source.algebra n) (target.algebra n) := by
  induction n with
  | zero =>
    exact ⟨hsource.silent 0, fun _ hcall => absurd hcall invoke_zero_ne_ok, fun hmember =>
      h.member hmember⟩
  | succ n ih =>
    refine ⟨hsource.silent (n + 1), ?_, fun hmember => h.member hmember⟩
    intro name args args' result hargs hcall
    rw [List.forall₂_eq_eq_eq] at hargs
    subst hargs
    have hyields := h.yields ih (hsource.yields_of_invoke hcall)
    exact ⟨result, htarget.call_of_yields hyields, rfl⟩

/-- A strict constructor first checks the domain, and then does what it does when it is not
strict. -/
theorem Plain.apply_strict {calculus : Calculus} (plain : calculus.Plain) {self : Algebra}
    (haccepts : constructor.accepts args = true) :
    calculus.apply self constructor args true =
      (self.validate constructor.declaration (constructor.declaration.domain calculus.theory)
        args).bind fun _ => calculus.apply self constructor args false := by
  unfold apply
  rw [plain.bare]
  dsimp only
  cases constructor.declaration.definition? with
  | none => exact build_strict haccepts
  | some definition => rfl

theorem Embeds.callAccessor (h : source.Embeds target) {strict? : Option Bool} {result : Value}
    (hresult : source.callAccessor name args strict? = .ok result) :
    target.callAccessor name args strict? = .ok result := by
  unfold Calculus.callAccessor at hresult ⊢
  split at hresult
  · cases hresult
  · exact h.access hresult
  · cases hresult

/-- The domain that the first calculus checks is the one that the second checks. -/
theorem Embeds.apply (h : source.Embeds target) (hsource : source.Plain) (htarget : target.Plain)
    {n : Nat} {strict : Bool} {result result' : Value}
    (hresolve : source.resolve name args = .ok constructor)
    (hresult : source.apply (source.algebra n) constructor args strict = .ok result)
    (hlax : target.apply (target.algebra n) constructor args false = .ok result') :
    target.apply (target.algebra n) constructor args strict = .ok result' := by
  cases strict with
  | false => exact hlax
  | true =>
    have haccepts := (resolve_eq_ok hresolve).2
    rw [hsource.apply_strict haccepts,
      ((hsource.silent n).validate _ _ _).bind_eq_ok_iff] at hresult
    obtain ⟨_, hpass, -⟩ := hresult
    have hpass' := (h.simulates hsource htarget n).validate_eq hpass
    rw [htarget.apply_strict haccepts, h.domain hresolve, hpass', ok_bind]
    exact hlax

/-- A call that succeeds in the first calculus, strict or not, succeeds in the second with the same
result. -/
theorem Embeds.invoke (h : source.Embeds target) (hsource : source.Plain)
    (htarget : target.Plain) {n : Nat} {strict? : Option Bool} {result : Value}
    (hinvoke : (source.algebra n).invoke name args strict? = .ok result) :
    (target.algebra n).invoke name args strict? = .ok result := by
  cases n with
  | zero => exact absurd hinvoke invoke_zero_ne_ok
  | succ n =>
    have hcall : (target.algebra (n + 1)).call name args = .ok result :=
      htarget.call_of_yields (h.yields (h.simulates hsource htarget n)
        (hsource.yields_of_invoke hinvoke))
    change source.invokeWith (source.algebra n) name args strict? = .ok result at hinvoke
    change target.invokeWith (target.algebra n) name args strict? = .ok result
    cases haccessor : source.theory.isAccessor name with
    | true =>
      rw [invokeWith_of_accessor haccessor, ofExcept_eq_ok_iff] at hinvoke
      rw [invokeWith_of_accessor (h.isAccessor haccessor), ofExcept_eq_ok_iff]
      exact h.callAccessor hinvoke
    | false =>
      cases hresolve : source.resolve name args with
      | error failure =>
        rw [invokeWith_of_resolve_error haccessor hresolve] at hinvoke
        exact absurd hinvoke (fail_ne_ok _ _)
      | ok constructor =>
        have happly : target.apply (target.algebra n) constructor args false = .ok result := by
          rw [← hcall, call]
          exact (invokeWith_of_resolve (h.not_accessor hresolve) (h.resolve hresolve) none).symm
        rw [invokeWith_of_resolve haccessor hresolve] at hinvoke
        rw [invokeWith_of_resolve (h.not_accessor hresolve) (h.resolve hresolve)]
        exact h.apply hsource htarget hresolve hinvoke happly

end Calculus
end TermAlgebra
