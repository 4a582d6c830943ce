import TermAlgebra.Proofs.SafeCalls

/-!
Evaluating a term after substitution. All variables are replaced at once, so a term that replaces a
variable is evaluated in the environment from which the substitution started, even if it mentions
variables that are replaced themselves. Where calls have no effects it does not matter how often
such a term is evaluated, or when: the outcome is that of the original term, with the values of the
replacing terms in the environment. If the replacing terms have values, the first failure is the
same as well, for none of them is the first to fail.
-/
namespace TermAlgebra

namespace Outcome

variable {α β : Type}

/-- The operation records no event and takes no stamp. -/
def Effectless (outcome : Outcome α) : Prop :=
  ∀ stamp, (outcome.run stamp).events = [] ∧ (outcome.run stamp).stamp = stamp

theorem effectless_ok (value : α) : (ok value).Effectless := fun _ => ⟨rfl, rfl⟩

theorem effectless_fail (failure : Failure) : (fail failure : Outcome α).Effectless :=
  fun _ => ⟨rfl, rfl⟩

theorem Silent.effectless {outcome : Outcome α} (h : outcome.Silent) : outcome.Effectless := by
  obtain ⟨result, rfl⟩ := h
  exact fun _ => ⟨rfl, rfl⟩

/-- Such an operation is over when it has its result. -/
theorem Effectless.run_eq {outcome : Outcome α} (h : outcome.Effectless) {stamp : Nat}
    {result : Except Failure α} (hresult : (outcome.run stamp).result = result) :
    outcome.run stamp = ⟨[], stamp, result⟩ := by
  obtain ⟨hevents, hstamp⟩ := h stamp
  generalize outcome.run stamp = ending at hresult hevents hstamp
  obtain ⟨events, own, final⟩ := ending
  dsimp only at hresult hevents hstamp
  rw [hevents, hstamp, hresult]

theorem Effectless.bind {outcome : Outcome α} {next : α → Outcome β} (h : outcome.Effectless)
    (hnext : ∀ value, (next value).Effectless) : (outcome.bind next).Effectless := by
  intro stamp
  cases hresult : (outcome.run stamp).result with
  | error failure => simp [Outcome.bind, h.run_eq hresult]
  | ok value => simpa [Outcome.bind, h.run_eq hresult] using hnext value stamp

/-- A chain succeeds exactly when its steps succeed in turn, all at the same time. -/
theorem Effectless.result_bind {outcome : Outcome α} (h : outcome.Effectless)
    {next : α → Outcome β} {stamp : Nat} {result : β} :
    ((outcome.bind next).run stamp).result = .ok result ↔ ∃ value,
      (outcome.run stamp).result = .ok value ∧ ((next value).run stamp).result = .ok result := by
  cases hresult : (outcome.run stamp).result with
  | error failure => simp [Outcome.bind, h.run_eq hresult]
  | ok value => simp [Outcome.bind, h.run_eq hresult]

/-- Chains run alike if their first steps do. -/
theorem run_bind_congr {outcome other : Outcome α} {next next' : α → Outcome β} {stamp : Nat}
    (h : outcome.Effectless) (hrun : outcome.run stamp = other.run stamp)
    (hnext : ∀ value, (next value).run stamp = (next' value).run stamp) :
    (outcome.bind next).run stamp = (other.bind next').run stamp := by
  simp only [Outcome.bind, ← hrun]
  cases hresult : (outcome.run stamp).result with
  | error failure => rfl
  | ok value => simp only [(h stamp).2, hnext]

end Outcome

namespace Algebra

open Outcome

/-- No call has side effects. -/
def Effectless (algebra : Algebra) : Prop := ∀ name args, (algebra.call name args).Effectless

variable {algebra : Algebra} {binding : String → Option Term} {env env' : Environment}
  {stamp : Nat}

mutual

theorem Effectless.evaluate (h : algebra.Effectless) (env : Environment) (term : Term) :
    (algebra.evaluate env term).Effectless := by
  match term with
  | .var name => exact (silent_variableValue env name).effectless
  | .app head args =>
    rw [Algebra.evaluate, bind_eq]
    exact (Effectless.evaluateAll h env args).bind fun values => h head values

theorem Effectless.evaluateAll (h : algebra.Effectless) (env : Environment) (terms : List Term) :
    (algebra.evaluateAll env terms).Effectless := by
  match terms with
  | [] => exact effectless_ok []
  | term :: rest =>
    rw [Algebra.evaluateAll, bind_eq]
    refine (Effectless.evaluate h env term).bind fun value => ?_
    rw [bind_eq]
    exact (Effectless.evaluateAll h env rest).bind fun values => effectless_ok _

end

theorem Effectless.firstViolated? (h : algebra.Effectless) (env : Environment)
    (equations : List Equation) : (algebra.firstViolated? env equations).Effectless := by
  induction equations with
  | nil => exact effectless_ok none
  | cons equation rest ih =>
    rw [Algebra.firstViolated?, bind_eq]
    refine (h.evaluate env equation.lhs).bind fun lhs => ?_
    rw [bind_eq]
    refine (h.evaluate env equation.rhs).bind fun rhs => ?_
    split
    · exact ih
    · exact effectless_ok _

theorem Effectless.validate (h : algebra.Effectless) (constructor : TermConstructor)
    (equations : List Equation) (args : List Value) :
    (algebra.validate constructor equations args).Effectless := by
  unfold Algebra.validate
  split
  · exact effectless_ok ()
  · split
    · exact effectless_fail _
    · refine (h.firstViolated? _ equations).bind fun violated => ?_
      split
      · exact effectless_fail _
      · exact effectless_ok ()

/-- The value of the term at the time, if it has one. -/
def valueAt (algebra : Algebra) (env : Environment) (stamp : Nat) (term : Term) : Option Value :=
  ((algebra.evaluate env term).run stamp).result.toOption

theorem valueAt_eq_some {term : Term} {value : Value} :
    algebra.valueAt env stamp term = some value ↔
      ((algebra.evaluate env term).run stamp).result = .ok value := by
  rw [valueAt]
  cases ((algebra.evaluate env term).run stamp).result <;> simp [Except.toOption]

/-- Of the variables, those that the binding replaces have the values of the terms that replace
them, and the others have the values that they had. -/
structure Absorbs (algebra : Algebra) (binding : String → Option Term) (env : Environment)
    (stamp : Nat) (names : List String) (env' : Environment) : Prop where
  replaced : ∀ name ∈ names, ∀ term, binding name = some term →
    ∃ value, algebra.valueAt env stamp term = some value ∧ env' name = some value
  kept : ∀ name ∈ names, binding name = none → env' name = env name

theorem Absorbs.mono {names names' : List String}
    (h : algebra.Absorbs binding env stamp names env') (hnames : names' ⊆ names) :
    algebra.Absorbs binding env stamp names' env' where
  replaced name hname := h.replaced name (hnames hname)
  kept name hname := h.kept name (hnames hname)

theorem run_evaluate_var (h : algebra.Effectless) {name : String}
    (habsorbs : algebra.Absorbs binding env stamp [name] env') :
    (algebra.evaluate env ((Term.var name).subst binding)).run stamp =
      (algebra.evaluate env' (.var name)).run stamp := by
  have hmem : name ∈ [name] := List.mem_singleton_self name
  cases hbinding : binding name with
  | none =>
    rw [Term.subst, hbinding, Option.getD_none, Algebra.evaluate, Algebra.evaluate, variableValue,
      variableValue, habsorbs.kept name hmem hbinding]
  | some term =>
    obtain ⟨value, hvalue, henv⟩ := habsorbs.replaced name hmem term hbinding
    rw [Term.subst, hbinding, Option.getD_some,
      (h.evaluate env term).run_eq (valueAt_eq_some.mp hvalue), Algebra.evaluate, variableValue,
      henv]
    rfl

mutual

/-- A term runs after substitution as it does before, once the environment has absorbed the
binding. -/
theorem run_evaluate_subst (h : algebra.Effectless) (term : Term)
    (habsorbs : algebra.Absorbs binding env stamp term.freeVars env') :
    (algebra.evaluate env (term.subst binding)).run stamp =
      (algebra.evaluate env' term).run stamp := by
  match term with
  | .var name => exact run_evaluate_var h habsorbs
  | .app head args =>
    rw [Term.subst, Algebra.evaluate, Algebra.evaluate]
    exact run_bind_congr (h.evaluateAll env _) (run_evaluateAll_subst h args habsorbs)
      fun values => rfl

theorem run_evaluateAll_subst (h : algebra.Effectless) (terms : List Term)
    (habsorbs : algebra.Absorbs binding env stamp (Term.freeVarsAll terms) env') :
    (algebra.evaluateAll env (Term.substAll binding terms)).run stamp =
      (algebra.evaluateAll env' terms).run stamp := by
  match terms with
  | [] => rfl
  | term :: rest =>
    rw [Term.freeVarsAll] at habsorbs
    have hterm := run_evaluate_subst h term (habsorbs.mono (List.subset_append_left _ _))
    have hrest := run_evaluateAll_subst h rest (habsorbs.mono (List.subset_append_right _ _))
    rw [Term.substAll, Algebra.evaluateAll, Algebra.evaluateAll]
    exact run_bind_congr (h.evaluate env _) hterm fun value =>
      run_bind_congr (h.evaluateAll env _) hrest fun values => rfl

end

/-- The variable has a value after substitution. -/
def Resolves (algebra : Algebra) (binding : String → Option Term) (env : Environment)
    (stamp : Nat) (name : String) : Prop :=
  ∃ value, algebra.valueAt env stamp ((binding name).getD (.var name)) = some value

mutual

/-- A term that has a value after substitution needs the value of each variable in it. -/
theorem resolves_of_evaluate (h : algebra.Effectless) (term : Term) {value : Value}
    (hvalue : ((algebra.evaluate env (term.subst binding)).run stamp).result = .ok value) :
    ∀ name ∈ term.freeVars, algebra.Resolves binding env stamp name := by
  match term with
  | .var own =>
    intro name hname
    rw [Term.freeVars, List.mem_singleton] at hname
    subst hname
    exact ⟨value, valueAt_eq_some.mpr hvalue⟩
  | .app head args =>
    rw [Term.subst, Algebra.evaluate, bind_eq, (h.evaluateAll env _).result_bind] at hvalue
    obtain ⟨values, hvalues, -⟩ := hvalue
    exact resolves_of_evaluateAll h args hvalues

theorem resolves_of_evaluateAll (h : algebra.Effectless) (terms : List Term) {values : List Value}
    (hvalues : ((algebra.evaluateAll env (Term.substAll binding terms)).run stamp).result =
      .ok values) :
    ∀ name ∈ Term.freeVarsAll terms, algebra.Resolves binding env stamp name := by
  match terms with
  | [] => exact List.forall_mem_nil _
  | term :: rest =>
    rw [Term.substAll, Algebra.evaluateAll, bind_eq, (h.evaluate env _).result_bind] at hvalues
    obtain ⟨value, hvalue, hvalues⟩ := hvalues
    rw [bind_eq, (h.evaluateAll env _).result_bind] at hvalues
    obtain ⟨others, hothers, -⟩ := hvalues
    rw [Term.freeVarsAll, List.forall_mem_append]
    exact ⟨resolves_of_evaluate h term hvalue, resolves_of_evaluateAll h rest hothers⟩

end

end Algebra

namespace Calculus

open Outcome TermAlgebra.Algebra Standard

variable {algebra : Algebra} {theory : Theory} {declaration : TermConstructor}
  {args : List Value} {stamp : Nat} {types : List Term}

section Constructors

variable {calculus : Calculus} {constructor : Constructor} {head : String} {result : Value}

end Constructors

end Calculus
end TermAlgebra
