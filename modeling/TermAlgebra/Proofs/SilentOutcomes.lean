import TermAlgebra.Algebra.Basic

/-!
Outcomes that record no event and take no stamp. Such an outcome is its result, so a chain of
silent operations succeeds exactly when each of them succeeds in turn. An algebra whose calls are
silent evaluates terms, checks domains and applies default implementations silently. Evaluation by
name and evaluation through members are one recursion, which in the second case looks each head up
first; what is true of both is proved of it.
-/
namespace TermAlgebra

namespace Outcome

variable {α β : Type}

def Silent (outcome : Outcome α) : Prop := ∃ result, outcome = ofExcept result

theorem result_ofExcept (result : Except Failure α) : (ofExcept result).result = result := rfl

theorem silent_ofExcept (result : Except Failure α) : (ofExcept result).Silent := ⟨result, rfl⟩

theorem silent_ok (value : α) : (ok value).Silent := ⟨.ok value, rfl⟩

theorem silent_fail (failure : Failure) : (fail failure : Outcome α).Silent :=
  ⟨.error failure, rfl⟩

theorem ofExcept_injective {a b : Except Failure α} (h : ofExcept a = ofExcept b) : a = b :=
  congrArg Outcome.result h

@[simp] theorem ok_eq_ok_iff (a b : α) : ok a = ok b ↔ a = b := by
  constructor
  · intro h
    exact Except.ok.inj (ofExcept_injective h)
  · intro h
    rw [h]

@[simp] theorem fail_ne_ok (failure : Failure) (value : α) : fail failure ≠ ok value := by
  intro h
  have := ofExcept_injective h
  cases this

@[simp] theorem ofExcept_eq_ok_iff (result : Except Failure α) (value : α) :
    ofExcept result = ok value ↔ result = .ok value :=
  ⟨fun h => ofExcept_injective h, fun h => by rw [h, ok]⟩

theorem ofExcept_ok_bind (value : α) (next : α → Outcome β) :
    (ofExcept (.ok value)).bind next = next value := ok_bind value next

theorem ofExcept_error_bind (failure : Failure) (next : α → Outcome β) :
    (ofExcept (.error failure)).bind next = fail failure := fail_bind failure next

/-- A silent outcome succeeds or fails, and does nothing else. -/
theorem Silent.cases {outcome : Outcome α} (h : outcome.Silent) :
    (∃ value, outcome = ok value) ∨ ∃ failure, outcome = fail failure := by
  obtain ⟨failure | value, rfl⟩ := h
  · exact Or.inr ⟨failure, rfl⟩
  · exact Or.inl ⟨value, rfl⟩

theorem Silent.eq_ok {outcome : Outcome α} (h : outcome.Silent) {value : α}
    (hresult : outcome.result = .ok value) : outcome = ok value := by
  obtain ⟨result, rfl⟩ := h
  rw [result_ofExcept] at hresult
  rw [hresult, ok]

theorem Silent.bind {outcome : Outcome α} {next : α → Outcome β} (h : outcome.Silent)
    (hnext : ∀ value, (next value).Silent) : (outcome.bind next).Silent := by
  rcases h.cases with ⟨value, rfl⟩ | ⟨failure, rfl⟩
  · rw [ok_bind]
    exact hnext value
  · rw [fail_bind]
    exact silent_fail failure

/-- A chain succeeds exactly when its steps succeed in turn. -/
theorem Silent.bind_eq_ok_iff {outcome : Outcome α} (h : outcome.Silent)
    {next : α → Outcome β} {result : β} :
    outcome.bind next = ok result ↔ ∃ value, outcome = ok value ∧ next value = ok result := by
  rcases h.cases with ⟨value, rfl⟩ | ⟨failure, rfl⟩
  · simp
  · simp

end Outcome

namespace Algebra

open Outcome

/-- No call of the algebra records an event or takes a stamp. -/
def Silent (algebra : Algebra) : Prop :=
  ∀ name args strict?, (algebra.invoke name args strict?).Silent

section Evaluations

variable (algebra : Algebra) (viaMembers : Bool) (env : Environment)

/-- Evaluation of a term, through the members of the algebra or not. -/
def evaluateVia (term : Term) : Outcome Value :=
  if viaMembers then algebra.evaluateMembers env term else algebra.evaluate env term

def evaluateAllVia (terms : List Term) : Outcome (List Value) :=
  if viaMembers then algebra.evaluateMembersAll env terms else algebra.evaluateAll env terms

/-- Through the members a head is looked up first. -/
def found (head : String) : Outcome Unit :=
  if viaMembers then .ofExcept (algebra.member head) else .ok ()

theorem applyDefinition_eq (definition : Definition) (params : List String) (args : List Value) :
    algebra.applyDefinition definition params args =
      algebra.evaluateVia definition.viaMembers (.ofArgs params args) definition.body := rfl

theorem evaluateVia_var (name : String) :
    algebra.evaluateVia viaMembers env (.var name) = variableValue env name := by
  cases viaMembers <;> rfl

theorem evaluateVia_app (head : String) (args : List Term) :
    algebra.evaluateVia viaMembers env (.app head args) =
      (algebra.found viaMembers head).bind fun _ =>
        (algebra.evaluateAllVia viaMembers env args).bind fun values =>
          algebra.call head values := by
  cases viaMembers <;> rfl

theorem evaluateAllVia_nil : algebra.evaluateAllVia viaMembers env [] = .ok [] := by
  cases viaMembers <;> rfl

theorem evaluateAllVia_cons (term : Term) (rest : List Term) :
    algebra.evaluateAllVia viaMembers env (term :: rest) =
      (algebra.evaluateVia viaMembers env term).bind fun value =>
        (algebra.evaluateAllVia viaMembers env rest).bind fun values =>
          .ok (value :: values) := by
  cases viaMembers <;> rfl

end Evaluations

variable {algebra : Algebra} {viaMembers : Bool} {env : Environment}

theorem found_eq_ok_iff {head : String} : algebra.found viaMembers head = .ok () ↔
    (viaMembers = true → algebra.member head = .ok ()) := by
  cases viaMembers <;> simp [found]

mutual

/-- Looking up members that are there makes no difference. -/
theorem evaluateVia_of_members (term : Term)
    (hmember : ∀ head ∈ term.heads, algebra.member head = .ok ()) :
    algebra.evaluateVia viaMembers env term = algebra.evaluate env term := by
  match term with
  | .var name => rw [evaluateVia_var, evaluate]
  | .app head args =>
    rw [Term.heads, List.forall_mem_cons] at hmember
    rw [evaluateVia_app, found_eq_ok_iff.mpr fun _ => hmember.1, ok_bind,
      evaluateAllVia_of_members args hmember.2, evaluate, bind_eq]

theorem evaluateAllVia_of_members (terms : List Term)
    (hmember : ∀ head ∈ Term.headsAll terms, algebra.member head = .ok ()) :
    algebra.evaluateAllVia viaMembers env terms = algebra.evaluateAll env terms := by
  match terms with
  | [] => rw [evaluateAllVia_nil, evaluateAll, pure_eq]
  | term :: rest =>
    rw [Term.headsAll, List.forall_mem_append] at hmember
    rw [evaluateAllVia_cons, evaluateVia_of_members term hmember.1,
      evaluateAllVia_of_members rest hmember.2, evaluateAll]
    rfl

end

theorem silent_variableValue (env : Environment) (name : String) :
    (variableValue env name).Silent := by
  unfold variableValue
  cases env name with
  | none => exact silent_fail _
  | some value => exact silent_ok value

theorem silent_found (head : String) : (algebra.found viaMembers head).Silent := by
  unfold found
  split
  · exact silent_ofExcept _
  · exact silent_ok ()

mutual

theorem Silent.evaluateVia (h : algebra.Silent) (term : Term) :
    (algebra.evaluateVia viaMembers env term).Silent := by
  match term with
  | .var name =>
    rw [evaluateVia_var]
    exact silent_variableValue env name
  | .app head args =>
    rw [evaluateVia_app]
    exact (silent_found head).bind fun _ =>
      (Silent.evaluateAllVia h args).bind fun values => h head values none

theorem Silent.evaluateAllVia (h : algebra.Silent) (terms : List Term) :
    (algebra.evaluateAllVia viaMembers env terms).Silent := by
  match terms with
  | [] =>
    rw [evaluateAllVia_nil]
    exact silent_ok []
  | term :: rest =>
    rw [evaluateAllVia_cons]
    exact (Silent.evaluateVia h term).bind fun value =>
      (Silent.evaluateAllVia h rest).bind fun values => silent_ok _

end

theorem Silent.evaluate (h : algebra.Silent) (env : Environment) (term : Term) :
    (algebra.evaluate env term).Silent := by
  change (algebra.evaluateVia false env term).Silent
  exact h.evaluateVia term

theorem Silent.evaluateAll (h : algebra.Silent) (env : Environment) (terms : List Term) :
    (algebra.evaluateAll env terms).Silent := by
  change (algebra.evaluateAllVia false env terms).Silent
  exact h.evaluateAllVia terms

theorem Silent.firstViolated? (h : algebra.Silent) (env : Environment)
    (equations : List Equation) : (algebra.firstViolated? env equations).Silent := by
  induction equations with
  | nil => exact silent_ok none
  | cons equation rest ih =>
    rw [Algebra.firstViolated?, bind_eq]
    refine (h.evaluate env equation.lhs).bind fun lhs => ?_
    rw [bind_eq]
    refine (h.evaluate env equation.rhs).bind fun rhs => ?_
    split
    · exact ih
    · exact silent_ok _

theorem Silent.validate (h : algebra.Silent) (constructor : TermConstructor)
    (equations : List Equation) (args : List Value) :
    (algebra.validate constructor equations args).Silent := by
  unfold Algebra.validate
  split
  · exact silent_ok ()
  · split
    · exact silent_fail _
    · refine (h.firstViolated? _ equations).bind fun violated => ?_
      split
      · exact silent_fail _
      · exact silent_ok ()

theorem Silent.applyDefinition (h : algebra.Silent) (definition : Definition)
    (params : List String) (args : List Value) :
    (algebra.applyDefinition definition params args).Silent := by
  rw [applyDefinition_eq]
  exact h.evaluateVia definition.body

end Algebra
end TermAlgebra
