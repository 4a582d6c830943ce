import TermAlgebra.Proofs.PrimitiveCalculus
import TermAlgebra.Proofs.StandardExpressions

/-!
Calls fail only for reasons that lie in their arguments. In an accepted theory every variable of an
expanded result type or equation is reached from the explicit parameters, and every head in a
declaration is an accessor or a declared constructor; so evaluating a declaration asks for nothing
that is not there. Every expression that is built has as many type arguments as its type constructor
has parameters, so no accessor reads past them.
-/
namespace TermAlgebra

namespace Failure

/-- The arguments are of the wrong kinds or number, or given in a form that the called one does not
take. -/
def isTypeError : Failure → Bool
  | .noMethod .. => true
  | .accessorArguments _ => true
  | .badCall => true
  | _ => false

/-- The arguments are at fault, or the nesting has reached its bound. -/
def Expected (failure : Failure) : Prop :=
  failure.isTypeError = true ∨ (∃ name args, failure = .outsideDomain name args) ∨
    failure = .exhausted

end Failure

namespace Outcome

variable {α β : Type}

/-- The outcome is a result with the property or one of the failures that are allowed. -/
def Ends (allowed : Failure → Prop) (P : α → Prop) (outcome : Outcome α) : Prop :=
  (∃ value, outcome = .ok value ∧ P value) ∨ ∃ failure, outcome = .fail failure ∧ allowed failure

variable {allowed : Failure → Prop} {P : α → Prop} {Q : β → Prop}

theorem ends_ok {value : α} (h : P value) : (ok value).Ends allowed P := Or.inl ⟨value, rfl, h⟩

theorem ends_fail {failure : Failure} (h : allowed failure) :
    (fail failure : Outcome α).Ends allowed P :=
  Or.inr ⟨failure, rfl, h⟩

theorem Ends.bind {outcome : Outcome α} {next : α → Outcome β} (h : outcome.Ends allowed P)
    (hnext : ∀ value, P value → (next value).Ends allowed Q) :
    (outcome.bind next).Ends allowed Q := by
  rcases h with ⟨value, rfl, hP⟩ | ⟨failure, rfl, hallowed⟩
  · rw [ok_bind]
    exact hnext value hP
  · rw [fail_bind]
    exact ends_fail hallowed

end Outcome

namespace Theory

/-- The head is an accessor or a term constructor. -/
def Known (theory : Theory) (head : String) : Prop :=
  theory.isAccessor head = true ∨ theory.termsNamed head ≠ []

variable {theory : Theory}

theorem known_of_headIssues {place : Place} {head : String} {given : Nat}
    (h : theory.headIssues place head given = []) : theory.Known head := by
  unfold headIssues at h
  split at h
  · rename_i haccessor
    exact Or.inl haccessor
  · dsimp only at h
    split at h
    · cases h
    · rename_i hoverloads
      exact Or.inr (by simpa using hoverloads)

mutual

theorem known_of_termIssues {place : Place} (term : Term)
    (h : theory.termIssues place term = []) : ∀ head ∈ term.heads, theory.Known head := by
  match term with
  | .var _ => simp [Term.heads]
  | .app head args =>
    rw [termIssues, List.append_eq_nil_iff] at h
    rw [Term.heads]
    exact List.forall_mem_cons.mpr ⟨known_of_headIssues h.1, known_of_termIssuesAll args h.2⟩

theorem known_of_termIssuesAll {place : Place} (terms : List Term)
    (h : theory.termIssuesAll place terms = []) :
    ∀ head ∈ Term.headsAll terms, theory.Known head := by
  match terms with
  | [] => simp [Term.headsAll]
  | term :: rest =>
    rw [termIssuesAll, List.append_eq_nil_iff] at h
    rw [Term.headsAll]
    intro head hhead
    rcases List.mem_append.mp hhead with hhead | hhead
    · exact known_of_termIssues term h.1 head hhead
    · exact known_of_termIssuesAll rest h.2 head hhead

end

/-- The term has its variables among the parameters and only known heads. -/
structure Safe (theory : Theory) (params : List String) (term : Term) : Prop where
  vars : ∀ name ∈ term.freeVars, name ∈ params
  heads : ∀ head ∈ term.heads, theory.Known head

structure SafeAll (theory : Theory) (params : List String) (terms : List Term) : Prop where
  vars : ∀ name ∈ Term.freeVarsAll terms, name ∈ params
  heads : ∀ head ∈ Term.headsAll terms, theory.Known head

variable {params : List String}

theorem Safe.args {head : String} {args : List Term} (h : theory.Safe params (.app head args)) :
    theory.Known head ∧ theory.SafeAll params args := by
  have hheads := h.heads
  rw [Term.heads] at hheads
  exact ⟨hheads head List.mem_cons_self, h.vars,
    fun own hown => hheads own (List.mem_cons_of_mem _ hown)⟩

theorem safeAll_cons {term : Term} {rest : List Term} :
    theory.SafeAll params (term :: rest) ↔
      theory.Safe params term ∧ theory.SafeAll params rest := by
  constructor
  · rintro ⟨hvars, hheads⟩
    rw [Term.freeVarsAll, List.forall_mem_append] at hvars
    rw [Term.headsAll, List.forall_mem_append] at hheads
    exact ⟨⟨hvars.1, hheads.1⟩, ⟨hvars.2, hheads.2⟩⟩
  · rintro ⟨h, hrest⟩
    refine ⟨?_, ?_⟩
    · rw [Term.freeVarsAll, List.forall_mem_append]
      exact ⟨h.vars, hrest.vars⟩
    · rw [Term.headsAll, List.forall_mem_append]
      exact ⟨h.heads, hrest.heads⟩

theorem safe_app {head : String} {args : List Term} (hhead : theory.Known head)
    (hargs : theory.SafeAll params args) : theory.Safe params (.app head args) where
  vars := hargs.vars
  heads := by
    rw [Term.heads]
    exact List.forall_mem_cons.mpr ⟨hhead, hargs.heads⟩

theorem safe_var {name : String} (h : name ∈ params) : theory.Safe params (.var name) :=
  ⟨by simpa [Term.freeVars] using h, by simp [Term.heads]⟩

mutual

/-- Replacing every variable by a safe term makes a term with known heads safe. -/
theorem safe_subst {binding : String → Option Term} (term : Term)
    (hvars : ∀ name ∈ term.freeVars, ∃ path, binding name = some path ∧ theory.Safe params path)
    (hheads : ∀ head ∈ term.heads, theory.Known head) :
    theory.Safe params (term.subst binding) := by
  match term with
  | .var name =>
    obtain ⟨path, hpath, hsafe⟩ := hvars name (by simp [Term.freeVars])
    rw [Term.subst, hpath]
    exact hsafe
  | .app head args =>
    rw [Term.heads, List.forall_mem_cons] at hheads
    rw [Term.subst]
    exact safe_app hheads.1 (safeAll_substAll args hvars hheads.2)

theorem safeAll_substAll {binding : String → Option Term} (terms : List Term)
    (hvars : ∀ name ∈ Term.freeVarsAll terms,
      ∃ path, binding name = some path ∧ theory.Safe params path)
    (hheads : ∀ head ∈ Term.headsAll terms, theory.Known head) :
    theory.SafeAll params (Term.substAll binding terms) := by
  match terms with
  | [] => exact ⟨by simp [Term.substAll, Term.freeVarsAll], by simp [Term.substAll, Term.headsAll]⟩
  | term :: rest =>
    rw [Term.freeVarsAll, List.forall_mem_append] at hvars
    rw [Term.headsAll, List.forall_mem_append] at hheads
    rw [Term.substAll]
    exact safeAll_cons.mpr
      ⟨safe_subst term hvars.1 hheads.1, safeAll_substAll rest hvars.2 hheads.2⟩

end

/-- Every way to a parameter is a chain of accessors on an explicit one. -/
theorem safe_way {constructor : TermConstructor} {path : Term} {name : String}
    (h : (path, name) ∈ Paths.ways (constructor.paths theory)) :
    theory.Safe constructor.params path := by
  refine TermConstructor.ways_induction
    (P := fun path _ => theory.Safe constructor.params path) (fun _ => safe_var) ?_ h
  intro origin first accessor name _ hsafe hstep
  obtain ⟨head, args, t, i, -, ht, -, hparam, -⟩ := TermConstructor.mem_steps.mp hstep
  have haccessor : theory.isAccessor accessor = true :=
    isAccessor_iff.mpr ⟨t, (type?_eq_some ht).1, List.mem_of_getElem? hparam⟩
  exact safe_app (Or.inl haccessor)
    (safeAll_cons.mpr ⟨hsafe, by simp [Term.freeVarsAll], by simp [Term.headsAll]⟩)

theorem exists_firstPath? {constructor : TermConstructor} {name : String}
    (h : (constructor.paths theory).contains name = true) : ∃ path,
    TermConstructor.firstPath? (constructor.paths theory) name = some path ∧
      theory.Safe constructor.params path := by
  obtain ⟨paths, hget⟩ := Table.contains_iff.mp h
  obtain ⟨path, -, -, hfirst⟩ := TermConstructor.get?_paths_eq_some hget
  exact ⟨path, hfirst, safe_way (TermConstructor.firstPath?_mem_ways hfirst)⟩

theorem exists_firstPath?_of_mem_params {constructor : TermConstructor} {name : String}
    (h : name ∈ constructor.params) : ∃ path,
    TermConstructor.firstPath? (constructor.paths theory) name = some path ∧
      theory.Safe constructor.params path :=
  ⟨_, TermConstructor.firstPath?_of_mem_params h, safe_var h⟩

theorem Consistent.contains_of_mentioned (h : theory.Consistent) {c : TermConstructor}
    (hc : c ∈ theory.terms) {name : String}
    (hname : name ∈ c.result.freeVars ++ c.equations.flatMap fun equation =>
      equation.lhs.freeVars ++ equation.rhs.freeVars) :
    (c.paths theory).contains name = true := by
  have hnil := h.termConstructorIssues c hc
  simp only [Theory.termConstructorIssues, List.append_eq_nil_iff] at hnil
  have hnone := List.filterMap_eq_nil_iff.mp hnil.2 name (List.mem_eraseDups.mpr hname)
  by_contra hcontains
  simp [hcontains] at hnone

/-- The expanded result type of a constructor applies its sort to safe terms, to one for each
parameter if the sort is declared. -/
theorem Consistent.expandedResult (h : theory.Consistent) {c : TermConstructor}
    (hc : c ∈ theory.interface) : ∃ head types,
      c.expandedResult theory = .app head types ∧ c.sort? = some head ∧
      theory.SafeAll c.params types ∧
      (head = anySort ∨ ∃ t, theory.type? head = some t ∧ types.length = t.arity) := by
  rcases List.mem_append.mp hc with hterm | hgenerator
  · have hnil := h.termConstructorIssues c hterm
    simp only [Theory.termConstructorIssues, List.append_eq_nil_iff] at hnil
    obtain ⟨head, args, hresult, hhead⟩ := typeIssues_eq_nil hnil.1.1.2
    have hfound : ∀ name ∈ Term.freeVarsAll args, ∃ path,
        TermConstructor.firstPath? (c.paths theory) name = some path ∧
          theory.Safe c.params path := fun name hname =>
      exists_firstPath? (h.contains_of_mentioned hterm (List.mem_append_left _ (by
        rw [hresult]
        exact hname)))
    refine ⟨head, Term.substAll _ args, by rw [TermConstructor.expandedResult, hresult, Term.subst],
      by rw [TermConstructor.sort?, hresult], ?_, ?_⟩
    · refine safeAll_substAll args hfound ?_
      rcases hhead with ⟨-, rfl⟩ | ⟨t, -, -, hissues⟩
      · simp [Term.headsAll]
      · exact known_of_termIssuesAll args hissues
    · rcases hhead with ⟨rfl, -⟩ | ⟨t, ht, harity, -⟩
      · exact Or.inl rfl
      · exact Or.inr ⟨t, ht, by rw [Term.substAll_eq_map, List.length_map, harity]⟩
  · obtain ⟨t, ht, rfl⟩ := List.mem_map.mp hgenerator
    refine ⟨t.name, _, rfl, rfl, ?_, Or.inr ⟨t, h.type?_of_mem ht, ?_⟩⟩
    · have hvars (names : List String) : Term.freeVarsAll (names.map Term.var) = names := by
        induction names with
        | nil => rfl
        | cons name rest ih => simp [Term.freeVarsAll, Term.freeVars, ih]
      have hheads (names : List String) : Term.headsAll (names.map Term.var) = [] := by
        induction names with
        | nil => rfl
        | cons name rest ih => simp [Term.headsAll, Term.heads, ih]
      refine safeAll_substAll _ (fun name hname => ?_) (by simp [hheads])
      rw [hvars] at hname
      exact exists_firstPath?_of_mem_params (List.mem_cons_of_mem _ hname)
    · rw [Term.substAll_eq_map, List.length_map, List.length_map]
      rfl

/-- Both sides of every equation of a constructor's domain are safe. -/
theorem Consistent.domain (h : theory.Consistent) {c : TermConstructor}
    (hc : c ∈ theory.interface) : ∀ equation ∈ c.domain theory,
      theory.Safe c.params equation.lhs ∧ theory.Safe c.params equation.rhs := by
  intro equation hequation
  rcases List.mem_append.mp hequation with hderived | hdeclared
  · obtain ⟨name, first, others, other, hget, hother, rfl⟩ :=
      TermConstructor.mem_derivedEquations.mp hderived
    exact ⟨safe_way (Paths.mem_ways.mpr ⟨_, hget, List.mem_cons_self⟩),
      safe_way (Paths.mem_ways.mpr ⟨_, hget, List.mem_cons_of_mem _ hother⟩)⟩
  · obtain ⟨declared, hmem, rfl⟩ := List.mem_map.mp hdeclared
    rcases List.mem_append.mp hc with hterm | hgenerator
    · have hnil := h.termConstructorIssues c hterm
      simp only [Theory.termConstructorIssues, List.append_eq_nil_iff,
        List.flatMap_eq_nil_iff] at hnil
      obtain ⟨hlhs, hrhs⟩ := hnil.1.2 declared hmem
      have hmentioned : ∀ name ∈ declared.lhs.freeVars ++ declared.rhs.freeVars, ∃ path,
          TermConstructor.firstPath? (c.paths theory) name = some path ∧
            theory.Safe c.params path := fun name hname =>
        exists_firstPath? (h.contains_of_mentioned hterm (List.mem_append_right _
          (List.mem_flatMap.mpr ⟨declared, hmem, hname⟩)))
      exact ⟨safe_subst _ (fun name hname => hmentioned name (List.mem_append_left _ hname))
          (known_of_termIssues _ hlhs),
        safe_subst _ (fun name hname => hmentioned name (List.mem_append_right _ hname))
          (known_of_termIssues _ hrhs)⟩
    · obtain ⟨t, -, rfl⟩ := List.mem_map.mp hgenerator
      simp [TypeConstructor.generator] at hmem

end Theory

namespace Value

/-- At every depth an expression has as many type arguments as its type constructor has
parameters. -/
inductive Saturated (theory : Theory) : Value → Prop
  | datum {value} (h : value.isExpr = false) : Saturated theory value
  | expr {head args typeArgs sort}
      (hlength : ∀ t, theory.type? sort = some t → typeArgs.length = t.arity)
      (hparts : ∀ typeArg ∈ typeArgs, Saturated theory typeArg) :
      Saturated theory (.expr head args typeArgs sort)

theorem Saturated.parts {theory : Theory} {value : Value} (h : Saturated theory value) :
    ∀ typeArg ∈ value.typeArgs, Saturated theory typeArg := by
  cases h with
  | datum h => simp [typeArgs_of_not_expr h]
  | expr _ hparts => exact hparts

end Value

namespace Algebra

open Outcome

variable {algebra : Algebra} {env : Environment} {theory : Theory} {params : List String}
  {P : Value → Prop}

section Evaluation

variable {allowed : Failure → Prop}

mutual

/-- Evaluation ends as the look-ups of its variables and the calls of its heads do. -/
theorem ends_evaluate (term : Term)
    (hvars : ∀ name ∈ term.freeVars, (variableValue env name).Ends allowed P)
    (hcalls : ∀ head ∈ term.heads, ∀ args, (∀ arg ∈ args, P arg) →
      (algebra.call head args).Ends allowed P) :
    (algebra.evaluate env term).Ends allowed P := by
  match term with
  | .var name => exact hvars name (by simp [Term.freeVars])
  | .app head args =>
    rw [Term.heads, List.forall_mem_cons] at hcalls
    rw [Algebra.evaluate, bind_eq]
    exact (ends_evaluateAll args hvars hcalls.2).bind fun values hvalues =>
      hcalls.1 values hvalues.1

theorem ends_evaluateAll (terms : List Term)
    (hvars : ∀ name ∈ Term.freeVarsAll terms, (variableValue env name).Ends allowed P)
    (hcalls : ∀ head ∈ Term.headsAll terms, ∀ args, (∀ arg ∈ args, P arg) →
      (algebra.call head args).Ends allowed P) :
    (algebra.evaluateAll env terms).Ends allowed fun values =>
      (∀ value ∈ values, P value) ∧ values.length = terms.length := by
  match terms with
  | [] => exact ends_ok ⟨by simp, rfl⟩
  | term :: rest =>
    rw [Term.freeVarsAll, List.forall_mem_append] at hvars
    rw [Term.headsAll, List.forall_mem_append] at hcalls
    rw [Algebra.evaluateAll, bind_eq]
    refine (ends_evaluate term hvars.1 hcalls.1).bind fun value hvalue => ?_
    rw [bind_eq]
    refine (ends_evaluateAll rest hvars.2 hcalls.2).bind fun values hvalues => ends_ok ⟨?_, ?_⟩
    · exact List.forall_mem_cons.mpr ⟨hvalue, hvalues.1⟩
    · rw [List.length_cons, List.length_cons, hvalues.2]

end

theorem ends_variableValue {name : String} (h : ∃ value, env name = some value ∧ P value) :
    (variableValue env name).Ends allowed P := by
  obtain ⟨value, hvalue, hP⟩ := h
  rw [variableValue, hvalue]
  exact ends_ok hP

end Evaluation

/-- Calls of known names on values with the property end in such a value or as expected. -/
def Keeps (algebra : Algebra) (theory : Theory) (P : Value → Prop) : Prop :=
  ∀ name args strict?, theory.Known name → (∀ arg ∈ args, P arg) →
    (algebra.invoke name args strict?).Ends Failure.Expected P

theorem Keeps.evaluate (hkeeps : algebra.Keeps theory P)
    (henv : ∀ name ∈ params, ∃ value, env name = some value ∧ P value) (term : Term)
    (h : theory.Safe params term) : (algebra.evaluate env term).Ends Failure.Expected P :=
  ends_evaluate term (fun name hname => ends_variableValue (henv name (h.vars name hname)))
    fun head hhead args hargs => hkeeps head args none (h.heads head hhead) hargs

theorem Keeps.evaluateAll (hkeeps : algebra.Keeps theory P)
    (henv : ∀ name ∈ params, ∃ value, env name = some value ∧ P value) (terms : List Term)
    (h : theory.SafeAll params terms) :
    (algebra.evaluateAll env terms).Ends Failure.Expected fun values =>
      (∀ value ∈ values, P value) ∧ values.length = terms.length :=
  ends_evaluateAll terms (fun name hname => ends_variableValue (henv name (h.vars name hname)))
    fun head hhead args hargs => hkeeps head args none (h.heads head hhead) hargs

theorem Keeps.firstViolated? (hkeeps : algebra.Keeps theory P)
    (henv : ∀ name ∈ params, ∃ value, env name = some value ∧ P value)
    (equations : List Equation) (h : ∀ equation ∈ equations,
      theory.Safe params equation.lhs ∧ theory.Safe params equation.rhs) :
    (algebra.firstViolated? env equations).Ends Failure.Expected fun _ => True := by
  induction equations with
  | nil => exact ends_ok trivial
  | cons equation rest ih =>
    obtain ⟨hequation, hrest⟩ := List.forall_mem_cons.mp h
    rw [Algebra.firstViolated?, bind_eq]
    refine (hkeeps.evaluate henv equation.lhs hequation.1).bind fun lhs _ => ?_
    rw [bind_eq]
    refine (hkeeps.evaluate henv equation.rhs hequation.2).bind fun rhs _ => ?_
    split
    · exact ih hrest
    · exact ends_ok trivial

/-- Checking a domain with as many arguments as parameters ends well or outside the domain. -/
theorem Keeps.validate (hkeeps : algebra.Keeps theory P) {constructor : TermConstructor}
    {equations : List Equation} {args : List Value} (hlength : args.length = constructor.arity)
    (henv : ∀ name ∈ constructor.params,
      ∃ value, Environment.ofArgs constructor.params args name = some value ∧ P value)
    (h : ∀ equation ∈ equations, theory.Safe constructor.params equation.lhs ∧
      theory.Safe constructor.params equation.rhs) :
    (algebra.validate constructor equations args).Ends Failure.Expected fun _ => True := by
  unfold Algebra.validate
  split
  · exact ends_ok trivial
  · rw [if_neg (by simpa using hlength), bind_eq]
    refine (hkeeps.firstViolated? henv equations h).bind fun violated _ => ?_
    split
    · exact ends_fail (Or.inr (Or.inl ⟨_, _, rfl⟩))
    · exact ends_ok trivial

end Algebra

/-- A parameter has the value that was given at some place of its name. -/
theorem Environment.exists_place {params : List String} {args : List Value}
    (hlength : args.length = params.length) {name : String} (h : name ∈ params) :
    ∃ (i : Nat) (value : Value), params[i]? = some name ∧ args[i]? = some value ∧
      Environment.ofArgs params args name = some value := by
  have hkeys : name ∈ (params.zip args).map Prod.fst := by
    rw [List.map_fst_zip (Nat.le_of_eq hlength.symm)]
    exact h
  obtain ⟨value, hvalue⟩ := exists_lastEntry hkeys
  obtain ⟨i, hi⟩ := List.mem_iff_getElem?.mp (mem_of_lastEntry hvalue)
  obtain ⟨hname, harg⟩ := List.getElem?_zip_eq_some.mp hi
  exact ⟨i, value, hname, harg, hvalue⟩

theorem Environment.exists_ofArgs {P : Value → Prop} {params : List String} {args : List Value}
    (hlength : args.length = params.length) (hargs : ∀ arg ∈ args, P arg) {name : String}
    (hname : name ∈ params) :
    ∃ value, Environment.ofArgs params args name = some value ∧ P value := by
  obtain ⟨_, value, -, harg, hvalue⟩ := Environment.exists_place hlength hname
  exact ⟨value, hvalue, hargs value (List.mem_of_getElem? harg)⟩

namespace Calculus

open Outcome Value

variable {calculus : Calculus}

/-- A plain calculus of a theory that defines no constructor by default and declares no type
constructor under the name of the type of all data. -/
structure Elementary (calculus : Calculus) : Prop extends calculus.Plain where
  definition? : ∀ c ∈ calculus.theory.terms, c.definition? = none
  any : calculus.theory.type? anySort = none

theorem Elementary.primitive (elementary : calculus.Elementary) : calculus.Primitive :=
  ⟨elementary.toPlain, elementary.definition?⟩

/-- What a constructor builds has a type argument for each parameter of its sort. -/
theorem Elementary.saturated_expr (elementary : calculus.Elementary) {constructor : Constructor}
    (hmem : constructor.declaration ∈ calculus.theory.interface) {head : String}
    {types : List Term} (hexpanded : constructor.declaration.expandedResult calculus.theory =
      .app head types) {args typeArgs : List Value} (hlength : typeArgs.length = types.length)
    (hparts : ∀ typeArg ∈ typeArgs, Saturated calculus.theory typeArg) :
    Saturated calculus.theory (.expr constructor.head args typeArgs constructor.sort) := by
  refine .expr ?_ hparts
  intro t ht
  obtain ⟨head', types', hexpanded', hsort, -, hany | ⟨t', ht', hlength'⟩⟩ :=
    elementary.accepted.consistent.expandedResult hmem
  · rw [Constructor.sort, hsort, Option.getD_some, hany, elementary.any] at ht
    cases ht
  · rw [Constructor.sort, hsort, Option.getD_some] at ht
    cases ht.symm.trans ht'
    cases hexpanded.symm.trans hexpanded'
    rw [hlength, hlength']

theorem length_of_evaluateAll {algebra : Algebra} (hsilent : algebra.Silent) {env : Environment}
    {terms : List Term} {values : List Value} (h : algebra.evaluateAll env terms = .ok values) :
    values.length = terms.length := by
  induction terms generalizing values with
  | nil =>
    rw [(ok_eq_ok_iff _ _).mp h.symm]
    rfl
  | cons term rest ih =>
    rw [Algebra.evaluateAll, bind_eq, (hsilent.evaluate env term).bind_eq_ok_iff] at h
    obtain ⟨value, -, h⟩ := h
    rw [bind_eq, (hsilent.evaluateAll env rest).bind_eq_ok_iff] at h
    obtain ⟨values', hvalues, h⟩ := h
    rw [(ok_eq_ok_iff _ _).mp h.symm, List.length_cons, List.length_cons, ih hvalues]

theorem Elementary.saturated_of_built (elementary : calculus.Elementary) {n : Nat} {value : Value}
    (h : (calculus.algebra n).Built value) : Saturated calculus.theory value := by
  refine elementary.invariant_built (fun _ h => .datum h) (fun _ h => h.parts) ?_ h
  intro m constructor args typeArgs _ hbuilds _ hparts
  obtain ⟨head, types, hexpanded, htypes⟩ := hbuilds.typeArgs
  exact elementary.saturated_expr (mem_constructors_of_resolve hbuilds.resolve) hexpanded
    (length_of_evaluateAll (elementary.silent m) htypes) hparts

/-- An accessor on a saturated value reads a type argument that is there, unless the value is not
of a type with the accessor. -/
theorem ends_access {name : String} (haccessor : calculus.theory.isAccessor name = true)
    (hconsistent : calculus.theory.Consistent) {value : Value}
    (hvalue : Saturated calculus.theory value) :
    (ofExcept (calculus.access name value)).Ends Failure.Expected (Saturated calculus.theory) := by
  have hnoMethod (args : List Value) : (calculus.noMethod name args).Expected := Or.inl rfl
  unfold access
  split
  · rename_i hnil
    rw [Theory.accessorOwners_eq_nil_iff.mp hnil] at haccessor
    cases haccessor
  · split
    · rename_i head args typeArgs sort
      split
      · rename_i owner index hfind
        have hsort := List.find?_some hfind
        simp only [decide_eq_true_eq] at hsort
        obtain ⟨t, ht, rfl, hparam⟩ :=
          Theory.mem_accessorOwners.mp (List.mem_of_find?_eq_some hfind)
        cases hvalue with
        | datum h => cases h
        | expr hlength hparts =>
          have harity := hlength t (hsort ▸ hconsistent.type?_of_mem ht)
          have hindex : index < typeArgs.length := by
            rw [harity]
            exact (List.getElem?_eq_some_iff.mp hparam).1
          rw [List.getElem?_eq_getElem hindex]
          exact ends_ok (hparts _ (List.getElem_mem hindex))
      · exact ends_fail (hnoMethod _)
    · exact ends_fail (hnoMethod _)

theorem ends_callAccessor {name : String} (haccessor : calculus.theory.isAccessor name = true)
    (hconsistent : calculus.theory.Consistent) {args : List Value}
    (hargs : ∀ arg ∈ args, Saturated calculus.theory arg) (strict? : Option Bool) :
    (ofExcept (calculus.callAccessor name args strict?)).Ends Failure.Expected
      (Saturated calculus.theory) := by
  unfold callAccessor
  split
  · exact ends_fail (Or.inl rfl)
  · exact ends_access haccessor hconsistent (hargs _ List.mem_cons_self)
  · exact ends_fail (Or.inl rfl)

section Calls

variable {self : Algebra}

/-- Building on calls that keep saturation ends in a saturated expression or as expected. -/
theorem Elementary.ends_build (elementary : calculus.Elementary)
    (hkeeps : self.Keeps calculus.theory (Saturated calculus.theory)) {constructor : Constructor}
    (hmem : constructor.declaration ∈ calculus.theory.interface) {args : List Value}
    (hargs : ∀ arg ∈ args, Saturated calculus.theory arg) (strict : Bool) :
    (calculus.build self constructor args strict).Ends Failure.Expected
      (Saturated calculus.theory) := by
  have hconsistent := elementary.accepted.consistent
  cases haccepts : constructor.accepts args with
  | false =>
    rw [build_of_not_accepts haccepts]
    exact ends_fail (Or.inl rfl)
  | true =>
    have hlength := ((Constructor.accepts_iff _ _).mp haccepts).1
    have henv (name : String) (hname : name ∈ constructor.declaration.params) :=
      Environment.exists_ofArgs hlength hargs hname
    have hbuild : (calculus.build self constructor args false).Ends Failure.Expected
        (Saturated calculus.theory) := by
      obtain ⟨head, types, hexpanded, -, hsafe, -⟩ := hconsistent.expandedResult hmem
      rcases hkeeps.evaluateAll henv types hsafe with
        ⟨typeArgs, htypes, hparts, hcount⟩ | ⟨failure, htypes, hexpected⟩
      · rw [build_of_types haccepts hexpanded htypes]
        exact ends_ok (elementary.saturated_expr hmem hexpanded hcount hparts)
      · rw [build_of_failure haccepts hexpanded htypes]
        exact ends_fail hexpected
    cases strict with
    | false => exact hbuild
    | true =>
      rw [build_strict haccepts]
      exact (hkeeps.validate hlength henv (hconsistent.domain hmem)).bind fun _ _ => hbuild

theorem Elementary.ends_invokeWith (elementary : calculus.Elementary)
    (hkeeps : self.Keeps calculus.theory (Saturated calculus.theory)) {name : String}
    (hname : calculus.theory.isAccessor name = true ∨ calculus.overloads name ≠ [])
    {args : List Value} (hargs : ∀ arg ∈ args, Saturated calculus.theory arg)
    (strict? : Option Bool) :
    (calculus.invokeWith self name args strict?).Ends Failure.Expected
      (Saturated calculus.theory) := by
  unfold invokeWith
  split
  · rename_i haccessor
    exact ends_callAccessor haccessor elementary.accepted.consistent hargs strict?
  · rename_i haccessor
    have hoverloads := hname.resolve_left haccessor
    rw [constructWith, bind_eq]
    cases hresolve : calculus.resolve name args with
    | ok constructor =>
      rw [ofExcept_ok_bind, apply, elementary.bare]
      have hmem := mem_constructors_of_resolve hresolve
      simp only [elementary.primitive.definition?_eq_none hmem]
      exact elementary.ends_build hkeeps hmem hargs _
    | error failure =>
      obtain rfl := (resolve_eq_error hresolve).resolve_left fun hnone => hoverloads hnone.1
      rw [ofExcept_error_bind]
      exact ends_fail (Or.inl rfl)

end Calls

/-- At every bound on nesting, calls of known names on saturated values end in a saturated value or
as expected. -/
theorem Elementary.keeps (elementary : calculus.Elementary) (n : Nat) :
    (calculus.algebra n).Keeps calculus.theory (Saturated calculus.theory) := by
  induction n with
  | zero => exact fun _ _ _ _ _ => ends_fail (Or.inr (Or.inr rfl))
  | succ n ih =>
    intro name args strict? hknown hargs
    refine elementary.ends_invokeWith ih (hknown.imp_right fun hterms hnil => hterms ?_) hargs
      strict?
    simp only [overloads, List.append_eq_nil_iff, List.map_eq_nil_iff] at hnil
    exact hnil.1

/-- A call on values that the calculus builds, if its nesting ends, gives a result, or fails because
of the kinds or the number of the arguments, or outside a domain, or because the calculus has no
constructor and no accessor of the very name that is called. -/
theorem Elementary.invoke_cases (elementary : calculus.Elementary) {name : String}
    {args : List Value} (hargs : ∀ arg ∈ args, ∃ m, (calculus.algebra m).Built arg)
    (strict? : Option Bool) (n : Nat)
    (hends : (calculus.algebra n).invoke name args strict? ≠ .fail .exhausted) :
    (∃ value, (calculus.algebra n).invoke name args strict? = .ok value) ∨
    ∃ failure, (calculus.algebra n).invoke name args strict? = .fail failure ∧
      (failure.isTypeError = true ∨ (∃ c values, failure = .outsideDomain c values) ∨
        failure = .unknownConstructor calculus.name name ∧
          calculus.theory.isAccessor name = false ∧ calculus.overloads name = []) := by
  have hsaturated : ∀ arg ∈ args, Saturated calculus.theory arg := by
    intro arg harg
    obtain ⟨_, hbuilt⟩ := hargs arg harg
    exact elementary.saturated_of_built hbuilt
  cases n with
  | zero => exact absurd rfl hends
  | succ n =>
    by_cases hname : calculus.theory.isAccessor name = true ∨ calculus.overloads name ≠ []
    · have hcall := elementary.ends_invokeWith (elementary.keeps n) hname hsaturated strict?
      rcases hcall with ⟨value, hvalue, -⟩ | ⟨failure, hfailure, htype | hdomain | rfl⟩
      · exact Or.inl ⟨value, hvalue⟩
      · exact Or.inr ⟨failure, hfailure, Or.inl htype⟩
      · exact Or.inr ⟨failure, hfailure, Or.inr (Or.inl hdomain)⟩
      · exact absurd hfailure hends
    · rw [not_or, Bool.not_eq_true, not_not] at hname
      obtain ⟨haccessor, hnil⟩ := hname
      have hresolve : calculus.resolve name args =
          .error (.unknownConstructor calculus.name name) := by
        rw [resolve, hnil]
      refine Or.inr ⟨.unknownConstructor calculus.name name, ?_,
        Or.inr (Or.inr ⟨rfl, haccessor, hnil⟩)⟩
      change calculus.invokeWith (calculus.algebra n) name args strict? = _
      rw [invokeWith, haccessor, if_neg Bool.false_ne_true, constructWith, hresolve, bind_eq,
        ofExcept_error_bind]

section

open Standard

theorem elementary_category : (calculusOf category).Elementary where
  toPlain := plain_category
  definition? := by
    intro c hc
    simp only [calculusOf, category, List.mem_cons, List.not_mem_nil, or_false] at hc
    rcases hc with rfl | rfl <;> rfl
  any := rfl

/-- A morphism composed with itself, strictly, though it is no loop. -/
theorem invoke_composition_cases :
    let f := morphismOf (.str "f") (objectOf (.str "A")) (objectOf (.str "B"))
    let outcome := ((calculusOf category).algebra 2).invoke "compose" [f, f] (some true)
    (∃ value, outcome = .ok value) ∨ ∃ failure, outcome = .fail failure ∧
      (failure.isTypeError = true ∨ (∃ c values, failure = .outsideDomain c values) ∨
        failure = .unknownConstructor (calculusOf category).name "compose" ∧
          category.isAccessor "compose" = false ∧
            (calculusOf category).overloads "compose" = []) := by
  intro f outcome
  have hobject (name : String) :
      ((calculusOf category).algebra 2).Built (objectOf (.str name)) :=
    .call (by simpa using .datum rfl) ((makes_object categorical_category _).call rfl)
  have hf : ((calculusOf category).algebra 2).Built f :=
    .call (by simpa using ⟨.datum rfl, hobject "A", hobject "B"⟩)
      ((makes_morphism categorical_category _ rfl rfl).call rfl)
  refine elementary_category.invoke_cases (by simpa using ⟨2, hf⟩) (some true) 2 fun h => ?_
  have hresult : outcome.result = .error (.outsideDomain "compose" [f, f]) := by cbv
  rw [show outcome = .fail .exhausted from h] at hresult
  cases hresult

end

end Calculus
end TermAlgebra
