import TermAlgebra.Proofs.SettledResults

/-!
Algebras that compute some term constructors by the default implementations of their theory: models
without operations of their own for these constructors, and plain calculi. A model picks a default
implementation by the number of arguments and a calculus by their sorts; where the name is not
overloaded this comes to the same one, if the calculus takes the arguments at all. It is evaluated
one level of nesting below the call, so the call comes to what the implementation comes to.
-/
namespace TermAlgebra

open Outcome

/-- Default implementations call accessors and term constructors, and a name with a default
implementation is not overloaded. -/
structure Theory.DefinesSingly (theory : Theory) : Prop where
  heads : ∀ c ∈ theory.terms, ∀ definition, c.definition? = some definition →
    ∀ head ∈ definition.body.heads, theory.Known head
  single : ∀ c ∈ theory.terms, c.definition?.isSome → theory.termsNamed c.name = [c]

/-- The algebra with calls nested up to each depth, a property of the values on which its calls do
not look at the time, and the arguments at which it uses a default implementation. -/
inductive Interprets (theory : Theory) :
    (Nat → Algebra) → (Value → Prop) → (TermConstructor → List Value → Prop) → Prop
  | model (model : Model) (P : Value → Prop) (htheory : model.theory = theory)
      (hkeeps : ∀ name operation, model.operation? name = some operation →
        ∀ args, (∀ arg ∈ args, P arg) → (operation args).Keeps P)
      (hbare : ∀ c ∈ theory.terms, c.definition?.isSome → model.operation? c.name = none) :
      Interprets theory model.algebra P fun _ _ => True
  | calculus (calculus : Calculus) (plain : calculus.Plain) (htheory : calculus.theory = theory) :
      Interprets theory calculus.algebra (fun _ => True) fun c args =>
        Constructor.accepts ⟨c, .compound⟩ args = true

/-- The arguments of a default implementation are its environment. -/
theorem Environment.forall_ofArgs {P : Value → Prop} {args : List Value}
    (hargs : ∀ arg ∈ args, P arg) (params : List String) (name : String) (value : Value)
    (hvalue : Environment.ofArgs params args name = some value) : P value :=
  hargs value (List.of_mem_zip (mem_of_lastEntry hvalue)).2

theorem Algebra.Approximates.applyDefinition {P : Value → Prop} {self other : Algebra}
    (h : self.Approximates P other) (definition : Definition) (params : List String)
    {args : List Value} (hargs : ∀ arg ∈ args, P arg) :
    (self.applyDefinition definition params args).Approaches P
      (other.applyDefinition definition params args) := by
  rw [applyDefinition_eq, applyDefinition_eq]
  exact h.evaluateVia (Environment.forall_ofArgs hargs params) definition.body

namespace Model

variable {model : Model} {self other : Algebra}

theorem member_algebra (n : Nat) : (model.algebra n).member = model.member := by
  cases n <;> rfl

section Keeps

variable {P : Value → Prop} (hkeeps : ∀ name operation, model.operation? name = some operation →
  ∀ args, (∀ arg ∈ args, P arg) → (operation args).Keeps P)

include hkeeps

theorem approaches_invokeWith (h : self.Approximates P other) (name : String) (args : List Value)
    (hargs : ∀ arg ∈ args, P arg) : (model.invokeWith self name args none).Approaches P
      (model.invokeWith other name args none) := by
  unfold invokeWith
  split
  · exact (keeps_fail _).approaches
  · exact (hkeeps name _ ‹_› args hargs).approaches
  · exact h.applyDefinition _ _ hargs

theorem approximates_self (n : Nat) : (model.algebra n).Approximates P (model.algebra n) := by
  induction n with
  | zero => exact ⟨rfl, fun _ _ _ => (keeps_fail .exhausted).approaches⟩
  | succ n ih => exact ⟨rfl, approaches_invokeWith hkeeps ih⟩

theorem approximates (n : Nat) : (model.algebra n).Approximates P (model.algebra (n + 1)) := by
  have hmember (n : Nat) : (model.algebra n).member = (model.algebra (n + 1)).member := by
    rw [member_algebra, member_algebra]
  induction n with
  | zero =>
    refine ⟨hmember 0, fun name args hargs => ⟨keeps_fail .exhausted, ?_, .inl rfl⟩⟩
    exact ((approximates_self hkeeps 1).call name args hargs).keeps
  | succ n ih => exact ⟨hmember (n + 1), approaches_invokeWith hkeeps ih⟩

end Keeps

theorem member_of_call {name : String} {n : Nat} {args : List Value} {result : Value}
    (hvisible : name.startsWith "_" = false)
    (hcall : ((model.algebra n).call name args).result = .ok result) :
    model.member name = .ok () := by
  have hoffered : (model.operation? name).isSome = true ∨ model.theory.termsNamed name ≠ [] := by
    cases n with
    | zero => cases hcall
    | succ n =>
      change (model.invokeWith (model.algebra n) name args none).result = _ at hcall
      unfold invokeWith at hcall
      split at hcall
      · cases hcall
      · exact .inl (Option.isSome_iff_exists.mpr ⟨_, ‹_›⟩)
      · rename_i hdefined
        refine .inr fun hnil => ?_
        simp [defined?, hnil] at hdefined
  have hoffered' : ((model.operation? name).isSome ||
      !(model.theory.termsNamed name).isEmpty) = true := by simpa using hoffered
  rw [member, hvisible, hoffered']
  rfl

end Model

namespace Calculus

variable {calculus : Calculus} {self other : Algebra}

theorem member_algebra (n : Nat) : (calculus.algebra n).member = calculus.member := by
  cases n <;> rfl

theorem approaches_build (h : self.Approximates (fun _ => True) other) (constructor : Constructor)
    (args : List Value) : (calculus.build self constructor args false).Approaches (fun _ => True)
      (calculus.build other constructor args false) := by
  unfold build
  split
  · exact (keeps_fail _).approaches
  · simp only [Bool.false_eq_true, if_false]
    split
    · exact (keeps_fail _).approaches
    · rename_i types _
      have htypes (env : Environment) : (self.evaluateAllVia false env types).Approaches _
          (other.evaluateAllVia false env types) :=
        h.evaluateAllVia (fun _ _ _ => trivial) types
      exact (htypes _).bind fun _ _ => (keeps_ok trivial).approaches

theorem Plain.approaches_invokeWith (plain : calculus.Plain)
    (h : self.Approximates (fun _ => True) other) (name : String) (args : List Value) :
    (calculus.invokeWith self name args none).Approaches (fun _ => True)
      (calculus.invokeWith other name args none) := by
  cases haccessor : calculus.theory.isAccessor name with
  | true =>
    rw [invokeWith_of_accessor haccessor, invokeWith_of_accessor haccessor]
    exact Keeps.approaches ⟨(silent_ofExcept _).timeless, fun _ _ => trivial⟩
  | false =>
    cases hresolve : calculus.resolve name args with
    | error failure =>
      rw [invokeWith_of_resolve_error haccessor hresolve,
        invokeWith_of_resolve_error haccessor hresolve]
      exact (keeps_fail _).approaches
    | ok constructor =>
      rw [invokeWith_of_resolve haccessor hresolve, invokeWith_of_resolve haccessor hresolve,
        apply, apply, plain.bare]
      dsimp only
      split
      · exact h.applyDefinition _ _ fun _ _ => trivial
      · exact approaches_build h constructor args

theorem Plain.approximates (plain : calculus.Plain) (n : Nat) :
    (calculus.algebra n).Approximates (fun _ => True) (calculus.algebra (n + 1)) := by
  have hmember (n : Nat) : (calculus.algebra n).member = (calculus.algebra (n + 1)).member := by
    rw [member_algebra, member_algebra]
  induction n with
  | zero =>
    refine ⟨hmember 0, fun name args _ => ⟨keeps_fail .exhausted, ?_, .inl rfl⟩⟩
    exact ⟨(plain.silent 1 name args none).timeless, fun _ _ => trivial⟩
  | succ n ih =>
    exact ⟨hmember (n + 1), fun name args _ => plain.approaches_invokeWith ih name args⟩

/-- The overloads of a name with a default implementation. -/
theorem Plain.overloads_of_single (plain : calculus.Plain) {c : TermConstructor}
    (hc : c ∈ calculus.theory.terms) (hsingle : calculus.theory.termsNamed c.name = [c]) :
    calculus.overloads c.name = [⟨c, .compound⟩] := by
  have htypes : (calculus.theory.types.filter fun t => t.name = c.name) = [] := by
    apply List.filter_eq_nil_iff.mpr
    intro t ht hname
    exact plain.accepted.consistent.term_not_type c hc
      (List.mem_map.mpr ⟨t, ht, by simpa using hname⟩)
  rw [overloads, hsingle, htypes]
  rfl

/-- A constructor with a default implementation is a term constructor. -/
theorem exists_of_definition? {name : String} {args : List Value} {constructor : Constructor}
    {definition : Definition} (hresolve : calculus.resolve name args = .ok constructor)
    (hdefinition : constructor.declaration.definition? = some definition) :
    ∃ c ∈ calculus.theory.terms, c.name = name ∧ constructor = ⟨c, .compound⟩ := by
  rcases mem_overloads.mp (resolve_eq_ok hresolve).1 with hterm | ⟨t, -, -, rfl⟩
  · exact hterm
  · cases hdefinition

theorem visible_of_member {name : String} (h : calculus.member name = .ok ()) :
    name.startsWith "_" = false := by
  rw [← Bool.not_eq_true]
  intro hhidden
  rw [member, if_pos hhidden] at h
  cases h

theorem member_of_known {name : String} (hvisible : name.startsWith "_" = false)
    (hknown : calculus.theory.isAccessor name = true ∨ calculus.overloads name ≠ []) :
    calculus.member name = .ok () := by
  rw [member, hvisible, if_neg Bool.false_ne_true, if_pos (by simpa using hknown)]

end Calculus

namespace Interprets

open TermAlgebra.Algebra

variable {theory : Theory} {target : Nat → Algebra} {P : Value → Prop}
  {admits : TermConstructor → List Value → Prop} (h : Interprets theory target P admits)

include h

theorem approximates (n : Nat) : (target n).Approximates P (target (n + 1)) := by
  cases h with
  | model model _ _ hkeeps _ => exact Model.approximates hkeeps n
  | calculus _ plain _ => exact plain.approximates n

theorem call_zero (name : String) (args : List Value) :
    ((target 0).call name args).result = .error .exhausted := by
  cases h <;> rfl

theorem stable_call (name : String) {args : List Value} (hargs : ∀ arg ∈ args, P arg) :
    Stable fun n => ((target n).call name args).result :=
  stable_of_cutOff fun n => ((h.approximates n).call name args hargs).cutOff

theorem stable_evaluateVia {env : Environment}
    (henv : ∀ name value, env name = some value → P value) (viaMembers : Bool) (term : Term) :
    Stable fun n => ((target n).evaluateVia viaMembers env term).result :=
  stable_of_cutOff fun n => ((h.approximates n).evaluateVia henv term).cutOff

theorem stable_evaluateAllVia {env : Environment}
    (henv : ∀ name value, env name = some value → P value) (viaMembers : Bool)
    (terms : List Term) : Stable fun n => ((target n).evaluateAllVia viaMembers env terms).result :=
  stable_of_cutOff fun n => ((h.approximates n).evaluateAllVia henv terms).cutOff

theorem stable_mapped {images : Images} (himages : ∀ entry ∈ images, P entry.2) {value : Value}
    (hdata : value.AllData P) : Stable fun n => ((target n).mapped images value).result :=
  stable_of_cutOff fun n => ((h.approximates n).mapped himages hdata).cutOff

theorem stable_functorAll {images : Images} (himages : ∀ entry ∈ images, P entry.2)
    {values : List Value} (hdata : ∀ value ∈ values, value.AllData P) :
    Stable fun n => ((target n).functorAll images .empty values).result :=
  stable_of_cutOff fun n => ((h.approximates n).functorAll himages values hdata).cutOff

variable {c : TermConstructor}

/-- Arguments at which a call succeeds are taken by the default implementation. -/
theorem admits_of_call (hconsistent : theory.Consistent) (hc : c ∈ theory.terms)
    (hsingle : theory.termsNamed c.name = [c]) {n : Nat} {args : List Value} {result : Value}
    (hcall : ((target n).call c.name args).result = .ok result) : admits c args := by
  cases h with
  | model => trivial
  | calculus calculus plain htheory =>
    subst htheory
    cases n with
    | zero => cases hcall
    | succ n =>
      change (calculus.invokeWith (calculus.algebra n) c.name args none).result = _ at hcall
      have haccessor := hconsistent.term_not_accessor c hc
      cases hresolve : calculus.resolve c.name args with
      | error failure =>
        rw [Calculus.invokeWith_of_resolve_error haccessor hresolve] at hcall
        cases hcall
      | ok constructor =>
        obtain ⟨hmem, haccepts⟩ := Calculus.resolve_eq_ok hresolve
        rw [plain.overloads_of_single hc hsingle, List.mem_singleton] at hmem
        rw [← hmem]
        exact haccepts

/-- The call of a name with a default implementation evaluates it one level below. -/
theorem call_of_definition (hconsistent : theory.Consistent) (hc : c ∈ theory.terms)
    (hsingle : theory.termsNamed c.name = [c]) {definition : Definition}
    (hdefinition : c.definition? = some definition) {args : List Value}
    (hlength : args.length = c.arity) (hadmits : admits c args) (n : Nat) :
    (target (n + 1)).call c.name args =
      (target n).evaluateVia definition.viaMembers (.ofArgs c.params args) definition.body := by
  cases h with
  | model model _ htheory _ hbare =>
    subst htheory
    have hdefined : model.defined? c.name args = some (definition, c.params) := by
      simp [Model.defined?, hsingle, hlength, hdefinition]
    change model.invokeWith (model.algebra n) c.name args none = _
    rw [Model.invokeWith, hbare c hc (by rw [hdefinition]; rfl), hdefined]
    rfl
  | calculus calculus plain htheory =>
    subst htheory
    have hresolve : calculus.resolve c.name args = .ok ⟨c, .compound⟩ := by
      rw [Calculus.resolve, plain.overloads_of_single hc hsingle]
      simp [hadmits]
    change calculus.invokeWith (calculus.algebra n) c.name args none = _
    rw [Calculus.invokeWith_of_resolve (hconsistent.term_not_accessor c hc) hresolve,
      Calculus.apply, plain.bare]
    simp only [hdefinition]
    rfl

/-- A term constructor without a leading underscore is a member. -/
theorem member_of_term {name : String} (hvisible : name.startsWith "_" = false)
    (hterm : theory.termsNamed name ≠ []) (n : Nat) : (target n).member name = .ok () := by
  cases h with
  | model model _ htheory =>
    subst htheory
    rw [model.member_algebra]
    simp [Model.member, hvisible, hterm]
  | calculus calculus plain htheory =>
    subst htheory
    rw [calculus.member_algebra]
    exact Calculus.member_of_known hvisible (.inr (by simp [Calculus.overloads, hterm]))

/-- An accessor that has been called with success is a member. -/
theorem member_of_accessor {name : String} (hvisible : name.startsWith "_" = false)
    (haccessor : theory.isAccessor name = true) {m : Nat} {args : List Value} {result : Value}
    (hcall : ((target m).call name args).result = .ok result) (n : Nat) :
    (target n).member name = .ok () := by
  cases h with
  | model model =>
    rw [model.member_algebra]
    exact Model.member_of_call hvisible hcall
  | calculus calculus plain htheory =>
    subst htheory
    rw [calculus.member_algebra]
    exact Calculus.member_of_known hvisible (.inl haccessor)

end Interprets
end TermAlgebra
