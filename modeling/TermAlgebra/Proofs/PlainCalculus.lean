import TermAlgebra.Algebra.Calculus
import TermAlgebra.Proofs.Simulation
import TermAlgebra.Proofs.TheoryLookups

/-!
A calculus without overrides over an accepted theory. A call that succeeds reads a type argument,
evaluates a default implementation, or builds an expression, and a strict call that succeeds gives
what the same call gives when it is not strict. From this one step follow an invariant principle
for all that calls return, and simulations between bounds on the nesting of calls.
-/
namespace TermAlgebra

def Value.typeArgs : Value → List Value
  | .expr _ _ typeArgs _ => typeArgs
  | _ => []

namespace Constructor

theorem accepts_iff (constructor : Constructor) (args : List Value) :
    constructor.accepts args = true ↔ args.length = constructor.declaration.arity ∧
      ∀ entry ∈ constructor.declaration.paramSorts.zip args, fits entry.1 entry.2 = true := by
  simp [accepts]

end Constructor

namespace Calculus

open Outcome

variable (calculus : Calculus)

structure Plain : Prop where
  accepted : calculus.theory.Accepted
  bare : ∀ name, calculus.overrides.get? name = none

/-- A constructor builds an expression over the arguments, with type arguments computed in the
given algebra. -/
structure Builds (algebra : Algebra) (constructor : Constructor) (args typeArgs : List Value) :
    Prop where
  not_accessor : calculus.theory.isAccessor constructor.name = false
  resolve : calculus.resolve constructor.name args = .ok constructor
  definition? : constructor.declaration.definition? = none
  typeArgs : ∃ head types,
    constructor.declaration.expandedResult calculus.theory = .app head types ∧
      algebra.evaluateAll (.ofArgs constructor.declaration.params args) types = .ok typeArgs

/-- The ways in which a call succeeds. -/
inductive Yields (algebra : Algebra) : String → List Value → Value → Prop
  | access {name value result} (haccessor : calculus.theory.isAccessor name = true)
      (hresult : calculus.access name value = .ok result) : Yields algebra name [value] result
  | define {name args constructor definition result}
      (haccessor : calculus.theory.isAccessor name = false)
      (hresolve : calculus.resolve name args = .ok constructor)
      (hdefinition : constructor.declaration.definition? = some definition)
      (hresult : algebra.applyDefinition definition constructor.declaration.params args =
        .ok result) : Yields algebra name args result
  | build {constructor args typeArgs} (h : calculus.Builds algebra constructor args typeArgs) :
      Yields algebra constructor.name args
        (.expr constructor.head args typeArgs constructor.sort)

variable {calculus}

/-- A calculus is refused with the errors of its theory; failing these, for an override that belongs
to no constructor. -/
theorem create_of_check {theory : Theory} {diagnostics : List Diagnostic}
    (h : theory.check = .ok diagnostics) (name? : Option String) (overrides : Table Override) :
    let errors := diagnostics.filter Diagnostic.isError
    let made : Calculus :=
      ⟨(name?.filter (· ≠ "")).getD ("Syntax(" ++ theory.name ++ ")"), theory, overrides⟩
    create theory name? overrides =
      if errors ≠ [] then .error (.illFormed theory.name errors)
      else match overrides.keys.find? fun key => (made.overloads key).isEmpty with
        | some key => .error (.unknownConstructor made.name key)
        | none => .ok made := by
  intro errors made
  unfold create
  rw [h]
  change (if !errors.isEmpty then _ else _) = _
  by_cases herrors : errors = []
  · rw [if_neg (by simp [herrors]), if_neg (by simp [herrors])]
    rfl
  · rw [if_pos (by simpa using herrors), if_pos herrors]
    rfl

theorem plain_of_create {theory : Theory} {name? : Option String}
    (h : Calculus.create theory name? .empty = .ok calculus) :
    calculus.Plain ∧ calculus.theory = theory := by
  cases hcheck : theory.check with
  | error failure =>
    rw [create, hcheck] at h
    cases h
  | ok diagnostics =>
    rw [create_of_check hcheck] at h
    by_cases herrors : diagnostics.filter Diagnostic.isError = []
    · rw [if_neg (by simp [herrors])] at h
      cases h
      refine ⟨⟨⟨diagnostics, hcheck, fun d hd => ?_⟩, fun name => rfl⟩, rfl⟩
      simpa using List.filter_eq_nil_iff.mp herrors d hd
    · rw [if_pos herrors] at h
      cases h

/-- A theory that passes its check is taken with any overrides of its own constructors. -/
theorem create_of_accepted {theory : Theory} (haccepted : theory.Accepted)
    (name? : Option String) {overrides : Table Override}
    (hkeys : ∀ key ∈ overrides.keys, ∃ constructor ∈ theory.constructors, constructor.name = key) :
    create theory name? overrides =
      .ok ⟨(name?.filter (· ≠ "")).getD ("Syntax(" ++ theory.name ++ ")"), theory, overrides⟩ := by
  obtain ⟨diagnostics, hcheck, hnone⟩ := haccepted
  have herrors : diagnostics.filter Diagnostic.isError = [] := by
    simpa [List.filter_eq_nil_iff] using hnone
  have hfind (made : Calculus) (hmade : made.theory = theory) :
      (overrides.keys.find? fun key => (made.overloads key).isEmpty) = none := by
    rw [List.find?_eq_none]
    intro key hkey hempty
    obtain ⟨constructor, hconstructor, hname⟩ := hkeys key hkey
    have hmem : constructor ∈ made.overloads key := by
      rw [overloads_eq_filter, hmade]
      exact List.mem_filter.mpr ⟨hconstructor, decide_eq_true hname⟩
    rw [List.isEmpty_iff.mp hempty] at hmem
    cases hmem
  rw [create_of_check hcheck, if_neg (by simp [herrors]), hfind _ rfl]

theorem resolve_eq_ok {name : String} {args : List Value} {constructor : Constructor}
    (h : calculus.resolve name args = .ok constructor) :
    constructor ∈ calculus.overloads name ∧ constructor.accepts args = true := by
  unfold resolve at h
  split at h
  · cases h
  · split at h
    · rename_i found hfind
      cases h
      exact ⟨List.mem_of_find?_eq_some hfind, by simpa using List.find?_some hfind⟩
    · cases h

/-- No overload is found if there is none or if none accepts the arguments. -/
theorem resolve_eq_error {name : String} {args : List Value} {failure : Failure}
    (h : calculus.resolve name args = .error failure) :
    (calculus.overloads name = [] ∧ failure = .unknownConstructor calculus.name name) ∨
      failure = calculus.noMethod name args := by
  unfold resolve at h
  split at h
  · rename_i hnone
    cases h
    exact Or.inl ⟨hnone, rfl⟩
  · split at h
    · cases h
    · cases h
      exact Or.inr rfl

theorem isRejection_of_resolve {name : String} {args : List Value} {failure : Failure}
    (h : calculus.resolve name args = .error failure) : failure.isRejection = true := by
  rcases resolve_eq_error h with ⟨-, rfl⟩ | rfl <;> rfl

/-- An overload of a name is a term constructor of that name or the generator of a type
constructor of that name. -/
theorem mem_overloads {name : String} {constructor : Constructor} :
    constructor ∈ calculus.overloads name ↔
      (∃ c ∈ calculus.theory.terms, c.name = name ∧ constructor = ⟨c, .compound⟩) ∨
      ∃ t ∈ calculus.theory.types, t.name = name ∧ constructor = ⟨t.generator, .generator⟩ := by
  simp only [overloads, Theory.termsNamed, List.mem_append, List.mem_map, List.mem_filter,
    decide_eq_true_eq]
  constructor
  · rintro (⟨c, ⟨hc, hname⟩, rfl⟩ | ⟨t, ⟨ht, hname⟩, rfl⟩)
    · exact Or.inl ⟨c, hc, hname, rfl⟩
    · exact Or.inr ⟨t, ht, hname, rfl⟩
  · rintro (⟨c, hc, hname, rfl⟩ | ⟨t, ht, hname, rfl⟩)
    · exact Or.inl ⟨c, ⟨hc, hname⟩, rfl⟩
    · exact Or.inr ⟨t, ⟨ht, hname⟩, rfl⟩

theorem name_of_mem_overloads {name : String} {constructor : Constructor}
    (h : constructor ∈ calculus.overloads name) : constructor.name = name := by
  rcases mem_overloads.mp h with ⟨c, -, hname, rfl⟩ | ⟨t, -, hname, rfl⟩
  · exact hname
  · exact hname

theorem resolve_name {name : String} {args : List Value} {constructor : Constructor}
    (h : calculus.resolve name args = .ok constructor) : constructor.name = name :=
  name_of_mem_overloads (resolve_eq_ok h).1

theorem mem_constructors_of_resolve {name : String} {args : List Value} {constructor : Constructor}
    (h : calculus.resolve name args = .ok constructor) :
    constructor.declaration ∈ calculus.theory.interface := by
  rcases mem_overloads.mp (resolve_eq_ok h).1 with ⟨c, hc, -, rfl⟩ | ⟨t, ht, -, rfl⟩
  · exact List.mem_append_left _ hc
  · exact List.mem_append_right _ (List.mem_map.mpr ⟨t, ht, rfl⟩)

theorem not_accessor_of_resolve (h : calculus.theory.Consistent) {name : String}
    {args : List Value} {constructor : Constructor}
    (hresolve : calculus.resolve name args = .ok constructor) :
    calculus.theory.isAccessor name = false := by
  rcases mem_overloads.mp (resolve_eq_ok hresolve).1 with ⟨c, hc, rfl, -⟩ | ⟨t, ht, rfl, -⟩
  · exact h.term_not_accessor c hc
  · exact h.type_not_accessor t ht

section Silence

variable {self : Algebra}

theorem build_of_not_accepts {constructor : Constructor} {args : List Value} {strict : Bool}
    (h : constructor.accepts args = false) : calculus.build self constructor args strict =
      .fail (calculus.noMethod constructor.name args) := by
  unfold build
  simp only [h, Bool.not_false, if_true]

/-- A strict constructor first checks the domain, and then builds as one that is not strict. -/
theorem build_strict {constructor : Constructor} {args : List Value}
    (haccepts : constructor.accepts args = true) :
    calculus.build self constructor args true =
      (self.validate constructor.declaration (constructor.declaration.domain calculus.theory)
        args).bind fun _ => calculus.build self constructor args false := by
  unfold build
  simp only [haccepts, Bool.not_true, Bool.false_eq_true, if_false, if_true]
  rfl

theorem silent_build (hself : self.Silent) (constructor : Constructor) (args : List Value)
    (strict : Bool) : (calculus.build self constructor args strict).Silent := by
  have hplain : (calculus.build self constructor args false).Silent := by
    unfold build
    split
    · exact silent_fail _
    · simp only [Bool.false_eq_true, if_false]
      split
      · exact silent_fail _
      · exact (hself.evaluateAll _ _).bind fun typeArgs => silent_ok _
  cases strict with
  | false => exact hplain
  | true =>
    cases haccepts : constructor.accepts args with
    | true =>
      rw [build_strict haccepts]
      exact (hself.validate _ _ _).bind fun _ => hplain
    | false =>
      rw [build_of_not_accepts haccepts]
      exact silent_fail _

theorem Plain.silent_apply (plain : calculus.Plain) (hself : self.Silent)
    (constructor : Constructor) (args : List Value) (strict : Bool) :
    (calculus.apply self constructor args strict).Silent := by
  unfold apply
  rw [plain.bare]
  dsimp only
  split
  · split
    · exact (hself.validate _ _ _).bind fun _ => hself.applyDefinition _ _ _
    · exact hself.applyDefinition _ _ _
  · exact silent_build hself constructor args strict

theorem Plain.silent_invokeWith (plain : calculus.Plain) (hself : self.Silent) (name : String)
    (args : List Value) (strict? : Option Bool) :
    (calculus.invokeWith self name args strict?).Silent := by
  unfold invokeWith
  split
  · exact silent_ofExcept _
  · exact (silent_ofExcept _).bind fun constructor => plain.silent_apply hself constructor args _

theorem Plain.silent (plain : calculus.Plain) (n : Nat) : (calculus.algebra n).Silent := by
  induction n with
  | zero => exact fun name args strict? => silent_fail _
  | succ n ih => exact fun name args strict? => plain.silent_invokeWith ih name args strict?

end Silence

section Steps

variable {self : Algebra}

theorem build_of_types {constructor : Constructor} {args typeArgs : List Value} {head : String}
    {types : List Term} (haccepts : constructor.accepts args = true)
    (hexpanded : constructor.declaration.expandedResult calculus.theory = .app head types)
    (htypes : self.evaluateAll (.ofArgs constructor.declaration.params args) types =
      .ok typeArgs) :
    calculus.build self constructor args false =
      .ok (.expr constructor.head args typeArgs constructor.sort) := by
  unfold build
  simp only [haccepts, Bool.not_true, Bool.false_eq_true, if_false, hexpanded]
  rw [bind_eq, htypes, ok_bind]
  rfl

theorem build_of_failure {constructor : Constructor} {args : List Value} {head : String}
    {types : List Term} {failure : Failure} (haccepts : constructor.accepts args = true)
    (hexpanded : constructor.declaration.expandedResult calculus.theory = .app head types)
    (htypes : self.evaluateAll (.ofArgs constructor.declaration.params args) types =
      .fail failure) :
    calculus.build self constructor args false = .fail failure := by
  unfold build
  simp only [haccepts, Bool.not_true, Bool.false_eq_true, if_false, hexpanded]
  rw [bind_eq, htypes, fail_bind]

/-- An expression is built where the constructor accepts the arguments and its type can be
computed. -/
theorem build_eq_ok_iff {constructor : Constructor} {args : List Value} {result : Value}
    (hself : self.Silent) : calculus.build self constructor args false = .ok result ↔
      constructor.accepts args = true ∧ ∃ head types typeArgs,
        constructor.declaration.expandedResult calculus.theory = .app head types ∧
        self.evaluateAll (.ofArgs constructor.declaration.params args) types = .ok typeArgs ∧
        result = .expr constructor.head args typeArgs constructor.sort := by
  constructor
  · intro h
    unfold build at h
    dsimp only at h
    cases haccepts : constructor.accepts args with
    | false => simp [haccepts] at h
    | true =>
      cases hresult : constructor.declaration.expandedResult calculus.theory with
      | var name => simp [haccepts, hresult] at h
      | app head types =>
        simp only [haccepts, hresult, Bool.not_true, Bool.false_eq_true, if_false] at h
        rw [bind_eq, (hself.evaluateAll _ _).bind_eq_ok_iff] at h
        obtain ⟨typeArgs, htypes, h⟩ := h
        exact ⟨rfl, head, types, typeArgs, rfl, htypes, ((ok_eq_ok_iff _ _).mp h).symm⟩
  · rintro ⟨haccepts, head, types, typeArgs, hexpanded, htypes, rfl⟩
    exact build_of_types haccepts hexpanded htypes

theorem accepts_of_build {constructor : Constructor} {args : List Value} {strict : Bool}
    {result : Value} (h : calculus.build self constructor args strict = .ok result) :
    constructor.accepts args = true := by
  cases haccepts : constructor.accepts args with
  | true => rfl
  | false =>
    rw [build_of_not_accepts haccepts] at h
    exact absurd h (fail_ne_ok _ _)

/-- What a strict constructor builds it also builds when it is not strict. -/
theorem build_of_strict {constructor : Constructor} {args : List Value} {strict : Bool}
    {result : Value} (hself : self.Silent)
    (h : calculus.build self constructor args strict = .ok result) :
    calculus.build self constructor args false = .ok result := by
  cases strict with
  | false => exact h
  | true =>
    rw [build_strict (accepts_of_build h), (hself.validate _ _ _).bind_eq_ok_iff] at h
    obtain ⟨_, -, h⟩ := h
    exact h

theorem Plain.yields_of_apply (plain : calculus.Plain) (hself : self.Silent)
    {constructor : Constructor} {args : List Value} {strict : Bool} {result : Value}
    (haccessor : calculus.theory.isAccessor constructor.name = false)
    (hresolve : calculus.resolve constructor.name args = .ok constructor)
    (h : calculus.apply self constructor args strict = .ok result) :
    calculus.Yields self constructor.name args result := by
  unfold apply at h
  rw [plain.bare] at h
  dsimp only at h
  cases hdefinition : constructor.declaration.definition? with
  | some definition =>
    have happly : self.applyDefinition definition constructor.declaration.params args =
        .ok result := by
      cases strict with
      | false => simpa [hdefinition] using h
      | true =>
        simp only [hdefinition, if_true] at h
        rw [bind_eq, (hself.validate _ _ _).bind_eq_ok_iff] at h
        obtain ⟨_, -, h⟩ := h
        exact h
    exact .define haccessor hresolve hdefinition happly
  | none =>
    simp only [hdefinition] at h
    obtain ⟨-, head, types, typeArgs, hresult, htypes, rfl⟩ :=
      (build_eq_ok_iff hself).mp (build_of_strict hself h)
    exact .build ⟨haccessor, hresolve, hdefinition, head, types, hresult, htypes⟩

/-- A call that succeeds, strict or not, does so in one of the ways of a plain calculus. -/
theorem Plain.yields_of_invokeWith (plain : calculus.Plain) (hself : self.Silent)
    {name : String} {args : List Value} {strict? : Option Bool} {result : Value}
    (h : calculus.invokeWith self name args strict? = .ok result) :
    calculus.Yields self name args result := by
  unfold invokeWith at h
  cases haccessor : calculus.theory.isAccessor name with
  | true =>
    rw [haccessor, if_pos rfl, ofExcept_eq_ok_iff] at h
    unfold callAccessor at h
    split at h
    · cases h
    · exact .access haccessor h
    · cases h
  | false =>
    rw [haccessor, if_neg Bool.false_ne_true, constructWith, bind_eq,
      (silent_ofExcept _).bind_eq_ok_iff] at h
    obtain ⟨constructor, hresolve, h⟩ := h
    rw [ofExcept_eq_ok_iff] at hresolve
    have hname := resolve_name hresolve
    subst hname
    exact plain.yields_of_apply hself haccessor hresolve h

theorem invokeWith_of_accessor {name : String} (h : calculus.theory.isAccessor name = true)
    (args : List Value) (strict? : Option Bool) :
    calculus.invokeWith self name args strict? =
      .ofExcept (calculus.callAccessor name args strict?) := by
  rw [invokeWith, if_pos h]

/-- The call of an accessor reads a type argument, within any bound on nesting. -/
theorem call_of_access {n : Nat} {name : String} {value result : Value}
    (haccessor : calculus.theory.isAccessor name = true)
    (hresult : calculus.access name value = .ok result) :
    (calculus.algebra (n + 1)).call name [value] = .ok result := by
  change calculus.invokeWith (calculus.algebra n) name [value] none = .ok result
  rw [invokeWith_of_accessor haccessor, ofExcept_eq_ok_iff]
  exact hresult

theorem invokeWith_of_resolve {name : String} {args : List Value} {constructor : Constructor}
    (haccessor : calculus.theory.isAccessor name = false)
    (hresolve : calculus.resolve name args = .ok constructor) (strict? : Option Bool) :
    calculus.invokeWith self name args strict? =
      calculus.apply self constructor args (strict?.getD false) := by
  rw [invokeWith, haccessor, if_neg Bool.false_ne_true, constructWith, hresolve]
  rfl

theorem invokeWith_of_resolve_error {name : String} {args : List Value} {failure : Failure}
    (haccessor : calculus.theory.isAccessor name = false)
    (hresolve : calculus.resolve name args = .error failure) (strict? : Option Bool) :
    calculus.invokeWith self name args strict? = .fail failure := by
  rw [invokeWith, haccessor, if_neg Bool.false_ne_true, constructWith, hresolve, bind_eq,
    ofExcept_error_bind]

theorem call_of_not_accessor {n : Nat} {name : String} {args : List Value}
    (h : calculus.theory.isAccessor name = false) : (calculus.algebra (n + 1)).call name args =
      (ofExcept (calculus.resolve name args)).bind fun constructor =>
        calculus.apply (calculus.algebra n) constructor args false := by
  change calculus.invokeWith (calculus.algebra n) name args none = _
  rw [invokeWith, h, if_neg Bool.false_ne_true]
  rfl

theorem call_of_accessor {n : Nat} {name : String} {args : List Value}
    (h : calculus.theory.isAccessor name = true) : (calculus.algebra (n + 1)).call name args =
      ofExcept (calculus.callAccessor name args none) := by
  change calculus.invokeWith (calculus.algebra n) name args none = _
  exact invokeWith_of_accessor h args none

/-- Without a default implementation the overload that is found builds the expression. -/
theorem Plain.call_eq_build (plain : calculus.Plain) {n : Nat} {name : String} {args : List Value}
    {constructor : Constructor} (hresolve : calculus.resolve name args = .ok constructor)
    (hdefinition : constructor.declaration.definition? = none) :
    (calculus.algebra (n + 1)).call name args =
      calculus.build (calculus.algebra n) constructor args false := by
  rw [call_of_not_accessor (not_accessor_of_resolve plain.accepted.consistent hresolve), hresolve,
    ofExcept_ok_bind, apply, plain.bare]
  simp only [hdefinition]

/-- Each of the ways is the way of a call that is not strict. -/
theorem Plain.invokeWith_of_yields (plain : calculus.Plain) (hself : self.Silent)
    {name : String} {args : List Value} {result : Value}
    (h : calculus.Yields self name args result) :
    calculus.invokeWith self name args none = .ok result := by
  cases h with
  | access haccessor hresult =>
    rw [invokeWith_of_accessor haccessor, ofExcept_eq_ok_iff]
    exact hresult
  | define haccessor hresolve hdefinition hresult =>
    rw [invokeWith_of_resolve haccessor hresolve, apply, plain.bare]
    simpa [hdefinition] using hresult
  | build h =>
    rw [invokeWith_of_resolve h.not_accessor h.resolve, apply, plain.bare]
    obtain ⟨head, types, hresult, htypes⟩ := h.typeArgs
    simp only [h.definition?, Option.getD_none]
    exact (build_eq_ok_iff hself).mpr ⟨(resolve_eq_ok h.resolve).2, head, types, _, hresult,
      htypes, rfl⟩

theorem Plain.yields_of_invoke (plain : calculus.Plain) {n : Nat} {name : String}
    {args : List Value} {strict? : Option Bool} {result : Value}
    (h : (calculus.algebra (n + 1)).invoke name args strict? = .ok result) :
    calculus.Yields (calculus.algebra n) name args result :=
  plain.yields_of_invokeWith (plain.silent n) h

theorem Plain.call_of_yields (plain : calculus.Plain) {n : Nat} {name : String}
    {args : List Value} {result : Value}
    (h : calculus.Yields (calculus.algebra n) name args result) :
    (calculus.algebra (n + 1)).call name args = .ok result :=
  plain.invokeWith_of_yields (plain.silent n) h

/-- A call that succeeds has found an overload that accepts the arguments; if it is strict, they
have passed the check of the domain. -/
theorem Plain.checked_of_invoke (plain : calculus.Plain) {n : Nat} {name : String}
    {args : List Value} {strict? : Option Bool} {result : Value}
    (haccessor : calculus.theory.isAccessor name = false)
    (h : (calculus.algebra (n + 1)).invoke name args strict? = .ok result) :
    ∃ constructor ∈ calculus.overloads name, constructor.accepts args = true ∧
      (strict? = some true → (calculus.algebra n).validate constructor.declaration
        (constructor.declaration.domain calculus.theory) args = .ok ()) := by
  change calculus.invokeWith (calculus.algebra n) name args strict? = .ok result at h
  cases hresolve : calculus.resolve name args with
  | error failure =>
    rw [invokeWith_of_resolve_error haccessor hresolve] at h
    cases fail_ne_ok _ _ h
  | ok constructor =>
    obtain ⟨hmem, haccepts⟩ := resolve_eq_ok hresolve
    refine ⟨constructor, hmem, haccepts, ?_⟩
    rintro rfl
    rw [invokeWith_of_resolve haccessor hresolve, apply, plain.bare] at h
    have hsilent := (plain.silent n).validate constructor.declaration
      (constructor.declaration.domain calculus.theory) args
    cases hdefinition : constructor.declaration.definition? with
    | some definition =>
      simp only [hdefinition, Option.getD_some, if_true, bind_eq] at h
      obtain ⟨_, hpass, -⟩ := hsilent.bind_eq_ok_iff.mp h
      exact hpass
    | none =>
      simp only [hdefinition, Option.getD_some, build_strict haccepts] at h
      obtain ⟨_, hpass, -⟩ := hsilent.bind_eq_ok_iff.mp h
      exact hpass

theorem invoke_zero_ne_ok {name : String} {args : List Value} {strict? : Option Bool}
    {result : Value} : (calculus.algebra 0).invoke name args strict? ≠ .ok result :=
  fail_ne_ok _ _

end Steps

end Calculus
end TermAlgebra
