import TermAlgebra.Proofs.EqualValues
import TermAlgebra.Proofs.HeldEquations
import TermAlgebra.Proofs.StandardExpressions

/-!
What a strict constructor checks. The derived equations compare the first way to a parameter with
every other one. A typing assigns values to all parameters that are reached, so that the type
arguments of each value are the values of the variables in its declared type. The equations hold
exactly when there is a typing: the values of the first ways form one, and in any typing every way
to a parameter has, along the accessors, a value equal to the one assigned.
-/
namespace TermAlgebra

/-- The type constructor at the head of a declared type. -/
def declaredHead? (context : Table Term) (name : String) : Option String :=
  match context.get? name with
  | some (.app head _) => some head
  | _ => none

namespace Value

/-- At every depth an expression has a type argument for each parameter of its type constructor, of
the sort that the type constructor declares. -/
inductive WellSorted (theory : Theory) : Value → Prop
  | datum {value} (h : value.isExpr = false) : WellSorted theory value
  | expr {head args typeArgs sort}
      (htypes : ∀ t ∈ theory.types, t.name = sort → ∀ (i : Nat) param, t.params[i]? = some param →
        ∃ typeArg, typeArgs[i]? = some typeArg ∧
          ∀ u, declaredHead? t.context param = some u → Constructor.fits u typeArg = true)
      (hparts : ∀ typeArg ∈ typeArgs, WellSorted theory typeArg) :
      WellSorted theory (.expr head args typeArgs sort)

theorem Regular.typeArgs {value : Value} (h : Regular value) :
    ∀ typeArg ∈ value.typeArgs, Regular typeArg := by
  cases h with
  | expr _ htypes => exact htypes
  | _ => simp [Value.typeArgs]

theorem WellSorted.parts {theory : Theory} {value : Value} (h : WellSorted theory value) :
    ∀ typeArg ∈ value.typeArgs, WellSorted theory typeArg := by
  cases h with
  | datum h => cases value <;> simp_all [isExpr, Value.typeArgs]
  | expr _ hparts => exact hparts

theorem WellSorted.exists_typeArg {theory : Theory} {value : Value} (h : WellSorted theory value)
    {t : TypeConstructor} (ht : t ∈ theory.types) (hsort : value.hasSort t.name = true) {i : Nat}
    {param : String} (hparam : t.params[i]? = some param) :
    ∃ typeArg, value.typeArgs[i]? = some typeArg ∧
      ∀ u, declaredHead? t.context param = some u → Constructor.fits u typeArg = true := by
  cases h with
  | datum h => cases value <;> simp_all [isExpr, hasSort]
  | expr htypes _ =>
    refine htypes t ht ?_ i param hparam
    simpa [hasSort, eq_comm] using hsort

theorem Same.typeArgs {a b : Value} (h : Same a b) : List.Forall₂ Same a.typeArgs b.typeArgs := by
  cases a with
  | expr head args typeArgs sort =>
    obtain ⟨_, _, _, rfl, -, htypes⟩ := same_expr_iff.mp h
    exact htypes
  | _ => cases b <;> simp_all [Same, same, number?, Value.typeArgs]

end Value

namespace TermConstructor

variable (theory : Theory) (constructor : TermConstructor)

/-- Every declared type applies its head to variables. -/
def Flat : Prop :=
  ∀ name type, constructor.context.get? name = some type →
    ∃ head, ∃ vars : List String, type = .app head (vars.map Term.var)

/-- A variable in a declared type is itself declared, if at all, with the head that the type
constructor declares for the parameter in the variable's place. -/
def Coherent : Prop :=
  ∀ name head args, constructor.context.get? name = some (.app head args) →
    ∀ t, theory.type? head = some t → ∀ (i : Nat) param target, t.params[i]? = some param →
      args[i]? = some (Term.var target) → ∀ u, declaredHead? constructor.context target = some u →
        declaredHead? t.context param = some u

/-- The explicit parameters, and the variables in the declared types of parameters reached. -/
inductive Reachable : String → Prop
  | explicit {param} (h : param ∈ constructor.params) : Reachable param
  | within {name head} {vars : List String} {var} (h : Reachable name)
      (htype : constructor.context.get? name = some (.app head (vars.map Term.var)))
      (hvar : var ∈ vars) : Reachable var

/-- The assignment gives the explicit parameters the arguments, and every parameter reached a value
whose type arguments are those of its declared type. -/
structure Typing (args : List Value) (assignment : String → Value) : Prop where
  params : constructor.params.map assignment = args
  types : ∀ {name head} {vars : List String}, constructor.Reachable name →
    constructor.context.get? name = some (.app head (vars.map Term.var)) →
    List.Forall₂ (fun typeArg var => Value.equal typeArg (assignment var) = true)
      ((assignment name).typeArgs.take vars.length) vars

variable {theory constructor}

theorem reachable_of_mem_ways (hflat : constructor.Flat) {path : Term} {name : String}
    (h : (path, name) ∈ Paths.ways (constructor.paths theory)) : constructor.Reachable name := by
  refine ways_induction (P := fun _ name => constructor.Reachable name)
    (fun _ hparam => .explicit hparam) ?_ h
  intro origin first accessor name _ horigin hstep
  obtain ⟨head, args, t, i, htype, -, -, -, harg⟩ := mem_steps.mp hstep
  obtain ⟨_, vars, heq⟩ := hflat _ _ htype
  cases heq
  have hvar : Term.var name ∈ vars.map Term.var := List.mem_of_getElem? harg
  obtain ⟨var, hmem, heq⟩ := List.mem_map.mp hvar
  cases heq
  exact .within horigin htype hmem

end TermConstructor

theorem Environment.ofArgs_of_nodup {params : List String} {args : List Value}
    (hnodup : params.Nodup) (hlength : args.length = params.length) {i : Nat} {param : String}
    {arg : Value} (hparam : params[i]? = some param) (harg : args[i]? = some arg) :
    Environment.ofArgs params args param = some arg := by
  have hkeys : ((params.zip args).map Prod.fst).Nodup := by
    rw [List.map_fst_zip (Nat.le_of_eq hlength.symm)]
    exact hnodup
  rw [Environment.ofArgs, lastEntry_eq_lookupEntry param hkeys]
  refine lookupEntry_eq_some_of_mem hkeys ?_
  exact List.mem_iff_getElem?.mpr ⟨i, List.getElem?_zip_eq_some.mpr ⟨hparam, harg⟩⟩

/-- A relation that holds place by place holds of the beginning of the first list. -/
theorem forall₂_take_of_getElem? {α β : Type} {R : α → β → Prop} {as : List α} {bs : List β}
    (h : ∀ (i : Nat) b, bs[i]? = some b → ∃ a, as[i]? = some a ∧ R a b) :
    List.Forall₂ R (as.take bs.length) bs := by
  induction bs generalizing as with
  | nil => simp
  | cons b bs ih =>
    obtain ⟨a, hget, hR⟩ := h 0 b rfl
    cases as with
    | nil => cases hget
    | cons first rest =>
      cases hget
      exact .cons hR (ih fun i b' hb' => h (i + 1) b' hb')

namespace Calculus

open Outcome TermConstructor

/-- The constructor is declared in the theory, and its domain consists of what its declared types
say. -/
structure TypedDomain (calculus : Calculus) (constructor : Constructor) : Prop where
  mem : constructor ∈ calculus.theory.constructors
  params_nodup : constructor.declaration.params.Nodup
  definition? : constructor.declaration.definition? = none
  equations : constructor.declaration.equations = []
  flat : constructor.declaration.Flat
  coherent : constructor.declaration.Coherent calculus.theory
  any_bare : ∀ name args,
    constructor.declaration.context.get? name = some (.app anySort args) → args = []

variable {calculus : Calculus} {constructor : Constructor} {args : List Value}

theorem call_accessor (hunshared : calculus.theory.AcceptedUnshared) {t : TypeConstructor}
    (ht : t ∈ calculus.theory.types) {i : Nat} {accessor : String}
    (hparam : t.params[i]? = some accessor) {value typeArg : Value}
    (hsort : value.hasSort t.name = true) (hget : value.typeArgs[i]? = some typeArg) (n : Nat) :
    (calculus.algebra (n + 1)).call accessor [value] = .ok typeArg := by
  have haccessor : calculus.theory.isAccessor accessor = true :=
    Theory.isAccessor_iff.mpr ⟨t, ht, List.mem_of_getElem? hparam⟩
  refine call_of_access haccessor (access_eq_ok_iff.mpr ⟨(t.name, i), hsort, ?_, hget⟩)
  rw [hunshared.accessorOwners_eq ht hparam, List.find?_cons, hsort]

theorem fits_of_accepts (haccepts : constructor.accepts args = true) {i : Nat} {param : String}
    {arg : Value} (hparam : constructor.declaration.params[i]? = some param)
    (harg : args[i]? = some arg) {u : String}
    (hhead : declaredHead? constructor.declaration.context param = some u) :
    Constructor.fits u arg = true := by
  have hsort : constructor.declaration.paramSort param = u := by
    rw [declaredHead?] at hhead
    rw [paramSort]
    generalize constructor.declaration.context.get? param = declared at hhead ⊢
    rcases declared with _ | _ | ⟨head, _⟩
    · cases hhead
    · cases hhead
    · cases hhead
      rfl
  have hmem : (u, arg) ∈ constructor.declaration.paramSorts.zip args := by
    refine List.mem_iff_getElem?.mpr ⟨i, List.getElem?_zip_eq_some.mpr ⟨?_, harg⟩⟩
    rw [paramSorts, List.getElem?_map, hparam, ← hsort]
    rfl
  exact ((Constructor.accepts_iff _ _).mp haccepts).2 _ hmem

/-- Arguments that the constructor takes, and on whose parts equality is an equivalence. -/
structure Suitable (calculus : Calculus) (constructor : Constructor) (args : List Value) :
    Prop where
  accepts : constructor.accepts args = true
  wellSorted : ∀ arg ∈ args, Value.WellSorted calculus.theory arg
  regular : ∀ arg ∈ args, Value.Regular arg

section Ways

variable (hunshared : calculus.theory.AcceptedUnshared)
  (hdomain : calculus.TypedDomain constructor) (hargs : calculus.Suitable constructor args)
  (n : Nat)

include hdomain in
theorem TypedDomain.interface : constructor.declaration ∈ calculus.theory.interface := by
  have hmem := hdomain.mem
  simp only [Theory.constructors, List.mem_append, List.mem_map] at hmem
  rcases hmem with ⟨c, hc, rfl⟩ | ⟨c, hc, rfl⟩
  · exact List.mem_append_left _ hc
  · exact List.mem_append_right _ hc

include hargs in
theorem Suitable.length : args.length = constructor.declaration.params.length :=
  ((Constructor.accepts_iff _ _).mp hargs.accepts).1

include hdomain hargs in
theorem evaluate_param {i : Nat} {param : String} {arg : Value}
    (hparam : constructor.declaration.params[i]? = some param) (harg : args[i]? = some arg) :
    (calculus.algebra (n + 1)).evaluate (.ofArgs constructor.declaration.params args)
      (.var param) = .ok arg :=
  Algebra.evaluate_var
    (Environment.ofArgs_of_nodup hdomain.params_nodup hargs.length hparam harg)

/-- A step from a parameter to a variable in its declared type. -/
structure Step (calculus : Calculus) (constructor : Constructor) (origin accessor name : String)
    (t : TypeConstructor) (vars : List String) (i : Nat) : Prop where
  type? : calculus.theory.type? t.name = some t
  ne_any : t.name ≠ anySort
  param : t.params[i]? = some accessor
  var : vars[i]? = some name
  type : constructor.declaration.context.get? origin = some (.app t.name (vars.map Term.var))

include hdomain in
theorem TypedDomain.exists_step {origin accessor name : String}
    (hstep : (accessor, name) ∈ constructor.declaration.steps calculus.theory origin) :
    ∃ t vars i, calculus.Step constructor origin accessor name t vars i := by
  obtain ⟨head, terms, t, i, htype, ht, -, hparam, hterm⟩ := mem_steps.mp hstep
  obtain ⟨-, rfl⟩ := Theory.type?_eq_some ht
  obtain ⟨_, vars, heq⟩ := hdomain.flat _ _ htype
  cases heq
  refine ⟨t, vars, i, ht, ?_, hparam, by simpa using hterm, htype⟩
  intro hany
  rw [hany] at htype
  have hnil := hdomain.any_bare _ _ htype
  rw [hnil] at hterm
  simp at hterm

/-- The value may stand for the parameter. -/
structure Fitting (calculus : Calculus) (constructor : Constructor) (name : String)
    (value : Value) : Prop where
  wellSorted : Value.WellSorted calculus.theory value
  regular : Value.Regular value
  fits : ∀ u, declaredHead? constructor.declaration.context name = some u →
    Constructor.fits u value = true

include hunshared hdomain in
/-- One step on, the way reads a type argument of the value so far. -/
theorem Step.evaluate {origin accessor name : String} {t : TypeConstructor} {vars : List String}
    {i : Nat} (hstep : calculus.Step constructor origin accessor name t vars i) {first : Term}
    {value : Value} (hvalue : (calculus.algebra (n + 1)).evaluate
      (.ofArgs constructor.declaration.params args) first = .ok value)
    (hfitting : calculus.Fitting constructor origin value) :
    ∃ typeArg, value.typeArgs[i]? = some typeArg ∧
      (calculus.algebra (n + 1)).evaluate (.ofArgs constructor.declaration.params args)
        (.app accessor [first]) = .ok typeArg ∧ calculus.Fitting constructor name typeArg := by
  have hsort : value.hasSort t.name = true := by
    have hfit := hfitting.fits t.name (by simp [declaredHead?, hstep.type])
    simpa [Constructor.fits, hstep.ne_any] using hfit
  have ht := (Theory.type?_eq_some hstep.type?).1
  have hvar : (vars.map Term.var)[i]? = some (Term.var name) := by
    rw [List.getElem?_map, hstep.var]
    rfl
  obtain ⟨typeArg, hget, hdeclared⟩ := hfitting.wellSorted.exists_typeArg ht hsort hstep.param
  have hmem := List.mem_of_getElem? hget
  refine ⟨typeArg, hget, ?_, hfitting.wellSorted.parts _ hmem,
    hfitting.regular.typeArgs _ hmem, fun u hu => hdeclared u
      (hdomain.coherent _ _ _ hstep.type t hstep.type? i _ _ hstep.param hvar u hu)⟩
  rw [Algebra.evaluate_app_one hvalue]
  exact call_accessor hunshared ht hstep.param hsort hget n

include hunshared hdomain hargs in
/-- Every way has a value, which may stand for the parameter that it reaches. -/
theorem evaluate_way {path : Term} {name : String}
    (h : (path, name) ∈ Paths.ways (constructor.declaration.paths calculus.theory)) :
    ∃ value, (calculus.algebra (n + 1)).evaluate (.ofArgs constructor.declaration.params args)
        path = .ok value ∧ calculus.Fitting constructor name value := by
  refine ways_induction (P := fun path name => ∃ value,
    (calculus.algebra (n + 1)).evaluate (.ofArgs constructor.declaration.params args) path =
      .ok value ∧ calculus.Fitting constructor name value) ?_ ?_ h
  · intro param hparam
    obtain ⟨i, hi, rfl⟩ := List.mem_iff_getElem.mp hparam
    have hi' : i < args.length := hargs.length ▸ hi
    have hget := List.getElem?_eq_getElem hi
    have hget' := List.getElem?_eq_getElem hi'
    exact ⟨args[i], evaluate_param hdomain hargs n hget hget',
      hargs.wellSorted _ (List.getElem_mem hi'), hargs.regular _ (List.getElem_mem hi'),
      fun u hu => fits_of_accepts hargs.accepts hget hget' hu⟩
  · rintro origin first accessor name - ⟨value, hvalue, hfitting⟩ hmem
    obtain ⟨t, vars, i, hstep⟩ := hdomain.exists_step hmem
    obtain ⟨typeArg, -, heval, hfits⟩ := hstep.evaluate hunshared hdomain n hvalue hfitting
    exact ⟨typeArg, heval, hfits⟩

include hunshared hdomain hargs in
/-- In a typing every way has a value equal to the one assigned to its parameter. -/
theorem same_of_typing {assignment : String → Value}
    (htyping : constructor.declaration.Typing args assignment) {path : Term} {name : String}
    (h : (path, name) ∈ Paths.ways (constructor.declaration.paths calculus.theory)) {value : Value}
    (hvalue : (calculus.algebra (n + 1)).evaluate (.ofArgs constructor.declaration.params args)
      path = .ok value) : Value.Same value (assignment name) := by
  refine ways_induction (P := fun path name => ∀ value, (calculus.algebra (n + 1)).evaluate
    (.ofArgs constructor.declaration.params args) path = .ok value →
      Value.Same value (assignment name)) ?_ ?_ h value hvalue
  · intro param hparam value hvalue
    obtain ⟨i, hi, rfl⟩ := List.mem_iff_getElem.mp hparam
    have hget := List.getElem?_eq_getElem hi
    have hget' : args[i]? = some (assignment constructor.declaration.params[i]) := by
      rw [← htyping.params, List.getElem?_map, hget]
      rfl
    rw [evaluate_param hdomain hargs n hget hget', ok_eq_ok_iff] at hvalue
    rw [hvalue]
    exact Value.same_refl _
  · intro origin first accessor name hfirst ih hmem value hvalue
    obtain ⟨t, vars, i, hstep⟩ := hdomain.exists_step hmem
    have hway := firstPath?_mem_ways hfirst
    obtain ⟨before, hbefore, hfitting⟩ := evaluate_way hunshared hdomain hargs n hway
    obtain ⟨typeArg, hget, heval, -⟩ := hstep.evaluate hunshared hdomain n hbefore hfitting
    rw [heval, ok_eq_ok_iff] at hvalue
    subst hvalue
    obtain ⟨assigned, hassigned, hsame⟩ := forall₂_getElem? (ih before hbefore).typeArgs hget
    have hreachable := reachable_of_mem_ways hdomain.flat hway
    obtain ⟨typeArg', hget', hequal⟩ :=
      forall₂_getElem? (htyping.types hreachable hstep.type).flip hstep.var
    rw [List.getElem?_take_of_lt (List.getElem?_eq_some_iff.mp hstep.var).1, hassigned] at hget'
    cases hget'
    exact hsame.trans (Value.same_of_equal hequal)

include hunshared hdomain hargs in
/-- Where there is a typing, the domain's equations hold. -/
theorem holds_of_typing {assignment : String → Value}
    (htyping : constructor.declaration.Typing args assignment) :
    ∀ equation ∈ constructor.declaration.domain calculus.theory,
      (calculus.algebra (n + 1)).Holds (.ofArgs constructor.declaration.params args) equation := by
  intro equation hequation
  rw [domain, hdomain.equations, List.map_nil, List.append_nil] at hequation
  obtain ⟨name, first, others, other, hget, hother, rfl⟩ := mem_derivedEquations.mp hequation
  have hfirst := Paths.mem_ways.mpr ⟨_, hget, List.mem_cons_self⟩
  have hway := Paths.mem_ways.mpr ⟨_, hget, List.mem_cons_of_mem _ hother⟩
  obtain ⟨lhs, hlhs, hfitting⟩ := evaluate_way hunshared hdomain hargs n hfirst
  obtain ⟨rhs, hrhs, hfitting'⟩ := evaluate_way hunshared hdomain hargs n hway
  have hsame := same_of_typing hunshared hdomain hargs n htyping hfirst hlhs
  have hsame' := same_of_typing hunshared hdomain hargs n htyping hway hrhs
  exact ⟨lhs, rhs, hlhs, hrhs, hfitting.regular.equal_iff.mpr
    (hsame.trans (hfitting'.regular.same_symm hsame'))⟩

include hdomain in
/-- A variable in a declared type is one step on. -/
theorem TypedDomain.step_of_type (haccepted : calculus.theory.Accepted) {origin head : String}
    {vars : List String} (htype : constructor.declaration.context.get? origin =
      some (.app head (vars.map Term.var))) {i : Nat} {name : String}
    (hvar : vars[i]? = some name) :
    ∃ t accessor, calculus.Step constructor origin accessor name t vars i ∧
      (accessor, name) ∈ constructor.declaration.steps calculus.theory origin := by
  have hterm : (vars.map Term.var)[i]? = some (Term.var name) := by
    rw [List.getElem?_map, hvar]
    rfl
  obtain ⟨_, _, heq, hdeclared⟩ :=
    haccepted.consistent.declared_type hdomain.interface htype
  cases heq
  have hany : head ≠ anySort := by
    rintro rfl
    rw [hdomain.any_bare _ _ htype] at hterm
    simp at hterm
  rcases hdeclared with ⟨heq, -⟩ | ⟨t, ht, harity⟩
  · exact absurd heq hany
  · obtain ⟨-, rfl⟩ := Theory.type?_eq_some ht
    have hi : i < t.params.length :=
      Nat.lt_of_lt_of_eq (List.getElem?_eq_some_iff.mp hterm).1 harity.symm
    have hparam := List.getElem?_eq_getElem hi
    exact ⟨t, t.params[i], ⟨ht, hany, hparam, hvar, htype⟩,
      mem_steps.mpr ⟨t.name, _, t, i, htype, ht, harity, hparam, hterm⟩⟩

include hdomain in
theorem TypedDomain.firstPath?_of_reachable (haccepted : calculus.theory.Accepted) {name : String}
    (h : constructor.declaration.Reachable name) :
    ∃ first, firstPath? (constructor.declaration.paths calculus.theory) name = some first := by
  induction h with
  | explicit hparam => exact ⟨_, firstPath?_of_mem_params hparam⟩
  | within _ htype hvar ih =>
    obtain ⟨first, hfirst⟩ := ih
    obtain ⟨i, hi⟩ := List.mem_iff_getElem?.mp hvar
    obtain ⟨t, accessor, -, hstep⟩ := hdomain.step_of_type haccepted htype hi
    obtain ⟨paths, hget, -⟩ := Paths.mem_ways.mp
      (mem_ways_paths.mpr (Or.inr ⟨_, first, accessor, hfirst, hstep, rfl⟩))
    obtain ⟨path, -, -, hpath⟩ := get?_paths_eq_some hget
    exact ⟨path, hpath⟩

/-- The values of the first ways. -/
def firstValue (calculus : Calculus) (constructor : Constructor) (args : List Value) (n : Nat)
    (name : String) : Value :=
  match firstPath? (constructor.declaration.paths calculus.theory) name with
  | some path =>
      match ((calculus.algebra (n + 1)).evaluate (.ofArgs constructor.declaration.params args)
        path).result with
      | .ok value => value
      | .error _ => .null
  | none => .null

theorem firstValue_eq {name : String} {path : Term} {value : Value}
    (hpath : firstPath? (constructor.declaration.paths calculus.theory) name = some path)
    (hvalue : (calculus.algebra (n + 1)).evaluate (.ofArgs constructor.declaration.params args)
      path = .ok value) : calculus.firstValue constructor args n name = value := by
  have hresult : (ok value).result = .ok value := rfl
  simp only [firstValue, hpath, hvalue, hresult]

include hunshared hdomain hargs in
/-- Where the equations hold, every way has a value equal to that of the first way. -/
theorem equal_firstValue (hholds : ∀ equation ∈ constructor.declaration.domain calculus.theory,
      (calculus.algebra (n + 1)).Holds (.ofArgs constructor.declaration.params args) equation)
    {path : Term} {name : String}
    (h : (path, name) ∈ Paths.ways (constructor.declaration.paths calculus.theory)) {value : Value}
    (hvalue : (calculus.algebra (n + 1)).evaluate (.ofArgs constructor.declaration.params args)
      path = .ok value) :
    Value.equal value (calculus.firstValue constructor args n name) = true := by
  obtain ⟨paths, hget, hpath⟩ := Paths.mem_ways.mp h
  obtain ⟨first, others, rfl, hfirst⟩ := get?_paths_eq_some hget
  obtain ⟨lhs, hlhs, hfitting⟩ :=
    evaluate_way hunshared hdomain hargs n (firstPath?_mem_ways hfirst)
  obtain ⟨_, hvalue', hfitting'⟩ := evaluate_way hunshared hdomain hargs n h
  rw [hvalue, ok_eq_ok_iff] at hvalue'
  subst hvalue'
  rw [firstValue_eq n hfirst hlhs, hfitting'.regular.equal_iff]
  rcases List.mem_cons.mp hpath with rfl | hother
  · rw [hlhs, ok_eq_ok_iff] at hvalue
    rw [hvalue]
    exact Value.same_refl _
  · have hequation : ⟨first, path⟩ ∈ constructor.declaration.domain calculus.theory :=
      List.mem_append_left _
        (mem_derivedEquations.mpr ⟨name, first, others, path, hget, hother, rfl⟩)
    obtain ⟨lhs', rhs', hlhs', hrhs', hequal⟩ := hholds _ hequation
    rw [hlhs, ok_eq_ok_iff] at hlhs'
    rw [hvalue, ok_eq_ok_iff] at hrhs'
    subst hlhs' hrhs'
    exact hfitting.regular.same_symm (Value.same_of_equal hequal)

include hunshared hdomain hargs in
/-- Where the equations hold, the values of the first ways form a typing. -/
theorem typing_of_holds (hholds : ∀ equation ∈ constructor.declaration.domain calculus.theory,
      (calculus.algebra (n + 1)).Holds (.ofArgs constructor.declaration.params args) equation) :
    constructor.declaration.Typing args (calculus.firstValue constructor args n) where
  params := by
    refine List.ext_getElem? fun i => ?_
    rw [List.getElem?_map]
    cases hget : constructor.declaration.params[i]? with
    | none =>
      rw [List.getElem?_eq_none_iff] at hget
      exact (List.getElem?_eq_none_iff.mpr (hargs.length ▸ hget)).symm
    | some param =>
      have hi : i < args.length := hargs.length ▸ (List.getElem?_eq_some_iff.mp hget).1
      have hget' := List.getElem?_eq_getElem hi
      rw [hget', Option.map_some, firstValue_eq n
        (firstPath?_of_mem_params (List.mem_of_getElem? hget))
        (evaluate_param hdomain hargs n hget hget')]
  types := by
    intro name head vars hreachable htype
    obtain ⟨first, hfirst⟩ := hdomain.firstPath?_of_reachable hunshared.accepted hreachable
    obtain ⟨value, hvalue, hfitting⟩ :=
      evaluate_way hunshared hdomain hargs n (firstPath?_mem_ways hfirst)
    rw [firstValue_eq n hfirst hvalue]
    have hplace : ∀ (i : Nat) var, vars[i]? = some var → ∃ typeArg,
        value.typeArgs[i]? = some typeArg ∧
          Value.equal typeArg (calculus.firstValue constructor args n var) = true := by
      intro i var hvar
      obtain ⟨t, accessor, hstep, hmem⟩ :=
        hdomain.step_of_type hunshared.accepted htype hvar
      obtain ⟨typeArg, hget, heval, -⟩ := hstep.evaluate hunshared hdomain n hvalue hfitting
      have hway := mem_ways_paths.mpr (Or.inr ⟨name, first, accessor, hfirst, hmem, rfl⟩)
      exact ⟨typeArg, hget, equal_firstValue hunshared hdomain hargs n hholds hway heval⟩
    exact forall₂_take_of_getElem? hplace

include hunshared hdomain hargs in
theorem domain_evaluates {equation : Equation}
    (h : equation ∈ constructor.declaration.domain calculus.theory) :
    ∃ lhs rhs, (calculus.algebra (n + 1)).evaluate (.ofArgs constructor.declaration.params args)
        equation.lhs = .ok lhs ∧
      (calculus.algebra (n + 1)).evaluate (.ofArgs constructor.declaration.params args)
        equation.rhs = .ok rhs := by
  rw [domain, hdomain.equations, List.map_nil, List.append_nil] at h
  obtain ⟨name, first, others, other, hget, hother, rfl⟩ := mem_derivedEquations.mp h
  obtain ⟨lhs, hlhs, -⟩ := evaluate_way hunshared hdomain hargs n
    (Paths.mem_ways.mpr ⟨_, hget, List.mem_cons_self⟩)
  obtain ⟨rhs, hrhs, -⟩ := evaluate_way hunshared hdomain hargs n
    (Paths.mem_ways.mpr ⟨_, hget, List.mem_cons_of_mem _ hother⟩)
  exact ⟨lhs, rhs, hlhs, hrhs⟩

end Ways

/-- A plain constructor whose domain is given by its declared types accepts, when it is strict,
exactly the arguments for which there is a typing. On those it does what it does when it is not
strict, and on all others it reports that they are outside its domain. -/
theorem strict_iff_typing (plain : calculus.Plain) (hunshared : calculus.theory.AcceptedUnshared)
    (hdomain : calculus.TypedDomain constructor) (hargs : calculus.Suitable constructor args)
    (n : Nat) :
    ((calculus.algebra (n + 1)).validate constructor.declaration
        (constructor.declaration.domain calculus.theory) args = .ok () ↔
      ∃ assignment, constructor.declaration.Typing args assignment) ∧
    ((∃ assignment, constructor.declaration.Typing args assignment) →
      calculus.apply (calculus.algebra (n + 1)) constructor args true =
        calculus.apply (calculus.algebra (n + 1)) constructor args false) ∧
    ((¬∃ assignment, constructor.declaration.Typing args assignment) →
      calculus.apply (calculus.algebra (n + 1)) constructor args true =
        .fail (.outsideDomain constructor.name args)) := by
  have hvalid : (∃ assignment, constructor.declaration.Typing args assignment) →
      (calculus.algebra (n + 1)).validate constructor.declaration
        (constructor.declaration.domain calculus.theory) args = .ok () := by
    rintro ⟨assignment, htyping⟩
    exact Algebra.validate_of_holds hargs.length
      (holds_of_typing hunshared hdomain hargs n htyping)
  have hinvalid : (¬∃ assignment, constructor.declaration.Typing args assignment) →
      (calculus.algebra (n + 1)).validate constructor.declaration
        (constructor.declaration.domain calculus.theory) args =
          .fail (.outsideDomain constructor.name args) := by
    intro hnone
    exact Algebra.validate_of_not_holds hargs.length
      (fun _ hequation => domain_evaluates hunshared hdomain hargs n hequation)
      fun hholds => hnone ⟨_, typing_of_holds hunshared hdomain hargs n hholds⟩
  have happly (strict : Bool) : calculus.apply (calculus.algebra (n + 1)) constructor args strict =
      calculus.build (calculus.algebra (n + 1)) constructor args strict := by
    rw [apply, plain.bare]
    simp only [hdomain.definition?]
  rw [happly, happly, build_strict hargs.accepts]
  refine ⟨⟨fun h => ?_, hvalid⟩, fun h => ?_, fun h => ?_⟩
  · by_contra hnone
    rw [hinvalid hnone] at h
    exact absurd h (fail_ne_ok _ _)
  · rw [hvalid h, ok_bind]
  · rw [hinvalid h, fail_bind]

section Examples

open Standard Value

theorem typedDomain_composition : (calculusOf category).TypedDomain ⟨composition, .compound⟩ := by
  have hentries : composition.context.entries =
      [("A", ob), ("B", ob), ("C", ob), ("f", hom a b), ("g", hom b c)] := rfl
  have hcases {name type} (h : composition.context.get? name = some type) :
      type = ob ∨ type = hom a b ∨ type = hom b c := by
    have hmem := Table.mem_of_get?_eq_some h
    rw [hentries] at hmem
    simp only [List.mem_cons, Prod.mk.injEq, List.not_mem_nil, or_false] at hmem
    rcases hmem with ⟨-, h⟩ | ⟨-, h⟩ | ⟨-, h⟩ | ⟨-, h⟩ | ⟨-, h⟩ <;> simp [h]
  refine ⟨.tail _ (.head _), by decide, rfl, rfl, ?_, ?_, ?_⟩
  · intro name type h
    rcases hcases h with rfl | rfl | rfl
    · exact ⟨"Ob", [], rfl⟩
    · exact ⟨"Hom", ["A", "B"], rfl⟩
    · exact ⟨"Hom", ["B", "C"], rfl⟩
  · intro name head args h t ht i param target hparam htarget u hu
    have hplaces {x y : Term} (hx : x = .var "A" ∨ x = .var "B") (hy : y = .var "B" ∨ y = .var "C")
        (heq : Term.app head args = .app "Hom" [x, y]) :
        declaredHead? t.context param = some u := by
      obtain ⟨rfl, rfl⟩ := Term.app.inj heq
      obtain rfl : morphismType = t := Option.some.inj ht
      rcases i with - | - | i
      · cases hparam
        cases htarget
        rcases hx with hx | hx <;> cases hx <;> exact hu
      · cases hparam
        cases htarget
        rcases hy with hy | hy <;> cases hy <;> exact hu
      · simp [morphismType] at hparam
    rcases hcases h with heq | heq | heq
    · obtain ⟨-, rfl⟩ := Term.app.inj heq
      simp at htarget
    · exact hplaces (Or.inl rfl) (Or.inl rfl) heq
    · exact hplaces (Or.inr rfl) (Or.inr rfl) heq
  · intro name args h
    rcases hcases h with heq | heq | heq <;>
      simp [ob, hom, anySort] at heq

theorem wellSorted_object (head : String) (args : List Value) :
    WellSorted category (.expr head args [] "Ob") := by
  refine .expr ?_ (by simp)
  intro t ht hname i param hparam
  simp only [category, List.mem_cons, List.not_mem_nil, or_false] at ht
  rcases ht with rfl | rfl
  · simp [objectType] at hparam
  · simp [morphismType] at hname

theorem wellSorted_morphism (head : String) (args : List Value) {source target : Value}
    (hsource : source.hasSort "Ob" = true) (htarget : target.hasSort "Ob" = true)
    (hparts : WellSorted category source ∧ WellSorted category target) :
    WellSorted category (.expr head args [source, target] "Hom") := by
  refine .expr ?_ (by simpa using hparts)
  intro t ht hname i param hparam
  simp only [category, List.mem_cons, List.not_mem_nil, or_false] at ht
  rcases ht with rfl | rfl
  · simp [objectType] at hname
  · have hfits {value : Value} (h : value.hasSort "Ob" = true) :
        ∀ u, some "Ob" = some u → Constructor.fits u value = true := by
      rintro _ ⟨⟩
      simp [Constructor.fits, h]
    rcases i with - | - | i
    · cases hparam
      exact ⟨source, rfl, hfits hsource⟩
    · cases hparam
      exact ⟨target, rfl, hfits htarget⟩
    · simp [morphismType] at hparam

/-- Composition takes a composable pair when it is strict, because there is a typing. -/
theorem strict_composition_of_loops :
    let a := objectOf (.str "A")
    let f := morphismOf (.str "f") a a
    (∃ assignment, composition.Typing [f, f] assignment) ∧
      (calculusOf category).apply ((calculusOf category).algebra 1) ⟨composition, .compound⟩ [f, f]
        true =
      (calculusOf category).apply ((calculusOf category).algebra 1) ⟨composition, .compound⟩ [f, f]
        false := by
  intro a f
  have hunshared : category.AcceptedUnshared :=
    ⟨[], show category.check = .ok [] by cbv, by simp⟩
  have ha : WellSorted category a := wellSorted_object _ _
  have ha' : Regular a := .expr (by simpa using .text "A" false) (by simp)
  have hf : WellSorted category f := wellSorted_morphism _ _ rfl rfl ⟨ha, ha⟩
  have hf' : Regular f := .expr (by simpa using ⟨.text "f" false, ha'⟩) (by simpa using ha')
  have hargs : (calculusOf category).Suitable ⟨composition, .compound⟩ [f, f] :=
    ⟨by rw [accepts_composition]; rfl, by simpa [calculusOf] using hf, by simpa using hf'⟩
  obtain ⟨hvalid, htyped, -⟩ := strict_iff_typing plain_category hunshared
    typedDomain_composition hargs 0
  have htyping := hvalid.mp ((plain_category.silent 1).validate _ _ _ |>.eq_ok
    (show (((calculusOf category).algebra 1).validate composition (composition.domain category)
      [f, f]).result = .ok () by cbv))
  exact ⟨htyping, htyped htyping⟩

/-- A type constructor may have the name of the type of all data. -/
def enclosure : TypeConstructor where
  name := "Any"
  params := ["x"]
  context := .ofList [("x", ob)]

def enclosing : TermConstructor where
  name := "c"
  params := ["p"]
  result := ob
  context := .ofList [("p", .app "Any" [.var "w"]), ("w", ob)]

def enclosures : Theory where
  name := "Enclosures"
  types := [objectType, enclosure]
  terms := [enclosing]

/-- A parameter of such a type takes any datum, though a datum has no type arguments. -/
theorem strict_accepts_without_typing :
    enclosures.AcceptedUnshared ∧ (calculusOf enclosures).Plain ∧
      (⟨enclosing, .compound⟩ : Constructor) ∈ enclosures.constructors ∧
      enclosing.params.Nodup ∧ enclosing.definition? = none ∧ enclosing.equations = [] ∧
      enclosing.Flat ∧ enclosing.Coherent enclosures ∧
      (calculusOf enclosures).Suitable ⟨enclosing, .compound⟩ [.int 5] ∧
      (¬∃ assignment, enclosing.Typing [.int 5] assignment) ∧
      (calculusOf enclosures).apply ((calculusOf enclosures).algebra 1) ⟨enclosing, .compound⟩
        [.int 5] true = .ok (.expr "c" [.int 5] [] "Ob") := by
  have hplain : (calculusOf enclosures).Plain := (plain_of_create
    (show Calculus.create enclosures none .empty = .ok (calculusOf enclosures) by cbv)).1
  have hentries : enclosing.context.entries = [("p", .app "Any" [.var "w"]), ("w", ob)] := rfl
  have hcases {name type} (h : enclosing.context.get? name = some type) :
      (name = "p" ∧ type = .app "Any" [.var "w"]) ∨ (name = "w" ∧ type = ob) := by
    have hmem := Table.mem_of_get?_eq_some h
    rw [hentries] at hmem
    simpa using hmem
  refine ⟨⟨[], show enclosures.check = .ok [] by cbv, by simp⟩, hplain, .head _, by decide, rfl,
    rfl, ?_, ?_, ⟨rfl, ?_, ?_⟩, ?_, ?_⟩
  · intro name type h
    rcases hcases h with ⟨-, rfl⟩ | ⟨-, rfl⟩
    · exact ⟨"Any", ["w"], rfl⟩
    · exact ⟨"Ob", [], rfl⟩
  · intro name head args h t ht i param target hparam htarget u hu
    rcases hcases h with ⟨-, heq⟩ | ⟨-, heq⟩
    · obtain ⟨rfl, rfl⟩ := Term.app.inj heq
      obtain rfl : enclosure = t := Option.some.inj ht
      rcases i with - | i
      · cases hparam
        cases htarget
        exact hu
      · simp [enclosure] at hparam
    · obtain ⟨-, rfl⟩ := Term.app.inj heq
      simp at htarget
  · simpa using WellSorted.datum rfl
  · simpa using Regular.int 5
  · rintro ⟨assignment, htyping⟩
    have hp : assignment "p" = .int 5 := by simpa [enclosing] using htyping.params
    have hdeclared : enclosing.context.get? "p" = some (.app "Any" (["w"].map Term.var)) := rfl
    have htypes := htyping.types (.explicit (.head _)) hdeclared
    rw [hp] at htypes
    cases htypes
  · exact (hplain.silent_apply (hplain.silent 1) _ _ _).eq_ok (by cbv)

end Examples

end Calculus
end TermAlgebra
