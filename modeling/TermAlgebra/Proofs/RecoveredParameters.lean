import TermAlgebra.Proofs.DeclaredSorts
import TermAlgebra.Proofs.ExtendedTheories

/-!
Generators and the parameters of their types. The type of a generator is computed from its own
arguments, whose values are looked up by the names of the parameters, and an accessor reads it at
the first place of its name. So a parameter gets the last value that was given under its name, and
so does its accessor; no other parameter of the type interferes, nor does the parameter of another
type that has the same name. The parameters come back as they were given just when those that share
a name were given one value.
-/
namespace TermAlgebra

section Environments

open Outcome

variable {env : Environment} {names : List String} {values : List Value}

/-- The values are those of the names, place by place. -/
abbrev Environment.Gives (env : Environment) (names : List String) (values : List Value) : Prop :=
  List.Forall₂ (fun name value => env name = some value) names values

theorem Algebra.evaluateAll_vars {algebra : Algebra} (h : env.Gives names values) :
    algebra.evaluateAll env (names.map .var) = .ok values := by
  induction h with
  | nil => rfl
  | cons hhead _ ih =>
    rw [List.map_cons, Algebra.evaluateAll, Algebra.evaluate_var hhead, Outcome.bind_eq,
      Outcome.ok_bind, ih, Outcome.bind_eq, Outcome.ok_bind]
    rfl

theorem Environment.exists_gives (h : ∀ name ∈ names, ∃ value, env name = some value) :
    ∃ values, env.Gives names values := by
  induction names with
  | nil => exact ⟨[], .nil⟩
  | cons name rest ih =>
    rw [List.forall_mem_cons] at h
    obtain ⟨⟨value, hvalue⟩, hrest⟩ := h
    obtain ⟨values, hvalues⟩ := ih hrest
    exact ⟨value :: values, .cons hvalue hvalues⟩

theorem Environment.Gives.getElem? (h : env.Gives names values) {i : Nat} {name : String}
    (hname : names[i]? = some name) : values[i]? = env name := by
  induction h generalizing i with
  | nil => cases hname
  | cons hvalue _ ih =>
    cases i with
    | zero =>
      cases hname
      exact hvalue.symm
    | succ i => exact ih hname

theorem Environment.Gives.unique {values' : List Value} (h : env.Gives names values)
    (h' : env.Gives names values') : values = values' :=
  List.right_unique_forall₂' (fun _ _ _ hvalue hvalue' =>
    Option.some.inj (hvalue.symm.trans hvalue')) h h'

/-- A later parameter keeps its value whatever the first one is. -/
theorem Environment.ofArgs_cons_of_some {params : List String} {args : List Value}
    {name : String} {value : Value} (h : Environment.ofArgs params args name = some value)
    (param : String) (arg : Value) :
    Environment.ofArgs (param :: params) (arg :: args) name = some value := by
  have hlast : lastEntry name (params.zip args) = some value := h
  rw [Environment.ofArgs, List.zip_cons_cons, lastEntry, hlast, Option.orElse_some]

/-- The parameters have the values given at their own places if those that share a name were given
one value. -/
theorem Environment.gives_args_iff {params : List String} {args : List Value}
    (hlength : args.length = params.length) :
    (Environment.ofArgs params args).Gives params args ↔ ∀ (i j : Nat) (name : String),
      params[i]? = some name → params[j]? = some name → args[i]? = args[j]? := by
  refine ⟨fun hgives i j name hi hj => ?_, fun hshared => ?_⟩
  · rw [hgives.getElem? hi, hgives.getElem? hj]
  · refine List.forall₂_iff_get.mpr ⟨hlength.symm, fun i hi hi' => ?_⟩
    have hname : params[i]? = some (params.get ⟨i, hi⟩) := List.getElem?_eq_getElem hi
    have harg : args[i]? = some (args.get ⟨i, hi'⟩) := List.getElem?_eq_getElem hi'
    obtain ⟨j, value, hplace, hlast, hvalue⟩ :=
      Environment.exists_place hlength (List.mem_of_getElem? hname)
    rw [hvalue, ← hlast, ← harg]
    exact hshared j i _ hplace hname

theorem Environment.gives_args_of_nodup {params : List String} {args : List Value}
    (hnodup : params.Nodup) (hlength : args.length = params.length) :
    (Environment.ofArgs params args).Gives params args :=
  List.forall₂_iff_get.mpr ⟨hlength.symm, fun _ hi hi' => Environment.ofArgs_of_nodup hnodup hlength
    (List.getElem?_eq_getElem hi) (List.getElem?_eq_getElem hi')⟩

end Environments

/-- A generator takes a datum before the parameters of its type. -/
theorem TypeConstructor.paramSorts_generator (t : TypeConstructor) :
    t.generator.paramSorts = declaredSort t.context valueParam :: t.paramSorts := by
  rw [TermConstructor.paramSorts, TypeConstructor.paramSorts]
  exact List.map_congr_left fun param _ => t.paramSort_generator param

namespace Calculus

open Outcome

variable {calculus : Calculus} {t : TypeConstructor} {datum : Value} {params typeArgs : List Value}

/-- The constructor of a type's generators is found under the name of the type. -/
theorem resolve_generator (hconsistent : calculus.theory.Consistent)
    (ht : t ∈ calculus.theory.types) {args : List Value}
    (haccepts : Constructor.accepts ⟨t.generator, .generator⟩ args = true) :
    calculus.resolve t.name args = .ok ⟨t.generator, .generator⟩ := by
  have hmem : ⟨t.generator, .generator⟩ ∈ calculus.overloads t.name :=
    mem_overloads.mpr (Or.inr ⟨t, ht, rfl, rfl⟩)
  apply resolve_eq_ok_iff.mpr
  cases hfind : (calculus.overloads t.name).find? fun c => c.accepts args with
  | none => exact absurd haccepts (List.find?_eq_none.mp hfind _ hmem)
  | some found =>
    rcases mem_overloads.mp (List.mem_of_find?_eq_some hfind) with
      ⟨c, hc, hname, -⟩ | ⟨t', ht', hname, rfl⟩
    · have htype : c.name ∈ calculus.theory.typeNames := List.mem_map.mpr ⟨t, ht, hname.symm⟩
      exact absurd htype (hconsistent.term_not_type c hc)
    · rw [hconsistent.type_eq ht' ht hname]

/-- From parameters of the declared sorts a generator is made, and its type has the values that were
given under the names of the parameters. -/
theorem Plain.call_of_gives (plain : calculus.Plain) (ht : t ∈ calculus.theory.types)
    (hdatum : Constructor.fits (declaredSort t.context valueParam) datum = true)
    (hparams : FitAll t.paramSorts params)
    (hgives : (Environment.ofArgs t.params params).Gives t.params typeArgs) (n : Nat) :
    (calculus.algebra (n + 1)).call t.name (datum :: params) =
      .ok (.expr generatorHead (datum :: params) typeArgs t.name) := by
  have hconsistent := plain.accepted.consistent
  have haccepts : Constructor.accepts ⟨t.generator, .generator⟩ (datum :: params) = true := by
    rw [Constructor.accepts_iff_fitAll, t.paramSorts_generator]
    exact .cons hdatum hparams
  have htypes : (calculus.algebra n).evaluateAll
      (.ofArgs t.generator.params (datum :: params)) (t.params.map .var) = .ok typeArgs :=
    Algebra.evaluateAll_vars (hgives.imp fun _ _ hvalue =>
      Environment.ofArgs_cons_of_some hvalue valueParam datum)
  have hbuilds : calculus.Builds (calculus.algebra n) ⟨t.generator, .generator⟩
      (datum :: params) typeArgs :=
    ⟨hconsistent.type_not_accessor t ht, resolve_generator hconsistent ht haccepts, rfl, t.name, _,
      t.expandedResult_generator calculus.theory, htypes⟩
  exact plain.call_of_yields (.build hbuilds)

/-- A generator is made by a call of the type constructor's name. -/
theorem generator_eq_call (hconsistent : calculus.theory.Consistent)
    (ht : t ∈ calculus.theory.types) (datum : Value) (params : List Value) :
    calculus.generator t.name (datum :: params) =
      (calculus.algebra (depthBound + 1)).call t.name (datum :: params) := by
  rw [call_of_not_accessor (hconsistent.type_not_accessor t ht), generator,
    hconsistent.type?_of_mem ht]
  rfl

/-- An accessor reads its type at any place of its name, if all of them hold the same. -/
theorem access_of_places (hconsistent : calculus.theory.Consistent)
    (ht : t ∈ calculus.theory.types) {param : String} (hparam : param ∈ t.params)
    {value result : Value} (hsort : value.hasSort t.name = true)
    (hplaces : ∀ i : Nat, t.params[i]? = some param → value.typeArgs[i]? = some result) :
    calculus.access param value = .ok result := by
  obtain ⟨i, hi⟩ := List.mem_iff_getElem?.mp hparam
  have hmem : (t.name, i) ∈ calculus.theory.accessorOwners param :=
    Theory.mem_accessorOwners.mpr ⟨t, ht, rfl, hi⟩
  cases hfind : (calculus.theory.accessorOwners param).find? fun o => value.hasSort o.1 with
  | none => exact absurd hsort (List.find?_eq_none.mp hfind _ hmem)
  | some owner =>
    obtain ⟨name, j⟩ := owner
    have howner : value.hasSort name = true := by
      simpa only using List.find?_some hfind
    obtain ⟨t', ht', hname, hj⟩ :=
      Theory.mem_accessorOwners.mp (List.mem_of_find?_eq_some hfind)
    -- No other type constructor has the sort of the value for its name.
    have htype : t' = t :=
      hconsistent.type_eq ht' ht (hname.trans (Value.hasSort_unique howner hsort))
    subst htype
    exact access_eq_ok_iff.mpr ⟨_, howner, hfind, hplaces j hj⟩

/-- A generator can be made from parameters of the declared sorts, and each accessor of its type
reads the last value that was given under its name. The parameters come back as they were given if
and only if those that share a name were given one value, and so they do if all have distinct names.
The datum may be anything, unless the type constructor declares a type for the name `__value__` of
the datum's own parameter; then it must have the sort of that type. -/
theorem Plain.parameters_recovered (plain : calculus.Plain) (ht : t ∈ calculus.theory.types)
    (hdatum : Constructor.fits (declaredSort t.context valueParam) datum = true)
    (hparams : FitAll t.paramSorts params) : ∃ typeArgs,
    let made := Value.expr generatorHead (datum :: params) typeArgs t.name
    calculus.generator t.name (datum :: params) = .ok made ∧
      List.Forall₂ (fun param value => Environment.ofArgs t.params params param = some value ∧
        calculus.access param made = .ok value) t.params typeArgs ∧
      (typeArgs = params ↔ ∀ (i j : Nat) (param : String),
        t.params[i]? = some param → t.params[j]? = some param → params[i]? = params[j]?) ∧
      (t.params.Nodup → typeArgs = params) := by
  have hconsistent := plain.accepted.consistent
  have hlength : params.length = t.params.length := by
    rw [← hparams.length_eq, TypeConstructor.paramSorts, List.length_map]
  obtain ⟨typeArgs, hgives⟩ : ∃ typeArgs,
      (Environment.ofArgs t.params params).Gives t.params typeArgs := by
    refine Environment.exists_gives fun param hparam => ?_
    obtain ⟨_, value, -, -, hvalue⟩ := Environment.exists_place hlength hparam
    exact ⟨value, hvalue⟩
  have hexact : typeArgs = params ↔ ∀ (i j : Nat) (param : String),
      t.params[i]? = some param → t.params[j]? = some param → params[i]? = params[j]? := by
    rw [← Environment.gives_args_iff hlength]
    exact ⟨fun hsame => hsame ▸ hgives, fun hown => hgives.unique hown⟩
  refine ⟨typeArgs, ?_, ?_, hexact, fun hnodup => ?_⟩
  · rw [generator_eq_call hconsistent ht, plain.call_of_gives ht hdatum hparams hgives]
  · refine List.forall₂_iff_get.mpr ⟨hgives.length_eq, fun i hi hi' => ?_⟩
    have hvalue := hgives.get hi hi'
    refine ⟨hvalue, access_of_places hconsistent ht (List.getElem_mem hi) (decide_eq_true rfl) ?_⟩
    intro j hj
    exact (hgives.getElem? hj).trans hvalue
  · exact hgives.unique (Environment.gives_args_of_nodup hnodup hlength)

section Example

open Standard

/-- The domain and the codomain of a morphism come back, although the domain shares its name with
the parameter of another type. -/
theorem parameters_recovered_contested :
    let calculus := calculusOf contested
    let a := objectOf (.str "A")
    let b := objectOf (.str "B")
    let f := morphismOf (.str "f") a b
    calculus.Plain ∧ morphismType ∈ calculus.theory.types ∧
      Constructor.fits (declaredSort morphismType.context valueParam) (.str "f") = true ∧
      FitAll morphismType.paramSorts [a, b] ∧
      calculus.theory.accessorOwners "dom" = [("Hom", 0), ("Any", 0)] ∧
      calculus.generator "Hom" [.str "f", a, b] = .ok f ∧
      calculus.access "dom" f = .ok a ∧ calculus.access "codom" f = .ok b := by
  intro calculus a b f
  have hplain : calculus.Plain := (plain_of_create
    (show Calculus.create contested none .empty = .ok (calculusOf contested) by cbv)).1
  have hmem : morphismType ∈ calculus.theory.types := List.mem_cons_of_mem _ List.mem_cons_self
  have hdatum : Constructor.fits (declaredSort morphismType.context valueParam) (.str "f") = true :=
    rfl
  have hfit : FitAll morphismType.paramSorts [a, b] := .cons rfl (.cons rfl .nil)
  refine ⟨hplain, hmem, hdatum, hfit, rfl, ?_⟩
  obtain ⟨typeArgs, hmade, hread, -, hown⟩ := hplain.parameters_recovered hmem hdatum hfit
  have hsame : typeArgs = [a, b] := hown (by decide)
  subst hsame
  cases hread with
  | cons hdom hrest =>
    cases hrest with
    | cons hcodom _ => exact ⟨hmade, hdom.2, hcodom.2⟩

def twinType : TypeConstructor where
  name := "Twin"
  params := ["t", "t"]
  context := .ofList (objects ["t", "t"])

/-- A type with two parameters of one name. -/
def twins : Theory where
  name := "Twins"
  types := [objectType, twinType]
  terms := []

/-- The check passes the type with the warning that the argument's type tells its parameters apart.
But the first parameter of a generator is lost, and the accessor gives the second. -/
theorem first_twin_lost :
    let calculus := calculusOf twins
    let a := objectOf (.str "A")
    let b := objectOf (.str "B")
    let made := Value.expr generatorHead [.str "v", a, b] [b, b] "Twin"
    twins.check = .ok [⟨none, .sharedAccessor "t" ["Twin", "Twin"]⟩] ∧ calculus.Plain ∧
      twinType ∈ calculus.theory.types ∧ FitAll twinType.paramSorts [a, b] ∧
      Value.equal a b = false ∧ (calculus.generator "Twin" [.str "v", a, b]).result = .ok made ∧
      calculus.access "t" made = .ok b := by
  intro calculus a b made
  have hplain : calculus.Plain := (plain_of_create
    (show Calculus.create twins none .empty = .ok (calculusOf twins) by cbv)).1
  have hmem : twinType ∈ calculus.theory.types := List.mem_cons_of_mem _ List.mem_cons_self
  have hcall (n : Nat) : ((calculus.algebra (n + 1)).call "Twin" [.str "v", a, b]).result =
      .ok made := by cbv
  refine ⟨by cbv, hplain, hmem, .cons rfl (.cons rfl .nil), by cbv, ?_, by cbv⟩
  rw [show "Twin" = twinType.name from rfl, generator_eq_call hplain.accepted.consistent hmem]
  exact hcall depthBound

end Example

end Calculus
end TermAlgebra
