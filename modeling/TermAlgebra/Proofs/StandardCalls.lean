import TermAlgebra.Proofs.DefinedInterpretations
import TermAlgebra.Proofs.RebuiltExpressions

/-!
Calls in calculi of the standard theories without overrides. On data, objects and morphisms between
objects every call gives such a value again or rejects its arguments, and it needs no more than
three levels of nesting. A product of morphisms calls a product of objects for its type, under the
same name, so it is the overload that is found and not the name that tells how deep a call goes.
Pairing, which is defined by default, adds one level to the calls in its definition.
-/
namespace TermAlgebra.Standard

open Outcome Calculus Free

/-- A morphism is one between objects. Nothing is asked of other values. -/
def Sound (value : Value) : Prop := value.hasSort "Hom" = true → BetweenObjects value

/-- The failure is one for which a document is rejected. -/
def Rejection (failure : Failure) : Prop := failure.isRejection = true

theorem sound_object {value : Value} (h : value.hasSort "Ob" = true) : Sound value := by
  intro hsort
  cases value with
  | expr head args typeArgs sort =>
    simp only [Value.hasSort, decide_eq_true_eq] at h hsort
    exact absurd (h.symm.trans hsort) (by decide)
  | _ => cases h

theorem sound_datum {value : Value} (h : value.isExpr = false) : Sound value := by
  intro hsort
  rw [Value.hasSort_of_not_expr h] at hsort
  cases hsort

theorem BetweenObjects.sound {value : Value} (h : BetweenObjects value) : Sound value := fun _ => h

/-- A calculus whose constructors are familiar, or are defined by default over parameters and
members that are not defined so themselves. -/
structure Orderly (calculus : Calculus) : Prop extends calculus.Plain where
  categorical : Categorical calculus.theory
  familiar : ∀ c ∈ calculus.theory.terms, c.definition? = none → Familiar calculus c
  defined : ∀ c ∈ calculus.theory.terms, ∀ definition, c.definition? = some definition →
    (∀ name ∈ definition.body.freeVars, name ∈ c.params) ∧
    ∀ head ∈ definition.body.heads, calculus.member head = .ok () ∧
      ∀ d ∈ calculus.theory.terms, d.name = head → d.definition? = none

variable {calculus : Calculus} {k : Nat} {args : List Value}

section Accessors

theorem access_of_not_morphism (h : Categorical calculus.theory) {name : String}
    (hname : name = "dom" ∨ name = "codom") {value : Value} (hsort : value.hasSort "Hom" = false) :
    calculus.access name value = .error (calculus.noMethod name [value]) := by
  have howners : ∃ index, calculus.theory.accessorOwners name = [("Hom", index)] := by
    rw [Theory.accessorOwners, Theory.accessorPlaces, h.types]
    rcases hname with rfl | rfl
    · exact ⟨0, rfl⟩
    · exact ⟨1, rfl⟩
  obtain ⟨index, howners⟩ := howners
  unfold Calculus.access
  cases value with
  | expr head args typeArgs sort =>
    simp only [Value.hasSort, decide_eq_false_iff_not] at hsort
    simp [howners, Ne.symm hsort]
  | _ => simp [howners]

theorem ends_callAccessor (h : Categorical calculus.theory) {name : String}
    (haccessor : calculus.theory.isAccessor name = true) (hargs : ∀ arg ∈ args, Sound arg) :
    (ofExcept (calculus.callAccessor name args none)).Ends Rejection Sound := by
  have hname := (h.isAccessor_iff name).mp haccessor
  match args with
  | [] | _ :: _ :: _ => exact ends_fail rfl
  | [value] =>
    change (ofExcept (calculus.access name value)).Ends Rejection Sound
    cases hsort : value.hasSort "Hom" with
    | false =>
      rw [access_of_not_morphism h hname hsort]
      exact ends_fail rfl
    | true =>
      obtain ⟨source, target, hmorphism, hsource, htarget⟩ := hargs value List.mem_cons_self hsort
      obtain ⟨hdom, hcodom⟩ := access_of_isMorphism h hmorphism
      rcases hname with rfl | rfl
      · rw [hdom]
        exact ends_ok (sound_object hsource)
      · rw [hcodom]
        exact ends_ok (sound_object htarget)

end Accessors

section Constructors

variable (hcategorical : Categorical calculus.theory)

include hcategorical

/-- A familiar constructor that accepts its arguments makes a value of them. -/
theorem exists_build_of_familiar (hobjects : MakesObjects calculus) {c : TermConstructor}
    (hc : Familiar calculus c) (hresolve : calculus.resolve c.name args = .ok ⟨c, .compound⟩)
    (hargs : ∀ arg ∈ args, Sound arg) :
    ∃ result, calculus.build (calculus.algebra (k + 1)) ⟨c, .compound⟩ args false = .ok result ∧
      Sound result := by
  have hreads : Reads (calculus.algebra (k + 1)) := reads_algebra hcategorical k
  have haccepts := (resolve_eq_ok hresolve).2
  rcases hc with rfl | ⟨hmonoidal, rfl | rfl | rfl⟩ | hover
  · obtain ⟨f, g, rfl⟩ := List.length_eq_two.mp ((Constructor.accepts_iff _ _).mp haccepts).1
    rw [accepts_composition, Bool.and_eq_true] at haccepts
    obtain ⟨source, middle, hf, hsource, -⟩ := hargs f (by simp) haccepts.1
    obtain ⟨middle', target, hg, -, htarget⟩ := hargs g (by simp) haccepts.2
    exact ⟨_, build_composition hcategorical hreads hf hg,
      BetweenObjects.sound ⟨_, _, isMorphism_expr _ _ _ _, hsource, htarget⟩⟩
  · obtain ⟨left, right, rfl⟩ :=
      List.length_eq_two.mp ((Constructor.accepts_iff _ _).mp haccepts).1
    rw [accepts_objectTensor, Bool.and_eq_true] at haccepts
    exact ⟨_, build_objectTensor hcategorical haccepts.1 haccepts.2, sound_object rfl⟩
  · obtain ⟨f, g, rfl⟩ := List.length_eq_two.mp ((Constructor.accepts_iff _ _).mp haccepts).1
    rw [accepts_morphismTensor, Bool.and_eq_true] at haccepts
    obtain ⟨a, b, hf, ha, hb⟩ := hargs f (by simp) haccepts.1
    obtain ⟨c, d, hg, hc, hd⟩ := hargs g (by simp) haccepts.2
    obtain ⟨source, hsource, hsorts⟩ := hobjects.tensor hmonoidal ha hc
    obtain ⟨target, htarget, hsortt⟩ := hobjects.tensor hmonoidal hb hd
    exact ⟨_, build_morphismTensor hcategorical hreads hf hg hsource htarget,
      BetweenObjects.sound ⟨_, _, isMorphism_expr _ _ _ _, hsorts, hsortt⟩⟩
  · obtain rfl := List.length_eq_zero_iff.mp ((Constructor.accepts_iff _ _).mp haccepts).1
    exact ⟨_, build_monoidalUnit hcategorical, sound_object rfl⟩
  · obtain ⟨hlength, hsorts⟩ := (hover.accepts_iff .compound args).mp haccepts
    obtain ⟨result, ⟨-, constructor, hfound, -, hbuild⟩, hresult⟩ :=
      hover.exists_makes hobjects hlength hsorts k
    obtain rfl := Except.ok.inj (hresolve.symm.trans hfound)
    exact ⟨result, hbuild, BetweenObjects.sound hresult⟩

theorem exists_build_of_generator {t : TypeConstructor} (ht : t ∈ calculus.theory.types)
    (hresolve : calculus.resolve t.name args = .ok ⟨t.generator, .generator⟩) :
    ∃ result, calculus.build (calculus.algebra k) ⟨t.generator, .generator⟩ args false =
      .ok result ∧ Sound result := by
  have haccepts := (resolve_eq_ok hresolve).2
  rcases hcategorical.mem_types_iff.mp ht with rfl | rfl
  · obtain ⟨datum, rfl⟩ := List.length_eq_one_iff.mp ((Constructor.accepts_iff _ _).mp haccepts).1
    exact ⟨_, build_object hcategorical datum, sound_object rfl⟩
  · obtain ⟨datum, source, target, rfl⟩ :=
      List.length_eq_three.mp ((Constructor.accepts_iff _ _).mp haccepts).1
    rw [accepts_morphism, Bool.and_eq_true] at haccepts
    exact ⟨_, build_morphism hcategorical datum haccepts.1 haccepts.2,
      BetweenObjects.sound ⟨_, _, isMorphism_expr _ _ _ _, haccepts.1, haccepts.2⟩⟩

/-- So every constructor that is not defined by default, if all of these are familiar. -/
theorem exists_build (hobjects : MakesObjects calculus)
    (hfamiliar : ∀ c ∈ calculus.theory.terms, c.definition? = none → Familiar calculus c)
    {name : String} {constructor : Constructor}
    (hresolve : calculus.resolve name args = .ok constructor)
    (hdefinition : constructor.declaration.definition? = none) (hargs : ∀ arg ∈ args, Sound arg) :
    ∃ result, calculus.build (calculus.algebra (k + 1)) constructor args false = .ok result ∧
      Sound result := by
  rcases mem_overloads.mp (resolve_eq_ok hresolve).1 with ⟨c, hc, rfl, rfl⟩ | ⟨t, ht, rfl, rfl⟩
  · exact exists_build_of_familiar hcategorical hobjects (hfamiliar c hc hdefinition) hresolve hargs
  · exact exists_build_of_generator hcategorical ht hresolve

end Constructors

section Calls

/-- An outcome that the overload settles settles the call. -/
theorem ends_call_of_resolve {n : Nat} {name : String} (h : Categorical calculus.theory)
    (hargs : ∀ arg ∈ args, Sound arg) (hfound : ∀ constructor,
      calculus.resolve name args = .ok constructor →
        ((calculus.algebra (n + 1)).call name args).Ends Rejection Sound) :
    ((calculus.algebra (n + 1)).call name args).Ends Rejection Sound := by
  cases haccessor : calculus.theory.isAccessor name with
  | true =>
    rw [call_of_accessor haccessor]
    exact ends_callAccessor h haccessor hargs
  | false =>
    cases hresolve : calculus.resolve name args with
    | ok constructor => exact hfound constructor hresolve
    | error failure =>
      rw [call_of_not_accessor haccessor, hresolve, ofExcept_error_bind]
      exact ends_fail (isRejection_of_resolve hresolve)

variable (orderly : Orderly calculus)

include orderly

/-- An overload that is not defined by default needs no more than two levels of nesting. -/
theorem Orderly.ends_call_of_overload {name : String} {constructor : Constructor}
    (hresolve : calculus.resolve name args = .ok constructor)
    (hdefinition : constructor.declaration.definition? = none) (hargs : ∀ arg ∈ args, Sound arg) :
    ((calculus.algebra (k + 2)).call name args).Ends Rejection Sound := by
  obtain ⟨result, hbuild, hsound⟩ := exists_build orderly.categorical
    (makesObjects_of_plain orderly.toPlain) orderly.familiar hresolve hdefinition hargs
  rw [orderly.call_eq_build hresolve hdefinition, hbuild]
  exact ends_ok hsound

theorem Orderly.ends_call_of_undefined {name : String}
    (hname : ∀ c ∈ calculus.theory.terms, c.name = name → c.definition? = none)
    (hargs : ∀ arg ∈ args, Sound arg) :
    ((calculus.algebra (k + 2)).call name args).Ends Rejection Sound := by
  refine ends_call_of_resolve orderly.categorical hargs fun constructor hresolve => ?_
  have hdefinition : constructor.declaration.definition? = none := by
    rcases mem_overloads.mp (resolve_eq_ok hresolve).1 with ⟨c, hc, hsame, rfl⟩ | ⟨t, -, -, rfl⟩
    · exact hname c hc hsame
    · rfl
  exact orderly.ends_call_of_overload hresolve hdefinition hargs

theorem Orderly.ends_definition {c : TermConstructor} (hc : c ∈ calculus.theory.terms)
    {definition : Definition} (hdefinition : c.definition? = some definition)
    (hlength : args.length = c.params.length) (hargs : ∀ arg ∈ args, Sound arg) :
    ((calculus.algebra (k + 2)).applyDefinition definition c.params args).Ends Rejection Sound := by
  obtain ⟨hvars, hheads⟩ := orderly.defined c hc definition hdefinition
  have hmembers : ∀ head ∈ definition.body.heads,
      (calculus.algebra (k + 2)).member head = .ok () := fun head hhead => (hheads head hhead).1
  rw [Algebra.applyDefinition_eq, Algebra.evaluateVia_of_members _ hmembers]
  refine Algebra.ends_evaluate _ (fun name hname => ?_) fun head hhead values hvalues => ?_
  · exact Algebra.ends_variableValue (Environment.exists_ofArgs hlength hargs (hvars name hname))
  · exact orderly.ends_call_of_undefined (hheads head hhead).2 hvalues

/-- Calls on sound values give sound values or reject their arguments. -/
theorem Orderly.ends_call (name : String) (hargs : ∀ arg ∈ args, Sound arg) :
    ((calculus.algebra (k + 3)).call name args).Ends Rejection Sound := by
  refine ends_call_of_resolve orderly.categorical hargs fun constructor hresolve => ?_
  cases hdefinition : constructor.declaration.definition? with
  | none => exact orderly.ends_call_of_overload hresolve hdefinition hargs
  | some definition =>
    rw [call_of_not_accessor (not_accessor_of_resolve orderly.accepted.consistent hresolve),
      hresolve, ofExcept_ok_bind, Calculus.apply, orderly.bare]
    simp only [hdefinition, Bool.false_eq_true, if_false]
    rcases mem_overloads.mp (resolve_eq_ok hresolve).1 with ⟨c, hc, -, rfl⟩ | ⟨t, -, -, rfl⟩
    · have hlength := ((Constructor.accepts_iff _ _).mp (resolve_eq_ok hresolve).2).1
      exact orderly.ends_definition hc hdefinition hlength hargs
    · cases hdefinition

/-- Morphisms that the calculus has built are morphisms between objects. -/
theorem Orderly.sound_of_built {n : Nat} {value : Value}
    (hbuilt : (calculus.algebra n).Built value) : Sound value := by
  induction hbuilt with
  | datum hdatum => exact sound_datum hdatum
  | @call name args strict? result _ _ hinvoke ih =>
    have hok := (orderly.silent n _ _ _).eq_ok hinvoke
    cases n with
    | zero => exact absurd hok invoke_zero_ne_ok
    | succ n =>
      have hcall : (calculus.algebra (n + 1 + 3)).call name args = .ok result :=
        orderly.call_mono (Nat.le_add_right _ 3)
          (orderly.call_of_yields (orderly.yields_of_invoke hok))
      rcases orderly.ends_call name ih with ⟨value, hvalue, hsound⟩ | ⟨failure, hfailure, -⟩
      · cases (ok_eq_ok_iff _ _).mp (hvalue.symm.trans hcall)
        exact hsound
      · exact absurd (hfailure.symm.trans hcall) (fail_ne_ok _ _)

end Calls

section Instances

theorem orderly_of_undefined (plain : calculus.Plain) (categorical : Categorical calculus.theory)
    (hundefined : ∀ c ∈ calculus.theory.terms, c.definition? = none)
    (hfamiliar : ∀ c ∈ calculus.theory.terms, Familiar calculus c) : Orderly calculus where
  toPlain := plain
  categorical := categorical
  familiar c hc _ := hfamiliar c hc
  defined c hc definition hdefinition := by cases (hundefined c hc).symm.trans hdefinition

theorem defined_cartesian {c : TermConstructor} (hc : c ∈ cartesian.terms) {definition : Definition}
    (h : c.definition? = some definition) : c = pair ∧ definition = pairing := by
  have hundefined : ∀ c ∈ cartesian.terms.take 8, c.definition? = none := by decide
  have hundefined' : ∀ c ∈ cartesian.terms.drop 9, c.definition? = none := by decide
  have hc' : c ∈ cartesian.terms.take 8 ++ pair :: cartesian.terms.drop 9 := hc
  rcases List.mem_append.mp hc' with hbefore | hrest
  · cases (hundefined c hbefore).symm.trans h
  · rcases List.mem_cons.mp hrest with rfl | hafter
    · exact ⟨rfl, (Option.some.inj h).symm⟩
    · cases (hundefined' c hafter).symm.trans h

/-- A calculus of a standard theory without overrides is orderly. -/
theorem orderly_of_mem (plain : calculus.Plain)
    (h : calculus.theory ∈ Standard.all.map Prod.snd) : Orderly calculus := by
  obtain ⟨name, theory, overrides⟩ := calculus
  have h' : theory ∈ [category, monoidal, symmetricMonoidal, cartesian] := h
  simp only [List.mem_cons, List.not_mem_nil, or_false] at h'
  rcases h' with rfl | rfl | rfl | rfl
  · have hundefined : ∀ c ∈ category.terms, c.definition? = none := by decide
    exact orderly_of_undefined plain categorical_category hundefined fun c hc =>
      familiar_categorical categorical_category (plain.bare _) hc
  · have hundefined : ∀ c ∈ monoidal.terms, c.definition? = none := by decide
    exact orderly_of_undefined plain monoidal_monoidal.toCategorical hundefined fun c hc =>
      familiar_monoidal monoidal_monoidal (plain.bare _) hc
  · have hundefined : ∀ c ∈ symmetricMonoidal.terms, c.definition? = none := by decide
    refine orderly_of_undefined plain monoidal_symmetricMonoidal.toCategorical hundefined
      fun c hc => ?_
    have hc' : c ∈ monoidal.terms ++ (cartesian.terms.drop 5).take 1 := hc
    rcases List.mem_append.mp hc' with hmonoidal | hbraid
    · exact familiar_monoidal monoidal_symmetricMonoidal (plain.bare _) hmonoidal
    · have hbraid' : c ∈ [_] := hbraid
      obtain rfl := List.mem_singleton.mp hbraid'
      exact familiar_cartesian monoidal_symmetricMonoidal (.head _) rfl (plain.bare _) rfl
  · refine ⟨plain, monoidal_cartesian.toCategorical, fun c hc hdefinition => ?_, ?_⟩
    · have hc' : c ∈ monoidal.terms ++ cartesian.terms.drop 5 := hc
      rcases List.mem_append.mp hc' with hmonoidal | hobjects
      · exact familiar_monoidal monoidal_cartesian (plain.bare _) hmonoidal
      · exact familiar_cartesian monoidal_cartesian hobjects hdefinition (plain.bare _)
          (overloads_cartesian rfl hobjects)
    · intro c hc definition hdefinition
      obtain ⟨rfl, rfl⟩ := defined_cartesian hc hdefinition
      refine ⟨by decide, fun head hhead => ?_⟩
      have hhead' : head ∈ ["compose", "mcopy", "dom", "otimes"] := hhead
      have hundefined : ∀ d ∈ cartesian.terms, d.name ≠ "pair" → d.definition? = none := by decide
      have hname : head ≠ "pair" := by
        rintro rfl
        simp at hhead'
      refine ⟨?_, fun d hd hsame => hundefined d hd (hsame ▸ hname)⟩
      simp only [List.mem_cons, List.not_mem_nil, or_false] at hhead'
      rcases hhead' with rfl | rfl | rfl | rfl
      · exact member_of_known (by simp) (.inr (List.cons_ne_nil _ _))
      · exact member_of_known (by simp) (.inr (List.cons_ne_nil _ _))
      · exact member_of_known (by simp) (.inl rfl)
      · exact member_of_known (by simp) (.inr (List.cons_ne_nil _ _))

end Instances

end TermAlgebra.Standard
