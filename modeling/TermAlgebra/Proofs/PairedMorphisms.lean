import TermAlgebra.Proofs.StandardCalls
import TermAlgebra.Proofs.StrictDomains

/-!
Pairing in calculi of cartesian categories, with and without simplification. The declared type of a
pair and the composite that stands for it are computed apart from each other, but over the same
products of objects, so the composite has the declared type. Simplification never reaches the
composite itself, whose parts are a copy and a product of morphisms. The domain of pairing compares
the two sources; if they are equal then so are the objects at which the composite meets, because
equal objects are simplified alike.
-/
namespace TermAlgebra.Standard

open Outcome Calculus Free

/-- A calculus of cartesian categories that may simplify products of objects, but builds products of
morphisms, and composites without identities, as they stand. -/
structure Cartesian (calculus : Calculus) (product : Value → Value → Value) : Prop where
  theory : calculus.theory = cartesian
  simplifying : calculus.Simplifying
  familiar : ∀ c ∈ calculus.theory.terms, c.definition? = none → Familiar calculus c
  bare : ∀ name ∈ ["munit", "mcopy", "pair"], calculus.overrides.get? name = none
  call_product : ∀ {k : Nat} {left right : Value}, left.hasSort "Ob" = true →
    right.hasSort "Ob" = true →
    (calculus.algebra (k + 1)).call "otimes" [left, right] = .ok (product left right)
  hasSort_product : ∀ {left right : Value}, left.hasSort "Ob" = true →
    right.hasSort "Ob" = true → (product left right).hasSort "Ob" = true
  product_same : ∀ {left left' right right' : Value}, Value.Same left left' →
    Value.Same right right' → Value.Same (product left right) (product left' right')
  composite : ∀ {self : Algebra} {f g : Value} {strict : Bool}, f.hasSort "Hom" = true →
    g.hasSort "Hom" = true → f.hasHead "id" = false → g.hasHead "id" = false →
    calculus.constructWith self "compose" [f, g] strict =
      calculus.buildNamed self "compose" [f, g] strict
  morphisms : ∀ {self : Algebra} {f g : Value} {strict : Bool}, f.hasSort "Hom" = true →
    g.hasSort "Hom" = true →
    calculus.constructWith self "otimes" [f, g] strict =
      calculus.buildNamed self "otimes" [f, g] strict

section Instances

variable {calculus : Calculus} {self : Algebra} {name : String} {args : List Value} {strict : Bool}

/-- Where nothing is overridden or defined by default, expressions are built as they stand. -/
theorem constructWith_of_bare (hbare : calculus.overrides.get? name = none)
    (hundefined : ∀ constructor ∈ calculus.overloads name,
      constructor.declaration.definition? = none) :
    calculus.constructWith self name args strict = calculus.buildNamed self name args strict := by
  cases hresolve : calculus.resolve name args with
  | error failure => rw [constructWith, buildNamed, hresolve]; rfl
  | ok constructor =>
    rw [constructWith, buildNamed, hresolve, bind_eq, ofExcept_ok_bind, bind_eq, ofExcept_ok_bind,
      Calculus.apply, resolve_name hresolve, hbare]
    simp only [hundefined constructor (resolve_eq_ok hresolve).1]

/-- So they are by an override that gives what it builds. -/
theorem constructWith_of_override {override : Override}
    (hoverride : calculus.overrides.get? name = some override)
    (hkeeps : override (calculus.workshop self) args strict =
      calculus.buildNamed self name args strict) :
    calculus.constructWith self name args strict = calculus.buildNamed self name args strict := by
  cases hresolve : calculus.resolve name args with
  | error failure => rw [constructWith, buildNamed, hresolve]; rfl
  | ok constructor =>
    rw [constructWith, hresolve, bind_eq, ofExcept_ok_bind, Calculus.apply, resolve_name hresolve,
      hoverride]
    exact hkeeps

theorem chooseComposite_of_heads {f g : Value} (hf : f.hasSort "Hom" = true)
    (hg : g.hasSort "Hom" = true) (hheadf : f.hasHead "id" = false)
    (hheadg : g.hasHead "id" = false) (built : Value) :
    chooseComposite [f, g] built = .ok built := by
  obtain ⟨first, hfirst, hf'⟩ := form_of_hasSort hf
  obtain ⟨second, hsecond, hg'⟩ := form_of_hasSort hg
  rw [hf', decide_eq_false_iff_not] at hheadf
  rw [hg', decide_eq_false_iff_not] at hheadg
  simp only [chooseComposite, hfirst, hsecond, if_neg hheadf, if_neg hheadg]

theorem chooseProduct_of_morphism {f : Value} (hf : f.hasSort "Hom" = true) (g built : Value) :
    chooseProduct [f, g] built = .ok built := by
  obtain ⟨first, hfirst, -⟩ := form_of_hasSort hf
  have hsort : ("Hom" : String) ≠ "Ob" := by decide
  simp only [chooseProduct, hfirst, if_neg hsort]

theorem cartesian_of_plain (plain : calculus.Plain) (htheory : calculus.theory = cartesian) :
    Cartesian calculus tensorOfObjects := by
  have hmonoidal : Monoidal calculus.theory := htheory ▸ monoidal_cartesian
  have horderly : Orderly calculus := orderly_of_mem plain (by rw [htheory]; simp [Standard.all])
  refine ⟨htheory, plain.simplifying, horderly.familiar, fun _ _ => plain.bare _,
    fun hleft hright => (makes_objectTensor hmonoidal hleft hright).call (plain.bare _),
    fun _ _ => rfl, fun hleft hright => Value.same_expr.mpr ⟨rfl, .cons hleft (.cons hright .nil),
      .nil⟩, fun _ _ _ _ => constructWith_of_bare (plain.bare _) ?_,
    fun _ _ => constructWith_of_bare (plain.bare _) ?_⟩
  · rw [overloads_composition hmonoidal.toCategorical]
    decide
  · rw [overloads_tensor hmonoidal]
    decide

theorem cartesian_free : Cartesian Free.cartesian reducedTensor := by
  refine ⟨rfl, simplifying_cartesian, systematic_cartesian.familiar, by decide,
    fun hleft hright => unital_cartesian.call_tensor monoidal_cartesian hleft hright,
    hasSort_reducedTensor, reducedTensor_same, fun hf hg hheadf hheadg => ?_, fun hf hg => ?_⟩
  · refine constructWith_of_override unital_cartesian.compose ?_
    rw [composeUnits_pair]
    simp only [chooseComposite_of_heads hf hg hheadf hheadg]
    exact bind_ok _
  · refine constructWith_of_override (unital_cartesian.tensor monoidal_cartesian) ?_
    rw [tensorUnits_pair]
    simp only [chooseProduct_of_morphism hf]
    exact bind_ok _

end Instances

/-- A strict composite is built if the source of the second morphism equals the target of the first.
-/
theorem buildNamed_strict {calculus : Calculus} {self : Algebra}
    (h : Categorical calculus.theory) (hself : Reads self)
    {f g source middle middle' target : Value} (hf : IsMorphism source middle f)
    (hg : IsMorphism middle' target g) :
    calculus.buildNamed self "compose" [f, g] true =
      if Value.equal middle middle' = true then .ok (compositeOf f g source target)
      else .fail (.outsideDomain "compose" [f, g]) := by
  have haccepts : Constructor.accepts ⟨composition, .compound⟩ [f, g] = true := by
    rw [accepts_composition, hf.hasSort, hg.hasSort]
    rfl
  have hresolve : calculus.resolve "compose" [f, g] = .ok ⟨composition, .compound⟩ :=
    resolve_of_overloads (overloads_composition h) (by rw [List.find?_cons, haccepts])
  have hdomain : composition.domain calculus.theory =
      [⟨.app "codom" [.var "f"], .app "dom" [.var "g"]⟩] := by
    rw [h.domain]
    cbv
  have hvalidate : self.validate composition (composition.domain calculus.theory) [f, g] =
      if Value.equal middle middle' = true then .ok ()
      else .fail (.outsideDomain "compose" [f, g]) := by
    have henvf : Environment.ofArgs composition.params [f, g] "f" = some f := rfl
    have henvg : Environment.ofArgs composition.params [f, g] "g" = some g := rfl
    rw [hdomain]
    refine Algebra.validate_single rfl ?_ ?_
    · rw [Algebra.evaluate_app_one (Algebra.evaluate_var henvf), (hself hf).2]
    · rw [Algebra.evaluate_app_one (Algebra.evaluate_var henvg), (hself hg).1]
  rw [buildNamed, hresolve, bind_eq, ofExcept_ok_bind, build_strict haccepts, hvalidate,
    build_composition h hself hf hg]
  split
  · exact ok_bind _ _
  · exact fail_bind _ _

/-- Copying, with the declaration that it has in the theory. -/
def copying : TermConstructor :=
  constructor "mcopy" [] (objects ["A"]) (hom a (tensor a a)) (some "Copy (diagonal)")

section Calls

variable (product : Value → Value → Value)

def diagonalOn (object : Value) : Value :=
  .expr "mcopy" [object] [object, product object object] "Hom"

/-- The composite that stands for a pair of morphisms with these sources and targets. -/
def pairedComposite (f g a a' b b' : Value) : Value :=
  compositeOf (diagonalOn product a) (tensorOfMorphisms f g (product a a') (product b b')) a
    (product b b')

variable {calculus : Calculus} {product} (h : Cartesian calculus product) {k : Nat}
  {f g a a' b b' object : Value}

include h

theorem Cartesian.monoidal : Monoidal calculus.theory := h.theory ▸ monoidal_cartesian

theorem Cartesian.reads : Reads (calculus.algebra (k + 1)) :=
  reads_algebra h.monoidal.toCategorical k

theorem Cartesian.overloads_copy : calculus.overloads "mcopy" = [⟨copying, .compound⟩] :=
  overloads_cartesian h.theory (c := copying) (.tail _ (.head _))

theorem Cartesian.overloads_pair : calculus.overloads "pair" = [⟨pair, .compound⟩] :=
  overloads_cartesian h.theory (c := pair) (.tail _ (.tail _ (.tail _ (.head _))))

theorem Cartesian.member_of_mem {head : String} (hhead : head ∈ pairing.body.heads) :
    calculus.member head = .ok () := by
  have hhead' : head ∈ ["compose", "mcopy", "dom", "otimes"] := hhead
  simp only [List.mem_cons, List.not_mem_nil, or_false] at hhead'
  rcases hhead' with rfl | rfl | rfl | rfl
  · refine member_of_known (by simp) (.inr ?_)
    rw [overloads_composition h.monoidal.toCategorical]
    exact List.cons_ne_nil _ _
  · refine member_of_known (by simp) (.inr ?_)
    rw [h.overloads_copy]
    exact List.cons_ne_nil _ _
  · exact member_of_known (by simp) (.inl ((h.monoidal.isAccessor_iff _).mpr (.inl rfl)))
  · refine member_of_known (by simp) (.inr ?_)
    rw [overloads_tensor h.monoidal]
    exact List.cons_ne_nil _ _

/-- Calls of constructors are constructions, one level further down. -/
theorem Cartesian.call_eq_constructWith {n : Nat} {name : String} (args : List Value)
    (hdom : name ≠ "dom") (hcodom : name ≠ "codom") :
    (calculus.algebra (n + 1)).call name args =
      calculus.constructWith (calculus.algebra n) name args false := by
  change calculus.invokeWith (calculus.algebra n) name args none = _
  rw [invokeWith, h.monoidal.not_accessor hdom hcodom, if_neg Bool.false_ne_true]
  rfl

theorem Cartesian.buildNamed_copy (hobject : object.hasSort "Ob" = true) :
    calculus.buildNamed (calculus.algebra (k + 1)) "mcopy" [object] false =
      .ok (diagonalOn product object) := by
  have haccepts : Constructor.accepts ⟨copying, .compound⟩ [object] = true := by
    have hsorts : copying.paramSorts = ["Ob"] := rfl
    simp [accepts_of_paramSorts hsorts, Constructor.fits, hobject]
  have hexpanded : copying.expandedResult calculus.theory =
      hom Standard.a (tensor Standard.a Standard.a) := by
    rw [h.monoidal.expandedResult]
    cbv
  have hresolve : calculus.resolve "mcopy" [object] = .ok ⟨copying, .compound⟩ :=
    resolve_of_overloads h.overloads_copy (by rw [List.find?_cons, haccepts])
  rw [buildNamed, hresolve, bind_eq, ofExcept_ok_bind]
  refine build_of_types haccepts hexpanded ?_
  have hparams : copying.params = ["A"] := rfl
  simp [hparams, tensor, Standard.a, Algebra.evaluateAll, Algebra.evaluate, Algebra.variableValue,
    Environment.ofArgs, lastEntry, h.call_product hobject hobject, bind_eq, pure_eq]

theorem Cartesian.construct_copy (hobject : object.hasSort "Ob" = true) :
    calculus.constructWith (calculus.algebra (k + 1)) "mcopy" [object] false =
      .ok (diagonalOn product object) := by
  have hundefined : ∀ constructor ∈ calculus.overloads "mcopy",
      constructor.declaration.definition? = none := by
    rw [h.overloads_copy]
    decide
  rw [constructWith_of_bare (h.bare "mcopy" (by decide)) hundefined, h.buildNamed_copy hobject]

theorem Cartesian.buildNamed_composite :
    calculus.buildNamed (calculus.algebra (k + 1)) "compose"
        [diagonalOn product a, tensorOfMorphisms f g (product a a') (product b b')] false =
      .ok (pairedComposite product f g a a' b b') :=
  (makes_composition h.monoidal.toCategorical h.reads (isMorphism_expr _ _ _ _)
    (isMorphism_expr _ _ _ _)).buildNamed

/-- If the sources are equal, the composite is one of morphisms that meet. -/
theorem Cartesian.construct_composite (ha : a.hasSort "Ob" = true)
    (hequal : Value.equal a a' = true) :
    calculus.constructWith (calculus.algebra (k + 1)) "compose"
        [diagonalOn product a, tensorOfMorphisms f g (product a a') (product b b')] true =
      .ok (pairedComposite product f g a a' b b') := by
  have hcopy : IsMorphism a (product a a) (diagonalOn product a) := isMorphism_expr _ _ _ _
  have hproduct : IsMorphism (product a a') (product b b')
      (tensorOfMorphisms f g (product a a') (product b b')) := isMorphism_expr _ _ _ _
  have hmeet : Value.equal (product a a) (product a a') = true :=
    Value.equal_of_same (isExpr_of_hasSort (h.hasSort_product ha ha))
      (h.product_same (Value.same_refl a) (Value.same_of_equal hequal))
  rw [h.composite rfl rfl rfl rfl,
    buildNamed_strict h.monoidal.toCategorical h.reads hcopy hproduct, if_pos hmeet]
  rfl

variable (hf : IsMorphism a b f) (hg : IsMorphism a' b' g)

include hf hg

theorem Cartesian.resolve_pair : calculus.resolve "pair" [f, g] = .ok ⟨pair, .compound⟩ := by
  have haccepts : Constructor.accepts ⟨pair, .compound⟩ [f, g] = true := by
    have hsorts : pair.paramSorts = ["Hom", "Hom"] := rfl
    simp [accepts_of_paramSorts hsorts, Constructor.fits, hf.hasSort, hg.hasSort]
  exact resolve_of_overloads h.overloads_pair (by rw [List.find?_cons, haccepts])

variable (hb : b.hasSort "Ob" = true) (hb' : b'.hasSort "Ob" = true)

include hb hb'

/-- What is declared of a pair, where it is not evaluated. -/
theorem Cartesian.buildNamed_pair :
    calculus.buildNamed (calculus.algebra (k + 1)) "pair" [f, g] false =
      .ok (.expr "pair" [f, g] [a, product b b'] "Hom") := by
  have hresolve := h.resolve_pair hf hg
  have hexpanded : pair.expandedResult calculus.theory = hom (.app "dom" [.var "f"])
      (tensor (.app "codom" [.var "f"]) (.app "codom" [.var "g"])) := by
    rw [h.monoidal.expandedResult]
    cbv
  have hreads : Reads (calculus.algebra (k + 1)) := h.reads
  rw [buildNamed, hresolve, bind_eq, ofExcept_ok_bind]
  refine build_of_types (resolve_eq_ok hresolve).2 hexpanded ?_
  have hparams : pair.params = ["f", "g"] := rfl
  simp [hparams, tensor, Algebra.evaluateAll, Algebra.evaluate, Algebra.variableValue,
    Environment.ofArgs, lastEntry, (hreads hf).1, (hreads hf).2, (hreads hg).2,
    h.call_product hb hb', bind_eq, pure_eq]

variable (ha : a.hasSort "Ob" = true) (ha' : a'.hasSort "Ob" = true)

include ha ha'

theorem Cartesian.construct_morphisms :
    calculus.constructWith (calculus.algebra (k + 1)) "otimes" [f, g] false =
      .ok (tensorOfMorphisms f g (product a a') (product b b')) := by
  rw [h.morphisms hf.hasSort hg.hasSort]
  exact (makes_morphismTensor h.monoidal h.reads hf hg (h.call_product ha ha')
    (h.call_product hb hb')).buildNamed

/-- The definition of pairing gives the composite. -/
theorem Cartesian.evaluate_pairing :
    (calculus.algebra (k + 2)).evaluate (.ofArgs pair.params [f, g]) pairing.body =
      .ok (pairedComposite product f g a a' b b') := by
  have hdom : (calculus.algebra (k + 2)).call "dom" [f] = .ok a := (h.reads hf).1
  have hcopy : (calculus.algebra (k + 2)).call "mcopy" [a] = .ok (diagonalOn product a) := by
    rw [h.call_eq_constructWith _ (by decide) (by decide), h.construct_copy ha]
  have hmorphisms : (calculus.algebra (k + 2)).call "otimes" [f, g] =
      .ok (tensorOfMorphisms f g (product a a') (product b b')) := by
    rw [h.call_eq_constructWith _ (by decide) (by decide),
      h.construct_morphisms hf hg hb hb' ha ha']
  have hcomposite : (calculus.algebra (k + 2)).call "compose"
      [diagonalOn product a, tensorOfMorphisms f g (product a a') (product b b')] =
        .ok (pairedComposite product f g a a' b b') := by
    rw [h.call_eq_constructWith _ (by decide) (by decide), h.composite rfl rfl rfl rfl]
    exact h.buildNamed_composite
  have hparams : pair.params = ["f", "g"] := rfl
  simp [pairing, hparams, tensor, Algebra.evaluateAll, Algebra.evaluate, Algebra.variableValue,
    Environment.ofArgs, lastEntry, hdom, hcopy, hmorphisms, hcomposite, bind_eq, pure_eq]

/-- Pairing gives the composite, unless it is strict and the sources differ. -/
theorem Cartesian.construct_pair (strict : Bool) :
    calculus.constructWith (calculus.algebra (k + 2)) "pair" [f, g] strict =
      if strict = true ∧ Value.equal a a' = false then .fail (.outsideDomain "pair" [f, g])
      else .ok (pairedComposite product f g a a' b b') := by
  have hmember : ∀ head ∈ pairing.body.heads, (calculus.algebra (k + 2)).member head = .ok () := by
    intro head hhead
    rw [member_algebra]
    exact h.member_of_mem hhead
  have hvalue : (calculus.algebra (k + 2)).applyDefinition pairing pair.params [f, g] =
      .ok (pairedComposite product f g a a' b b') := by
    rw [Algebra.applyDefinition_eq, Algebra.evaluateVia_of_members _ hmember,
      h.evaluate_pairing hf hg hb hb' ha ha']
  have hdomain : pair.domain calculus.theory =
      [⟨.app "dom" [.var "f"], .app "dom" [.var "g"]⟩] := by
    rw [h.monoidal.domain]
    cbv
  have hreads : Reads (calculus.algebra (k + 2)) := h.reads
  have hvalidate : (calculus.algebra (k + 2)).validate pair (pair.domain calculus.theory) [f, g] =
      if Value.equal a a' = true then .ok () else .fail (.outsideDomain "pair" [f, g]) := by
    have henvf : Environment.ofArgs pair.params [f, g] "f" = some f := rfl
    have henvg : Environment.ofArgs pair.params [f, g] "g" = some g := rfl
    rw [hdomain]
    refine Algebra.validate_single rfl ?_ ?_
    · rw [Algebra.evaluate_app_one (Algebra.evaluate_var henvf), (hreads hf).1]
    · rw [Algebra.evaluate_app_one (Algebra.evaluate_var henvg), (hreads hg).1]
  have hbare : calculus.overrides.get? (Constructor.name ⟨pair, .compound⟩) = none :=
    h.bare "pair" (by decide)
  have hdefinition : pair.definition? = some pairing := rfl
  rw [constructWith, h.resolve_pair hf hg, bind_eq, ofExcept_ok_bind, Calculus.apply, hbare]
  simp only [hdefinition]
  cases strict with
  | false => simp only [Bool.false_eq_true, if_false, false_and, hvalue]
  | true =>
    simp only [if_true, true_and, hvalidate, bind_eq]
    cases Value.equal a a' with
    | true => simp only [if_true, ok_bind, hvalue, Bool.true_eq_false, if_false]
    | false => simp only [Bool.false_eq_true, if_false, fail_bind, if_true]

end Calls

section Soundness

variable {calculus : Calculus} {product : Value → Value → Value} (h : Cartesian calculus product)
  {n : Nat} {name : String} {args : List Value} {result : Value}

include h

theorem Cartesian.makesObjects : MakesObjects calculus where
  tensor _ _ _ _ hleft hright := ⟨_, h.call_product hleft hright, h.hasSort_product hleft hright⟩
  unit hmonoidal _ := ⟨_, (makes_monoidalUnit hmonoidal).call (h.bare "munit" (by decide)), rfl⟩

/-- Out of sound values a constructor builds another one. -/
theorem Cartesian.sound_of_build {k : Nat} {constructor : Constructor}
    (hresolve : calculus.resolve name args = .ok constructor)
    (hdefinition : constructor.declaration.definition? = none) (hargs : ∀ arg ∈ args, Sound arg)
    (hbuild : calculus.build (calculus.algebra (k + 1)) constructor args false = .ok result) :
    Sound result := by
  obtain ⟨built, hbuilt, hsound⟩ := exists_build h.monoidal.toCategorical h.makesObjects h.familiar
    hresolve hdefinition hargs
  rw [hbuilt, ok_eq_ok_iff] at hbuild
  exact hbuild ▸ hsound

/-- Only pairing is defined by default. -/
theorem Cartesian.undefined_or_pair {constructor : Constructor}
    (hresolve : calculus.resolve name args = .ok constructor) :
    constructor.declaration.definition? = none ∨
      name = "pair" ∧ ∃ f g, args = [f, g] ∧ f.hasSort "Hom" = true ∧ g.hasSort "Hom" = true := by
  obtain ⟨hmem, haccepts⟩ := resolve_eq_ok hresolve
  rcases mem_overloads.mp hmem with ⟨c, hc, rfl, rfl⟩ | ⟨t, -, -, rfl⟩
  · cases hdefinition : c.definition? with
    | none => exact .inl rfl
    | some definition =>
      rw [h.theory] at hc
      obtain ⟨rfl, -⟩ := defined_cartesian hc hdefinition
      obtain ⟨f, g, rfl⟩ := List.length_eq_two.mp ((Constructor.accepts_iff _ _).mp haccepts).1
      have hsorts : pair.paramSorts = ["Hom", "Hom"] := rfl
      have hmorphisms : f.hasSort "Hom" = true ∧ g.hasSort "Hom" = true := by
        simpa [accepts_of_paramSorts hsorts, Constructor.fits, anySort] using haccepts
      exact .inr ⟨rfl, f, g, rfl, hmorphisms⟩
  · exact .inl rfl

/-- A construction gives what is built or an argument; only pairing gives a composite in place of
what would be built. -/
theorem Cartesian.sound_of_construct {k : Nat} (hargs : ∀ arg ∈ args, Sound arg)
    (hconstruct : calculus.constructWith (calculus.algebra (k + 2)) name args false = .ok result) :
    Sound result := by
  have hsilent := h.simplifying.silent (k + 2)
  obtain ⟨constructor, hresolve, happly⟩ := constructWith_eq_ok_iff.mp hconstruct
  rcases h.undefined_or_pair hresolve with hdefinition | ⟨rfl, f, g, rfl, hfsort, hgsort⟩
  · unfold Calculus.apply at happly
    rw [resolve_name hresolve] at happly
    cases hoverride : calculus.overrides.get? name with
    | none =>
      simp only [hoverride, hdefinition] at happly
      exact h.sound_of_build hresolve hdefinition hargs happly
    | some override =>
      simp only [hoverride] at happly
      obtain ⟨built, hbuilt, hresult⟩ := (h.simplifying.selective hoverride).selects
        (silent_buildNamed hsilent name args false) happly
      obtain ⟨constructor', hresolve', hbuild⟩ := buildNamed_eq_ok_iff.mp hbuilt
      obtain rfl := Except.ok.inj (hresolve.symm.trans hresolve')
      rcases hresult with rfl | hmem
      · exact h.sound_of_build hresolve hdefinition hargs hbuild
      · exact hargs result hmem
  · obtain ⟨a, b, hf, ha, hb⟩ := hargs f (by simp) hfsort
    obtain ⟨a', b', hg, ha', hb'⟩ := hargs g (by simp) hgsort
    rw [h.construct_pair hf hg hb hb' ha ha', if_neg (by simp), ok_eq_ok_iff] at hconstruct
    exact hconstruct ▸ BetweenObjects.sound
      ⟨_, _, isMorphism_expr _ _ _ _, ha, h.hasSort_product hb hb'⟩

theorem Cartesian.sound_of_call (hargs : ∀ arg ∈ args, Sound arg)
    (hcall : (calculus.algebra n).call name args = .ok result) : Sound result := by
  have hdeeper : (calculus.algebra (n + 3)).call name args = .ok result :=
    h.simplifying.call_mono (Nat.le_add_right n 3) hcall
  cases haccessor : calculus.theory.isAccessor name with
  | true =>
    rw [call_of_accessor haccessor] at hdeeper
    rcases ends_callAccessor h.monoidal.toCategorical haccessor hargs with
      ⟨value, hvalue, hsound⟩ | ⟨failure, hfailure, -⟩
    · rw [hvalue, ok_eq_ok_iff] at hdeeper
      exact hdeeper ▸ hsound
    · rw [hfailure] at hdeeper
      cases fail_ne_ok _ _ hdeeper
  | false =>
    change calculus.invokeWith (calculus.algebra (n + 2)) name args none = .ok result at hdeeper
    rw [invokeWith, haccessor, if_neg Bool.false_ne_true] at hdeeper
    exact h.sound_of_construct hargs hdeeper

/-- Morphisms that the calculus has built are morphisms between objects. -/
theorem Cartesian.sound_of_built {value : Value} (hbuilt : (calculus.algebra n).Built value) :
    Sound value := by
  induction hbuilt with
  | datum hdatum => exact sound_datum hdatum
  | call _ _ hinvoke ih =>
    have hsilent := h.simplifying.silent n
    exact h.sound_of_call ih (h.simplifying.call_of_invoke ((hsilent _ _ _).eq_ok hinvoke))

end Soundness

theorem exists_cartesian {calculus : Calculus}
    (h : calculus.Plain ∧ calculus.theory = cartesian ∨ calculus = Free.cartesian) :
    ∃ product, Cartesian calculus product := by
  rcases h with ⟨plain, htheory⟩ | rfl
  · exact ⟨_, cartesian_of_plain plain htheory⟩
  · exact ⟨_, cartesian_free⟩

/-- A pair of morphisms has the type that is declared of pairs. Strict pairing refuses morphisms
whose sources differ, and otherwise gives the same expression; this is then also a valid composite
of the copy of the source with the product of the two morphisms. -/
theorem pair_typed_and_valid {calculus : Calculus}
    (hcalculus : calculus.Plain ∧ calculus.theory = cartesian ∨ calculus = Free.cartesian)
    {f g : Value} (hf : calculus.toAlgebra.Built f) (hg : calculus.toAlgebra.Built g)
    (hfsort : f.hasSort "Hom" = true) (hgsort : g.hasSort "Hom" = true) :
    ∃ source source' copy both value declared,
      calculus.access "dom" f = .ok source ∧ calculus.access "dom" g = .ok source' ∧
      calculus.construct "mcopy" [source] false = .ok copy ∧
      calculus.construct "otimes" [f, g] false = .ok both ∧
      calculus.construct "pair" [f, g] false = .ok value ∧
      calculus.new "pair" [f, g] false = .ok declared ∧
      value.hasSort "Hom" = true ∧ declared.hasSort "Hom" = true ∧
      value.typeArgs = declared.typeArgs ∧
      (Value.equal source source' = false →
        calculus.construct "pair" [f, g] true = .fail (.outsideDomain "pair" [f, g])) ∧
      (Value.equal source source' = true → calculus.construct "pair" [f, g] true = .ok value ∧
        calculus.construct "compose" [copy, both] true = .ok value) := by
  obtain ⟨product, h⟩ := exists_cartesian hcalculus
  obtain ⟨a, b, hf, ha, hb⟩ := h.sound_of_built hf hfsort
  obtain ⟨a', b', hg, ha', hb'⟩ := h.sound_of_built hg hgsort
  have hpair (strict : Bool) : calculus.construct "pair" [f, g] strict =
      if strict = true ∧ Value.equal a a' = false then .fail (.outsideDomain "pair" [f, g])
      else .ok (pairedComposite product f g a a' b b') :=
    h.construct_pair (k := depthBound - 2) hf hg hb hb' ha ha' strict
  refine ⟨a, a', diagonalOn product a,
    tensorOfMorphisms f g (product a a') (product b b'), pairedComposite product f g a a' b b',
    .expr "pair" [f, g] [a, product b b'] "Hom",
    (access_of_isMorphism h.monoidal.toCategorical hf).1,
    (access_of_isMorphism h.monoidal.toCategorical hg).1,
    h.construct_copy (k := depthBound - 1) ha,
    h.construct_morphisms (k := depthBound - 1) hf hg hb hb' ha ha', ?_,
    h.buildNamed_pair (k := depthBound - 1) hf hg hb hb', rfl, rfl, rfl, fun hdiffer => ?_,
    fun hequal => ⟨?_, h.construct_composite (k := depthBound - 1) ha hequal⟩⟩
  · rw [hpair, if_neg (by simp)]
  · rw [hpair, if_pos ⟨rfl, hdiffer⟩]
  · rw [hpair, if_neg (by simp [hequal])]

/-- In the free cartesian category, a morphism into the unit pairs with one of the same source, but
not with one that goes the other way. -/
theorem pair_typed_and_valid_unit :
    let object (name : String) := objectOf (.str name)
    let f := morphismOf (.str "f") (object "A") unitObject
    let g := morphismOf (.str "g") (object "A") (object "B")
    let back := morphismOf (.str "h") (object "B") (object "A")
    (∃ value declared, Free.cartesian.construct "pair" [f, g] true = .ok value ∧
      Free.cartesian.new "pair" [f, g] false = .ok declared ∧
      value.typeArgs = declared.typeArgs) ∧
    Free.cartesian.construct "pair" [f, back] true = .fail (.outsideDomain "pair" [f, back]) := by
  intro object f g back
  have hcategorical := monoidal_cartesian.toCategorical
  have hobject (name : String) : Free.cartesian.toAlgebra.Built (object name) :=
    built_object hcategorical rfl name (depthBound - 1)
  have hunit : Free.cartesian.toAlgebra.Built unitObject :=
    (makes_monoidalUnit monoidal_cartesian).built (n := depthBound - 1) rfl (List.forall_mem_nil _)
  have hf : Free.cartesian.toAlgebra.Built f :=
    built_morphism hcategorical rfl (n := depthBound - 1) (hobject "A") hunit rfl rfl "f"
  have hg : Free.cartesian.toAlgebra.Built g :=
    built_morphism hcategorical rfl (n := depthBound - 1) (hobject "A") (hobject "B") rfl rfl "g"
  have hback : Free.cartesian.toAlgebra.Built back :=
    built_morphism hcategorical rfl (n := depthBound - 1) (hobject "B") (hobject "A") rfl rfl "h"
  constructor
  · obtain ⟨source, source', _, _, value, declared, hsource, hsource', -, -, -, hnew, -, -, htypes,
      -, hstrict⟩ := pair_typed_and_valid (.inr rfl) hf hg rfl rfl
    cases hsource
    cases hsource'
    exact ⟨value, declared, (hstrict (by decide)).1, hnew, htypes⟩
  · obtain ⟨source, source', _, _, value, declared, hsource, hsource', -, -, -, -, -, -, -,
      hrefused, -⟩ := pair_typed_and_valid (.inr rfl) hf hback rfl rfl
    cases hsource
    cases hsource'
    exact hrefused (by decide)

end TermAlgebra.Standard
