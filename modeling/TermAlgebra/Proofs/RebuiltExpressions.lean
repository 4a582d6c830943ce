import TermAlgebra.Proofs.FreeSimplification
import TermAlgebra.Proofs.PreservedTypes
import TermAlgebra.Proofs.RebuiltValues
import TermAlgebra.Proofs.SafeCalls
import TermAlgebra.Proofs.SimplifyingCalculus

/-!
Rebuilding expressions in a calculus. An expression that the calculus itself built is rebuilt as it
stands: every node in it, also in the type arguments, is what the name of its head gives for the
node's own arguments, for a name that an override or a default implementation answers otherwise
leaves no such node behind. An expression that was built without simplification can be rebuilt in
the free calculus of the same theory, because simplified objects are objects and simplified
morphisms are morphisms between objects. The result was built by the free calculus, so rebuilding
it once more does nothing.
-/
namespace TermAlgebra

open Outcome TermAlgebra.Algebra

namespace Algebra

/-- Every expression in the value is what the name of its head gives for its arguments. -/
inductive Fixed (algebra : Algebra) : Value → Prop
  | datum {value} (h : value.isExpr = false) : Fixed algebra value
  | expr {head args typeArgs sort}
      (hcall : algebra.call (constructorName head sort) args = .ok (.expr head args typeArgs sort))
      (hargs : ∀ arg ∈ args, Fixed algebra arg)
      (htypes : ∀ typeArg ∈ typeArgs, Fixed algebra typeArg) :
      Fixed algebra (.expr head args typeArgs sort)

theorem Fixed.typeArgs {algebra : Algebra} {value : Value} (h : algebra.Fixed value) :
    ∀ typeArg ∈ value.typeArgs, algebra.Fixed typeArg := by
  cases h with
  | datum h =>
    intro typeArg hmem
    simp [Value.typeArgs_of_not_expr h] at hmem
  | expr _ _ htypes => exact htypes

theorem Fixed.mapped {algebra : Algebra} {value : Value} (h : algebra.Fixed value) :
    algebra.mapped [] value = .ok value := by
  induction h with
  | datum h => exact mapped_datum h
  | @expr head args typeArgs sort hcall _ _ ih _ =>
    rw [mapped_expr rfl]
    exact functor_of_args (functorAll_of_mapped (List.forall₂_same.mpr ih)) hcall

end Algebra

namespace Calculus

variable {calculus : Calculus} {n : Nat} {value : Value}

theorem Simplifying.inherited_fixed (simplifying : calculus.Simplifying) (n : Nat) :
    calculus.Inherited n (calculus.algebra n).Fixed where
  typeArgs _ h := h.typeArgs
  node hm hcall hargs htypes := .expr (simplifying.call_mono hm hcall) hargs htypes

theorem Simplifying.fixed_of_built (simplifying : calculus.Simplifying)
    (h : (calculus.algebra n).Built value) : (calculus.algebra n).Fixed value := by
  induction h with
  | datum h => exact .datum h
  | call _ _ h ih =>
    -- The calls within the bound simulate themselves; that values are fixed is passed along.
    have hcall := simplifying.call_of_invoke ((simplifying.silent n _ _ _).eq_ok h)
    have sim := simplifying.simulates (simplifying.inherited_fixed n) 0 n (Nat.le_refl n)
    obtain ⟨result', -, rfl, hfixed⟩ := sim.call (forall₂_eq_and_iff.mpr ⟨rfl, ih⟩) hcall
    exact hfixed

/-- Rebuilding a value where it was built does nothing. -/
theorem Simplifying.mapped_self (simplifying : calculus.Simplifying)
    (h : (calculus.algebra n).Built value) : (calculus.algebra n).mapped [] value = .ok value :=
  (simplifying.fixed_of_built h).mapped

end Calculus

namespace Free

open Standard Calculus Value

theorem simplifying_of_entries {free : Calculus} (haccepted : free.theory.Accepted)
    (h : ∀ entry ∈ free.overrides.entries, Selective entry.1 entry.2) : free.Simplifying where
  accepted := haccepted
  selective hoverride := h _ (Table.mem_of_get?_eq_some hoverride)

theorem simplifying_category : category.Simplifying := by
  refine simplifying_of_entries plain_category.accepted fun entry hentry => ?_
  obtain rfl := List.mem_singleton.mp hentry
  exact selective_composeUnits

theorem simplifying_of_units {free : Calculus} (haccepted : free.theory.Accepted)
    (h : free.overrides = .ofList [("compose", composeUnits), ("otimes", tensorUnits)]) :
    free.Simplifying := by
  refine simplifying_of_entries haccepted ?_
  rw [h]
  exact List.forall_mem_cons.mpr
    ⟨selective_composeUnits, List.forall_mem_singleton.mpr selective_tensorUnits⟩

theorem simplifying_monoidal : monoidal.Simplifying :=
  simplifying_of_units plain_monoidal.accepted rfl

theorem simplifying_cartesian : cartesian.Simplifying :=
  simplifying_of_units plain_cartesian.accepted rfl

theorem unital_cartesian : Unital cartesian where
  categorical := monoidal_cartesian.toCategorical
  bare := by
    intro name hname
    simp only [List.mem_cons, List.not_mem_nil, or_false] at hname
    rcases hname with rfl | rfl | rfl | rfl <;> rfl
  compose := rfl
  tensor _ := rfl

/-- The terms for objects over the parameters. -/
inductive ObjectTerm (theory : Theory) (params : List String) : Term → Prop
  | var {name : String} (h : name ∈ params) : ObjectTerm theory params (.var name)
  | tensor {left right : Term} (hmonoidal : Monoidal theory) (hleft : ObjectTerm theory params left)
      (hright : ObjectTerm theory params right) : ObjectTerm theory params (tensor left right)
  | unit (hmonoidal : Monoidal theory) : ObjectTerm theory params unit

/-- The constructor takes objects and gives a morphism between objects that it tells. -/
structure OverObjects (free : Calculus) (c : TermConstructor) : Prop where
  definition? : c.definition? = none
  bare : free.overrides.get? c.name = none
  not_accessor : free.theory.isAccessor c.name = false
  overloads : free.overloads c.name = [⟨c, .compound⟩]
  paramSorts : c.paramSorts = List.replicate c.params.length "Ob"
  sort : c.sort? = some "Hom"
  expanded : ∃ source target, c.expandedResult free.theory = hom source target ∧
    ObjectTerm free.theory c.params source ∧ ObjectTerm free.theory c.params target

/-- The values of the parameters are objects. -/
def Objects (params : List String) (env : Environment) : Prop :=
  ∀ name ∈ params, ∃ value, env name = some value ∧ value.hasSort "Ob" = true

/-- Calls of products and units make objects of objects. -/
structure MakesObjects (calculus : Calculus) : Prop where
  tensor : Monoidal calculus.theory → ∀ {k : Nat} {left right : Value},
    left.hasSort "Ob" = true → right.hasSort "Ob" = true → ∃ value,
      (calculus.algebra (k + 1)).call "otimes" [left, right] = .ok value ∧
        value.hasSort "Ob" = true
  unit : Monoidal calculus.theory → ∀ {k : Nat}, ∃ value,
    (calculus.algebra (k + 1)).call "munit" [] = .ok value ∧ value.hasSort "Ob" = true

theorem Unital.makesObjects {free : Calculus} (hfree : Unital free) : MakesObjects free where
  tensor hmonoidal _ _ _ hleft hright :=
    ⟨_, hfree.call_tensor hmonoidal hleft hright, hasSort_reducedTensor hleft hright⟩
  unit hmonoidal _ := ⟨_, hfree.call_bare (by decide) (makes_monoidalUnit hmonoidal), rfl⟩

theorem makesObjects_of_plain {calculus : Calculus} (plain : calculus.Plain) :
    MakesObjects calculus where
  tensor hmonoidal _ _ _ hleft hright :=
    ⟨_, (makes_objectTensor hmonoidal hleft hright).call (plain.bare _), rfl⟩
  unit hmonoidal _ := ⟨_, (makes_monoidalUnit hmonoidal).call (plain.bare _), rfl⟩

theorem ObjectTerm.evaluate {calculus : Calculus} (hcalls : MakesObjects calculus)
    {params : List String} {env : Environment} (henv : Objects params env) (k : Nat) {term : Term}
    (h : ObjectTerm calculus.theory params term) :
    ∃ value, (calculus.algebra (k + 1)).evaluate env term = .ok value ∧
      value.hasSort "Ob" = true := by
  induction h with
  | var hname =>
    obtain ⟨value, hvalue, hsort⟩ := henv _ hname
    exact ⟨value, by rw [Algebra.evaluate, variableValue, hvalue], hsort⟩
  | tensor hmonoidal _ _ ihleft ihright =>
    obtain ⟨left, hleft, hsortl⟩ := ihleft
    obtain ⟨right, hright, hsortr⟩ := ihright
    obtain ⟨product, hproduct, hsort⟩ := hcalls.tensor hmonoidal hsortl hsortr
    refine ⟨product, ?_, hsort⟩
    simp only [Standard.tensor, Algebra.evaluate, evaluateAll, hleft, hright, bind_eq, ok_bind,
      pure_eq]
    exact hproduct
  | unit hmonoidal =>
    obtain ⟨object, hobject, hsort⟩ := hcalls.unit hmonoidal
    refine ⟨object, ?_, hsort⟩
    simp only [Standard.unit, Algebra.evaluate, evaluateAll, bind_eq, ok_bind, pure_eq]
    exact hobject

/-- The value is a morphism between objects. -/
def BetweenObjects (value : Value) : Prop :=
  ∃ source target, IsMorphism source target value ∧ source.hasSort "Ob" = true ∧
    target.hasSort "Ob" = true

theorem OverObjects.accepts_iff {free : Calculus} {c : TermConstructor}
    (hc : OverObjects free c) (kind : Kind) (args : List Value) :
    Constructor.accepts ⟨c, kind⟩ args = true ↔
      args.length = c.params.length ∧ ∀ arg ∈ args, arg.hasSort "Ob" = true := by
  rw [accepts_of_paramSorts hc.paramSorts, List.length_replicate, Bool.and_eq_true,
    decide_eq_true_eq]
  refine and_congr_right fun hlength => ?_
  rw [← hlength]
  clear hlength
  induction args with
  | nil => simp
  | cons arg rest ih =>
    simp only [List.length_cons, List.replicate_succ, List.zip_cons_cons, List.all_cons,
      Bool.and_eq_true, List.forall_mem_cons, ih]
    simp [Constructor.fits, anySort]

theorem OverObjects.exists_makes {free : Calculus} (hcalls : MakesObjects free)
    {c : TermConstructor} (hc : OverObjects free c) {args : List Value}
    (hlength : args.length = c.params.length) (hargs : ∀ arg ∈ args, arg.hasSort "Ob" = true)
    (k : Nat) :
    ∃ result, Makes free (free.algebra (k + 1)) c.name args result ∧ BetweenObjects result := by
  obtain ⟨source, target, hexpanded, hsource, htarget⟩ := hc.expanded
  have henv : Objects c.params (.ofArgs c.params args) := fun name hname =>
    Environment.exists_ofArgs hlength hargs hname
  obtain ⟨source', hsource', hsorts⟩ := hsource.evaluate hcalls henv k
  obtain ⟨target', htarget', hsortt⟩ := htarget.evaluate hcalls henv k
  have haccepts := (hc.accepts_iff .compound args).mpr ⟨hlength, hargs⟩
  have htypes : (free.algebra (k + 1)).evaluateAll (.ofArgs c.params args) [source, target] =
      .ok [source', target'] := by
    simp only [evaluateAll, hsource', htarget', bind_eq, ok_bind, pure_eq]
  have hsort : Constructor.sort ⟨c, .compound⟩ = "Hom" := by rw [Constructor.sort, hc.sort]; rfl
  have hmakes : Makes free (free.algebra (k + 1)) c.name args
      (.expr c.name args [source', target'] "Hom") := by
    refine ⟨hc.not_accessor, ⟨c, .compound⟩, resolve_of_overloads hc.overloads ?_,
      hc.definition?, ?_⟩
    · rw [List.find?_cons, haccepts]
    · rw [← hsort]
      exact build_of_types haccepts hexpanded htypes
  exact ⟨_, hmakes, source', target', isMorphism_expr _ _ _ _, hsorts, hsortt⟩

theorem OverObjects.call {free : Calculus} (hcalls : MakesObjects free) {c : TermConstructor}
    (hc : OverObjects free c) {args : List Value} (hlength : args.length = c.params.length)
    (hargs : ∀ arg ∈ args, arg.hasSort "Ob" = true) (k : Nat) :
    ∃ result, (free.algebra (k + 2)).call c.name args = .ok result ∧ BetweenObjects result := by
  obtain ⟨result, hmakes, hresult⟩ := hc.exists_makes hcalls hlength hargs k
  exact ⟨result, hmakes.call hc.bare, hresult⟩

/-- The constructor is one of those of categories and monoidal categories, or is over objects. -/
def Familiar (free : Calculus) (c : TermConstructor) : Prop :=
  c = composition ∨
    (Monoidal free.theory ∧ (c = objectTensor ∨ c = morphismTensor ∨ c = monoidalUnit)) ∨
    OverObjects free c

/-- The overrides simplify, and every constructor that builds expressions is familiar. -/
structure Systematic (free : Calculus) : Prop extends Unital free where
  simplifying : free.Simplifying
  familiar : ∀ c ∈ free.theory.terms, c.definition? = none → Familiar free c

/-- What the value becomes in the free calculus: objects become objects and morphisms become
morphisms between objects. -/
structure Reduct (free : Calculus) (k : Nat) (value image : Value) : Prop where
  mapped : (free.algebra (k + 2)).mapped [] value = .ok image
  built : (free.algebra (k + 2)).Built image
  isExpr : value.isExpr = true → image.isExpr = true
  object : value.hasSort "Ob" = true → image.hasSort "Ob" = true
  morphism : value.hasSort "Hom" = true → BetweenObjects image

variable {free : Calculus} {k : Nat}

theorem reduct_datum {value : Value} (h : value.isExpr = false) : Reduct free k value value where
  mapped := mapped_datum h
  built := .datum h
  isExpr hexpr := hexpr
  object hsort := by rw [hasSort_of_not_expr h] at hsort; cases hsort
  morphism hsort := by rw [hasSort_of_not_expr h] at hsort; cases hsort

theorem exists_of_mem_right {R : Value → Value → Prop} {values images : List Value}
    (h : List.Forall₂ R values images) {image : Value} (himage : image ∈ images) :
    ∃ value ∈ values, R value image := by
  obtain ⟨i, hi, rfl⟩ := List.getElem_of_mem himage
  have hi' : i < values.length := h.length_eq.symm ▸ hi
  exact ⟨_, List.getElem_mem hi', (List.forall₂_iff_get.mp h).2 i hi' hi⟩

section Nodes

variable {head sort name : String} {args images : List Value} {result : Value}
  (typeArgs : List Value) (hname : constructorName head sort = name)
  (hargs : List.Forall₂ (Reduct free k) args images)
  (hcall : (free.algebra (k + 2)).call name images = .ok result)

include hname hargs hcall

theorem mapped_node :
    (free.algebra (k + 2)).mapped [] (.expr head args typeArgs sort) = .ok result ∧
      (free.algebra (k + 2)).Built result := by
  constructor
  · rw [mapped_expr rfl]
    exact functor_of_args (functorAll_of_mapped (hargs.imp fun _ _ h => h.mapped)) (hname ▸ hcall)
  · refine .call (fun image himage => ?_) hcall
    obtain ⟨_, -, hreduct⟩ := exists_of_mem_right hargs himage
    exact hreduct.built

theorem reduct_object (hresult : result.hasSort "Ob" = true) (hsort : sort = "Ob") :
    Reduct free k (.expr head args typeArgs sort) result := by
  obtain ⟨hmapped, hbuilt⟩ := mapped_node typeArgs hname hargs hcall
  refine ⟨hmapped, hbuilt, fun _ => isExpr_of_hasSort hresult, fun _ => hresult, ?_⟩
  subst hsort
  intro hmorphism
  cases hmorphism

theorem reduct_morphism (hresult : BetweenObjects result) (hsort : sort = "Hom") :
    Reduct free k (.expr head args typeArgs sort) result := by
  obtain ⟨hmapped, hbuilt⟩ := mapped_node typeArgs hname hargs hcall
  have hexpr : result.isExpr = true := by
    obtain ⟨source, target, hmorphism, -⟩ := hresult
    exact isExpr_of_hasSort hmorphism.hasSort
  refine ⟨hmapped, hbuilt, fun _ => hexpr, ?_, fun _ => hresult⟩
  subst hsort
  intro hobject
  cases hobject

end Nodes

theorem betweenObjects_reducedComposite {f g source target : Value}
    (hf : BetweenObjects f) (hg : BetweenObjects g) (hsource : source.hasSort "Ob" = true)
    (htarget : target.hasSort "Ob" = true) :
    BetweenObjects (reducedComposite f g source target) := by
  unfold reducedComposite
  split
  · exact hg
  · split
    · exact hf
    · exact ⟨source, target, isMorphism_expr _ _ _ _, hsource, htarget⟩

theorem forall₂_singleton {R : Value → Value → Prop} {value : Value} {images : List Value}
    (h : List.Forall₂ R [value] images) : ∃ image, images = [image] ∧ R value image := by
  obtain ⟨image, rest, hhead, hrest, rfl⟩ := List.forall₂_cons_left_iff.mp h
  cases hrest
  exact ⟨image, rfl, hhead⟩

theorem forall₂_pair {R : Value → Value → Prop} {a b : Value} {images : List Value}
    (h : List.Forall₂ R [a, b] images) : ∃ a' b', images = [a', b'] ∧ R a a' ∧ R b b' := by
  obtain ⟨a', rest, hhead, hrest, rfl⟩ := List.forall₂_cons_left_iff.mp h
  obtain ⟨b', rfl, hb⟩ := forall₂_singleton hrest
  exact ⟨a', b', rfl, hhead, hb⟩

section Reduction

variable (hfree : Unital free) {args images typeArgs : List Value}
  (hargs : List.Forall₂ (Reduct free k) args images)

include hfree hargs

theorem exists_reduct_object
    (haccepts : Constructor.accepts ⟨objectType.generator, .generator⟩ args = true) :
    ∃ image, Reduct free k (.expr generatorHead args typeArgs "Ob") image := by
  obtain ⟨datum, rfl⟩ := List.length_eq_one_iff.mp ((Constructor.accepts_iff _ _).mp haccepts).1
  obtain ⟨datum', rfl, -⟩ := forall₂_singleton hargs
  exact ⟨_, reduct_object typeArgs rfl hargs
    (hfree.call_bare (by decide) (makes_object hfree.categorical datum')) rfl rfl⟩

theorem exists_reduct_morphism
    (haccepts : Constructor.accepts ⟨morphismType.generator, .generator⟩ args = true) :
    ∃ image, Reduct free k (.expr generatorHead args typeArgs "Hom") image := by
  obtain ⟨datum, source, target, rfl⟩ :=
    List.length_eq_three.mp ((Constructor.accepts_iff _ _).mp haccepts).1
  rw [accepts_morphism, Bool.and_eq_true] at haccepts
  obtain ⟨datum', rest, -, hrest, rfl⟩ := List.forall₂_cons_left_iff.mp hargs
  obtain ⟨source', target', rfl, hsource, htarget⟩ := forall₂_pair hrest
  have hsorts := hsource.object haccepts.1
  have hsortt := htarget.object haccepts.2
  exact ⟨_, reduct_morphism typeArgs rfl hargs
    (hfree.call_bare (by decide) (makes_morphism hfree.categorical datum' hsorts hsortt))
    ⟨source', target', isMorphism_expr _ _ _ _, hsorts, hsortt⟩ rfl⟩

theorem exists_reduct_composition
    (haccepts : Constructor.accepts ⟨composition, .compound⟩ args = true) :
    ∃ image, Reduct free k (.expr "compose" args typeArgs "Hom") image := by
  obtain ⟨f, g, rfl⟩ := List.length_eq_two.mp ((Constructor.accepts_iff _ _).mp haccepts).1
  rw [accepts_composition, Bool.and_eq_true] at haccepts
  obtain ⟨f', g', rfl, hf, hg⟩ := forall₂_pair hargs
  have hfObjects := hf.morphism haccepts.1
  have hgObjects := hg.morphism haccepts.2
  obtain ⟨source, middle, hfMorphism, hsource, -⟩ := id hfObjects
  obtain ⟨middle', target, hgMorphism, -, htarget⟩ := id hgObjects
  exact ⟨_, reduct_morphism typeArgs rfl hargs (hfree.call_composite hfMorphism hgMorphism)
    (betweenObjects_reducedComposite hfObjects hgObjects hsource htarget) rfl⟩

theorem exists_reduct_objectTensor (hmonoidal : Monoidal free.theory)
    (haccepts : Constructor.accepts ⟨objectTensor, .compound⟩ args = true) :
    ∃ image, Reduct free k (.expr "otimes" args typeArgs "Ob") image := by
  obtain ⟨left, right, rfl⟩ := List.length_eq_two.mp ((Constructor.accepts_iff _ _).mp haccepts).1
  rw [accepts_objectTensor, Bool.and_eq_true] at haccepts
  obtain ⟨left', right', rfl, hleft, hright⟩ := forall₂_pair hargs
  have hsortl := hleft.object haccepts.1
  have hsortr := hright.object haccepts.2
  exact ⟨_, reduct_object typeArgs rfl hargs (hfree.call_tensor hmonoidal hsortl hsortr)
    (hasSort_reducedTensor hsortl hsortr) rfl⟩

theorem exists_reduct_morphismTensor (hmonoidal : Monoidal free.theory)
    (haccepts : Constructor.accepts ⟨morphismTensor, .compound⟩ args = true) :
    ∃ image, Reduct free k (.expr "otimes" args typeArgs "Hom") image := by
  obtain ⟨f, g, rfl⟩ := List.length_eq_two.mp ((Constructor.accepts_iff _ _).mp haccepts).1
  rw [accepts_morphismTensor, Bool.and_eq_true] at haccepts
  obtain ⟨f', g', rfl, hf, hg⟩ := forall₂_pair hargs
  obtain ⟨a, b, hfMorphism, ha, hb⟩ := hf.morphism haccepts.1
  obtain ⟨c, d, hgMorphism, hc, hd⟩ := hg.morphism haccepts.2
  exact ⟨_, reduct_morphism typeArgs rfl hargs
    (hfree.call_tensorOfMorphisms hmonoidal hfMorphism hgMorphism ha hb hc hd)
    ⟨_, _, isMorphism_expr _ _ _ _, hasSort_reducedTensor ha hc, hasSort_reducedTensor hb hd⟩ rfl⟩

theorem exists_reduct_unit (hmonoidal : Monoidal free.theory)
    (haccepts : Constructor.accepts ⟨monoidalUnit, .compound⟩ args = true) :
    ∃ image, Reduct free k (.expr "munit" args typeArgs "Ob") image := by
  obtain rfl := List.length_eq_zero_iff.mp ((Constructor.accepts_iff _ _).mp haccepts).1
  cases hargs
  exact ⟨_, reduct_object typeArgs rfl .nil
    (hfree.call_bare (by decide) (makes_monoidalUnit hmonoidal)) rfl rfl⟩

theorem exists_reduct_overObjects {c : TermConstructor} (hc : OverObjects free c)
    (hname : c.name ≠ generatorHead)
    (haccepts : Constructor.accepts ⟨c, .compound⟩ args = true) :
    ∃ image, Reduct free k (.expr c.name args typeArgs "Hom") image := by
  obtain ⟨hlength, hsorts⟩ := (hc.accepts_iff .compound args).mp haccepts
  have himages : ∀ image ∈ images, image.hasSort "Ob" = true := by
    intro image himage
    obtain ⟨arg, harg, hreduct⟩ := exists_of_mem_right hargs himage
    exact hreduct.object (hsorts arg harg)
  obtain ⟨result, hcall, hresult⟩ :=
    hc.call hfree.makesObjects (hargs.length_eq ▸ hlength) himages k
  exact ⟨result, reduct_morphism typeArgs (if_neg hname) hargs hcall hresult rfl⟩

end Reduction

theorem Systematic.exists_reduct (hfree : Systematic free) (k : Nat) {n : Nat} {value : Value}
    (h : (calculusOf free.theory).Genuine n value) : ∃ image, Reduct free k value image := by
  induction h with
  | @datum value h => exact ⟨value, reduct_datum h⟩
  | @expr m constructor args typeArgs hm hbuilds _ _ ih _ =>
    -- Nothing is asked of the type arguments: the free calculus computes them anew.
    obtain ⟨images, hargs⟩ := exists_forall₂ ih
    obtain ⟨hmem, haccepts⟩ := resolve_eq_ok hbuilds.resolve
    have hunital := hfree.toUnital
    rcases mem_overloads.mp hmem with ⟨c, hc, -, rfl⟩ | ⟨t, ht, -, rfl⟩
    · rcases hfree.familiar c hc hbuilds.definition? with
        rfl | ⟨hmonoidal, rfl | rfl | rfl⟩ | hobjects
      · exact exists_reduct_composition hunital hargs haccepts
      · exact exists_reduct_objectTensor hunital hargs hmonoidal haccepts
      · exact exists_reduct_morphismTensor hunital hargs hmonoidal haccepts
      · exact exists_reduct_unit hunital hargs hmonoidal haccepts
      · have hname := hfree.simplifying.accepted.consistent.term_ne_generator c hc
        have hsort : Constructor.sort ⟨c, .compound⟩ = "Hom" := by
          rw [Constructor.sort, hobjects.sort]
          rfl
        rw [hsort]
        exact exists_reduct_overObjects hunital hargs hobjects hname haccepts
    · rcases hunital.categorical.mem_types_iff.mp ht with rfl | rfl
      · exact exists_reduct_object hunital hargs haccepts
      · exact exists_reduct_morphism hunital hargs haccepts

section Instances

theorem overObjects_identity (h : Categorical free.theory)
    (hbare : free.overrides.get? "id" = none) : OverObjects free identity where
  definition? := rfl
  bare := hbare
  not_accessor := h.not_accessor (by decide) (by decide)
  overloads := overloads_identity h
  paramSorts := rfl
  sort := rfl
  expanded := by
    refine ⟨a, a, ?_, .var (by decide), .var (by decide)⟩
    rw [h.expandedResult]
    cbv

theorem familiar_categorical (h : Categorical free.theory)
    (hbare : free.overrides.get? "id" = none) {c : TermConstructor}
    (hc : c ∈ Standard.category.terms) : Familiar free c := by
  have hc' : c ∈ [identity, composition] := hc
  simp only [List.mem_cons, List.not_mem_nil, or_false] at hc'
  rcases hc' with rfl | rfl
  · exact .inr (.inr (overObjects_identity h hbare))
  · exact .inl rfl

theorem familiar_monoidal (hmonoidal : Monoidal free.theory)
    (hbare : free.overrides.get? "id" = none) {c : TermConstructor}
    (hc : c ∈ Standard.monoidal.terms) : Familiar free c := by
  have hc' : c ∈ Standard.category.terms ++ [objectTensor, morphismTensor, monoidalUnit] := hc
  rcases List.mem_append.mp hc' with hcategory | htensor
  · exact familiar_categorical hmonoidal.toCategorical hbare hcategory
  · simp only [List.mem_cons, List.not_mem_nil, or_false] at htensor
    exact .inr (.inl ⟨hmonoidal, htensor⟩)

theorem overloads_cartesian (htheory : free.theory = Standard.cartesian) {c : TermConstructor}
    (hc : c ∈ Standard.cartesian.terms.drop 5) : free.overloads c.name = [⟨c, .compound⟩] := by
  have hc' : c ∈ [_, _, _, pair, _, _] := hc
  simp only [List.mem_cons, List.not_mem_nil, or_false] at hc'
  rw [Calculus.overloads, htheory]
  rcases hc' with rfl | rfl | rfl | rfl | rfl | rfl <;> rfl

/-- Braiding, copying, deleting and the projections go between products of their parameters. -/
theorem familiar_cartesian (hmonoidal : Monoidal free.theory) {c : TermConstructor}
    (hc : c ∈ Standard.cartesian.terms.drop 5) (hdefinition : c.definition? = none)
    (hbare : free.overrides.get? c.name = none)
    (hoverloads : free.overloads c.name = [⟨c, .compound⟩]) : Familiar free c := by
  have hexpanded := hmonoidal.toCategorical.expandedResult c
  have ha : ObjectTerm free.theory ["A"] a := .var (by decide)
  have hleft : ObjectTerm free.theory ["A", "B"] a := .var (by decide)
  have hright : ObjectTerm free.theory ["A", "B"] b := .var (by decide)
  have haccessor (hdom : c.name ≠ "dom") (hcodom : c.name ≠ "codom") :
      free.theory.isAccessor c.name = false := hmonoidal.not_accessor hdom hcodom
  have hc' : c ∈ [_, _, _, pair, _, _] := hc
  simp only [List.mem_cons, List.not_mem_nil, or_false] at hc'
  refine .inr (.inr ?_)
  rcases hc' with rfl | rfl | rfl | rfl | rfl | rfl
  · exact ⟨rfl, hbare, haccessor (by decide) (by decide), hoverloads, rfl, rfl, tensor a b,
      tensor b a, by rw [hexpanded]; cbv, .tensor hmonoidal hleft hright,
      .tensor hmonoidal hright hleft⟩
  · exact ⟨rfl, hbare, haccessor (by decide) (by decide), hoverloads, rfl, rfl, a, tensor a a,
      by rw [hexpanded]; cbv, ha, .tensor hmonoidal ha ha⟩
  · exact ⟨rfl, hbare, haccessor (by decide) (by decide), hoverloads, rfl, rfl, a, unit,
      by rw [hexpanded]; cbv, ha, .unit hmonoidal⟩
  · cases hdefinition
  · exact ⟨rfl, hbare, haccessor (by decide) (by decide), hoverloads, rfl, rfl, tensor a b, a,
      by rw [hexpanded]; cbv, .tensor hmonoidal hleft hright, hleft⟩
  · exact ⟨rfl, hbare, haccessor (by decide) (by decide), hoverloads, rfl, rfl, tensor a b, b,
      by rw [hexpanded]; cbv, .tensor hmonoidal hleft hright, hright⟩

theorem systematic_category : Systematic category where
  toUnital := unital_category
  simplifying := simplifying_category
  familiar _ hc _ := familiar_categorical categorical_category rfl hc

theorem systematic_monoidal : Systematic monoidal where
  toUnital := unital_monoidal
  simplifying := simplifying_monoidal
  familiar _ hc _ := familiar_monoidal monoidal_monoidal rfl hc

theorem systematic_cartesian : Systematic cartesian where
  toUnital := unital_cartesian
  simplifying := simplifying_cartesian
  familiar := by
    intro c hc hdefinition
    have hc' : c ∈ Standard.monoidal.terms ++ Standard.cartesian.terms.drop 5 := hc
    rcases List.mem_append.mp hc' with hmonoidal | hobjects
    · exact familiar_monoidal monoidal_cartesian rfl hmonoidal
    · have hbare : ∀ c ∈ Standard.cartesian.terms.drop 5,
          cartesian.overrides.get? c.name = none := by decide
      exact familiar_cartesian monoidal_cartesian hobjects hdefinition (hbare c hobjects)
        (overloads_cartesian rfl hobjects)

/-- The free calculi, each with the calculus of its theory that does not simplify. -/
theorem systematic_of_mem (h : free ∈ [category, monoidal, cartesian]) :
    Systematic free ∧ (calculusOf free.theory).Plain := by
  simp only [List.mem_cons, List.not_mem_nil, or_false] at h
  rcases h with rfl | rfl | rfl
  · exact ⟨systematic_category, plain_category⟩
  · exact ⟨systematic_monoidal, plain_monoidal⟩
  · exact ⟨systematic_cartesian, plain_cartesian⟩

end Instances

end Free

namespace Calculus

open Standard

/-- A calculus without overrides, and each free calculus, rebuilds an expression that it built as it
stands. An expression that was built without simplification the free calculus of its theory turns
into one that it could have built itself, and leaves alone from then on. -/
theorem functor_rebuilds :
    (∀ calculus : Calculus,
      calculus.Plain ∨ calculus ∈ [Free.category, Free.monoidal, Free.cartesian] →
      ∀ (n : Nat) (value : Value), (calculus.algebra n).Built value → value.isExpr = true →
        (calculus.algebra n).functor [] .empty value = .ok value) ∧
    (∀ free ∈ [Free.category, Free.monoidal, Free.cartesian],
      ∀ (m n : Nat) (value : Value), ((calculusOf free.theory).algebra m).Built value →
        value.isExpr = true →
        ∃ image, (free.algebra (n + 2)).functor [] .empty value = .ok image ∧
          (free.algebra (n + 2)).Built image ∧
          (free.algebra (n + 2)).functor [] .empty image = .ok image) := by
  constructor
  · intro calculus hcalculus n value hbuilt hexpr
    have simplifying : calculus.Simplifying :=
      hcalculus.elim Plain.simplifying fun hmem => (Free.systematic_of_mem hmem).1.simplifying
    rw [← mapped_expr hexpr]
    exact simplifying.mapped_self hbuilt
  · intro free hmem m n value hbuilt hexpr
    obtain ⟨hfree, plain⟩ := Free.systematic_of_mem hmem
    obtain ⟨image, himage⟩ := hfree.exists_reduct n (plain.genuine_of_built hbuilt)
    refine ⟨image, ?_, himage.built, ?_⟩
    · rw [← mapped_expr hexpr]
      exact himage.mapped
    · rw [← mapped_expr (himage.isExpr hexpr)]
      exact hfree.simplifying.mapped_self himage.built

/-- An identity composed with a loop, in the calculus of categories and in the free category. -/
theorem functor_rebuilds_composite :
    let object := objectOf (.str "A")
    let loop := morphismOf (.str "f") object object
    let composite := compositeOf (identityOn object) loop object object
    ((calculusOf category).algebra 2).functor [] .empty composite = .ok composite ∧
      (Free.category.algebra 2).functor [] .empty loop = .ok loop ∧
      ∃ image, (Free.category.algebra 2).functor [] .empty composite = .ok image ∧
        (Free.category.algebra 2).Built image ∧
        (Free.category.algebra 2).functor [] .empty image = .ok image := by
  intro object loop composite
  have hobject : ((calculusOf category).algebra 2).Built object :=
    built_object categorical_category rfl "A" 1
  have hloop := built_morphism categorical_category rfl hobject hobject rfl rfl "f"
  have hidentity : ((calculusOf category).algebra 2).Built (identityOn object) :=
    (makes_identity categorical_category rfl).built rfl (List.forall_mem_singleton.mpr hobject)
  have hcomposite : ((calculusOf category).algebra 2).Built composite :=
    (makes_composition categorical_category (reads_algebra categorical_category 0)
      (isMorphism_expr _ _ _ _) (isMorphism_expr _ _ _ _)).built rfl
      (List.forall_mem_cons.mpr ⟨hidentity, List.forall_mem_singleton.mpr hloop⟩)
  have hfreeObject : (Free.category.algebra 2).Built object :=
    built_object categorical_category rfl "A" 1
  have hfreeLoop := built_morphism categorical_category rfl hfreeObject hfreeObject rfl rfl "f"
  exact ⟨functor_rebuilds.1 _ (.inl plain_category) 2 composite hcomposite rfl,
    functor_rebuilds.1 _ (.inr (by simp)) 2 loop hfreeLoop rfl,
    functor_rebuilds.2 Free.category (by simp) 2 0 composite hcomposite rfl⟩

end Calculus
end TermAlgebra
