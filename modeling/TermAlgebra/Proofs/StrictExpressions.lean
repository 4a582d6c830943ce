import TermAlgebra.Proofs.EqualValues
import TermAlgebra.Proofs.HeldEquations
import TermAlgebra.Proofs.StandardExpressions

/-!
What the calculi of categories and of monoidal categories build when their constructors are called
strictly. Such an expression is an object or a morphism, its parts are built in the same way, and a
composite joins two morphisms that meet at equal objects.
-/
namespace TermAlgebra.Calculus

open Outcome Standard

section Discipline

variable (calculus : Calculus) (data : Value → Prop)

/-- Generators wrap certain data, and all other constructors are called strictly. -/
def Strictly (name : String) (args : List Value) (strict? : Option Bool) : Prop :=
  calculus.theory.isAccessor name = true ∨
    match calculus.theory.type? name with
    | some _ => ∃ datum params, args = datum :: params ∧ data datum
    | none => strict? = some true

def StrictlyBuilt (value : Value) : Prop :=
  ∃ n, (calculus.algebra n).BuiltBy (calculus.Strictly data) value

inductive StrictObject : Value → Prop
  | generator {datum} (hbuilt : calculus.StrictlyBuilt data (objectOf datum))
      (hdatum : data datum) : StrictObject (objectOf datum)
  | tensor {left right} (hmonoidal : Monoidal calculus.theory)
      (hbuilt : calculus.StrictlyBuilt data (tensorOfObjects left right))
      (hleft : StrictObject left) (hright : StrictObject right) :
      StrictObject (tensorOfObjects left right)
  | unit (hmonoidal : Monoidal calculus.theory) (hbuilt : calculus.StrictlyBuilt data unitObject) :
      StrictObject unitObject

/-- The objects at which a composite joins its parts are equal, but need not be identical. -/
inductive StrictMorphism : (source target value : Value) → Prop
  | generator {datum source target}
      (hbuilt : calculus.StrictlyBuilt data (morphismOf datum source target)) (hdatum : data datum)
      (hsource : calculus.StrictObject data source) (htarget : calculus.StrictObject data target) :
      StrictMorphism source target (morphismOf datum source target)
  | identity {object} (hbuilt : calculus.StrictlyBuilt data (identityOn object))
      (hobject : calculus.StrictObject data object) :
      StrictMorphism object object (identityOn object)
  | composite {source middle middle' target f g}
      (hbuilt : calculus.StrictlyBuilt data (compositeOf f g source target))
      (hf : StrictMorphism source middle f) (hg : StrictMorphism middle' target g)
      (hmiddle : Value.Same middle middle') :
      StrictMorphism source target (compositeOf f g source target)
  | tensor {a b c d f g} (hmonoidal : Monoidal calculus.theory)
      (hbuilt : calculus.StrictlyBuilt data
        (tensorOfMorphisms f g (tensorOfObjects a c) (tensorOfObjects b d)))
      (hf : StrictMorphism a b f) (hg : StrictMorphism c d g) :
      StrictMorphism (tensorOfObjects a c) (tensorOfObjects b d)
        (tensorOfMorphisms f g (tensorOfObjects a c) (tensorOfObjects b d))

/-- A plain calculus with the constructors of categories, and no others but those of monoidal
categories. -/
structure AtMostMonoidal : Prop extends calculus.Plain where
  categorical : Categorical calculus.theory
  names : ∀ {name constructor}, constructor ∈ calculus.overloads name →
    name ∈ ["Ob", "Hom", "id", "compose"] ∨
      Monoidal calculus.theory ∧ name ∈ ["otimes", "munit"]

end Discipline

variable {calculus : Calculus} {data : Value → Prop}

theorem Plain.atMostMonoidal (plain : calculus.Plain)
    (htheory : calculus.theory = category ∨ calculus.theory = monoidal) :
    calculus.AtMostMonoidal where
  toPlain := plain
  categorical := by
    rcases htheory with htheory | htheory
    · rw [htheory]
      exact categorical_category
    · rw [htheory]
      exact monoidal_monoidal.toCategorical
  names := by
    intro name constructor h
    rcases htheory with htheory | htheory
    · left
      rcases mem_overloads.mp h with ⟨c, hc, rfl, -⟩ | ⟨t, ht, rfl, -⟩
      · simp only [htheory, category, List.mem_cons, List.not_mem_nil, or_false] at hc
        rcases hc with rfl | rfl <;> decide
      · simp only [htheory, category, List.mem_cons, List.not_mem_nil, or_false] at ht
        rcases ht with rfl | rfl <;> decide
    · rcases mem_overloads.mp h with ⟨c, hc, rfl, -⟩ | ⟨t, ht, rfl, -⟩
      · have hterms : monoidal.terms =
            [identity, composition, objectTensor, morphismTensor, monoidalUnit] := rfl
        simp only [htheory, hterms, List.mem_cons, List.not_mem_nil, or_false] at hc
        rcases hc with rfl | rfl | rfl | rfl | rfl
        · exact Or.inl (by decide)
        · exact Or.inl (by decide)
        · exact Or.inr ⟨htheory ▸ monoidal_monoidal, by decide⟩
        · exact Or.inr ⟨htheory ▸ monoidal_monoidal, by decide⟩
        · exact Or.inr ⟨htheory ▸ monoidal_monoidal, by decide⟩
      · rw [htheory] at ht
        rcases monoidal_monoidal.mem_types_iff.mp ht with rfl | rfl <;> exact Or.inl (by decide)

section Parts

theorem StrictlyBuilt.access (h : Categorical calculus.theory) {source target value : Value}
    (hbuilt : calculus.StrictlyBuilt data value) (hvalue : IsMorphism source target value) :
    calculus.StrictlyBuilt data source ∧ calculus.StrictlyBuilt data target := by
  obtain ⟨n, hbuilt⟩ := hbuilt
  have hpositive : ∃ m, n = m + 1 := by
    cases hbuilt with
    | datum hdatum =>
      have hsort := hvalue.hasSort
      cases value <;> simp_all [Value.isExpr, Value.hasSort]
    | call _ _ hcall =>
      cases n with
      | zero => cases hcall
      | succ m => exact ⟨m, rfl⟩
  obtain ⟨m, rfl⟩ := hpositive
  obtain ⟨hsource, htarget⟩ := reads_algebra h m hvalue
  have harg : ∀ arg ∈ [value], (calculus.algebra (m + 1)).BuiltBy (calculus.Strictly data) arg := by
    simpa using hbuilt
  have hdom : calculus.Strictly data "dom" [value] none :=
    Or.inl ((h.isAccessor_iff _).mpr (Or.inl rfl))
  have hcodom : calculus.Strictly data "codom" [value] none :=
    Or.inl ((h.isAccessor_iff _).mpr (Or.inr rfl))
  exact ⟨⟨m + 1, .call harg hdom (congrArg Outcome.result hsource)⟩,
    ⟨m + 1, .call harg hcodom (congrArg Outcome.result htarget)⟩⟩

theorem StrictObject.built {object : Value} (h : calculus.StrictObject data object) :
    calculus.StrictlyBuilt data object := by
  cases h with
  | generator hbuilt _ => exact hbuilt
  | tensor _ hbuilt _ _ => exact hbuilt
  | unit _ hbuilt => exact hbuilt

theorem StrictObject.hasSort {object : Value} (h : calculus.StrictObject data object) :
    object.hasSort "Ob" = true := by
  cases h <;> rfl

theorem StrictObject.isExpr {object : Value} (h : calculus.StrictObject data object) :
    object.isExpr = true := by
  cases h <;> rfl

theorem StrictObject.regular (hdata : ∀ datum, data datum → datum.isText = true) {object : Value}
    (h : calculus.StrictObject data object) : Value.Regular object := by
  induction h with
  | @generator datum _ hdatum =>
    have htext := hdata _ hdatum
    cases datum with
    | text characters symbolic =>
      exact .expr (by simpa using .text characters symbolic) (by simp)
    | _ => cases htext
  | tensor _ _ _ _ hleft hright => exact .expr (by simpa using ⟨hleft, hright⟩) (by simp)
  | unit => exact .expr (by simp) (by simp)

theorem StrictMorphism.built {source target value : Value}
    (h : calculus.StrictMorphism data source target value) :
    calculus.StrictlyBuilt data value := by
  cases h with
  | generator hbuilt _ _ _ => exact hbuilt
  | identity hbuilt _ => exact hbuilt
  | composite hbuilt _ _ _ => exact hbuilt
  | tensor _ hbuilt _ _ => exact hbuilt

theorem StrictMorphism.isMorphism {source target value : Value}
    (h : calculus.StrictMorphism data source target value) : IsMorphism source target value := by
  cases h <;> exact isMorphism_expr _ _ _ _

theorem StrictMorphism.isExpr {source target value : Value}
    (h : calculus.StrictMorphism data source target value) : value.isExpr = true := by
  cases h <;> rfl

theorem StrictMorphism.objects (h : Categorical calculus.theory) {source target value : Value}
    (hvalue : calculus.StrictMorphism data source target value) :
    calculus.StrictObject data source ∧ calculus.StrictObject data target := by
  induction hvalue with
  | generator _ _ hsource htarget => exact ⟨hsource, htarget⟩
  | identity _ hobject => exact ⟨hobject, hobject⟩
  | composite _ _ _ _ ihf ihg => exact ⟨ihf.1, ihg.2⟩
  | tensor hmonoidal hbuilt _ _ ihf ihg =>
    obtain ⟨hsource, htarget⟩ := hbuilt.access h (isMorphism_expr _ _ _ _)
    exact ⟨.tensor hmonoidal hsource ihf.1 ihg.1, .tensor hmonoidal htarget ihf.2 ihg.2⟩

end Parts

section Inversion

variable {n : Nat} {name : String} {args : List Value} {strict? : Option Bool} {result : Value}

/-- A call of a plain calculus gives no other expression than the one its name stands for. -/
theorem Plain.result_of_makes (plain : calculus.Plain) {value : Value}
    (h : (calculus.algebra (n + 1)).invoke name args strict? = .ok result)
    (hmakes : Makes calculus (calculus.algebra (n + 1)) name args value) : result = value := by
  have hcall := plain.call_of_yields (plain.yields_of_invoke h)
  have hmore := plain.call_mono (Nat.le_succ (n + 1)) hcall
  rw [hmakes.call (plain.bare name), ok_eq_ok_iff] at hmore
  exact hmore.symm

/-- A name with a single overload leaves no choice of the constructor. -/
theorem Plain.checked_of_overload (plain : calculus.Plain) {constructor : Constructor}
    (haccessor : calculus.theory.isAccessor name = false)
    (hoverloads : calculus.overloads name = [constructor])
    (h : (calculus.algebra (n + 1)).invoke name args strict? = .ok result) :
    constructor.accepts args = true ∧ args.length = constructor.declaration.arity ∧
      (strict? = some true → (calculus.algebra n).validate constructor.declaration
        (constructor.declaration.domain calculus.theory) args = .ok ()) := by
  obtain ⟨found, hmem, haccepts, hpass⟩ := plain.checked_of_invoke haccessor h
  rw [hoverloads, List.mem_singleton] at hmem
  subst hmem
  exact ⟨haccepts, ((Constructor.accepts_iff _ _).mp haccepts).1, hpass⟩

variable (h : calculus.AtMostMonoidal)

include h in
theorem AtMostMonoidal.invoke_object
    (hinvoke : (calculus.algebra (n + 1)).invoke "Ob" args strict? = .ok result) :
    ∃ datum, args = [datum] ∧ result = objectOf datum := by
  obtain ⟨-, hlength, -⟩ := h.checked_of_overload
    (h.categorical.not_accessor (by decide) (by decide)) (overloads_object h.categorical) hinvoke
  obtain ⟨datum, rfl⟩ := List.length_eq_one_iff.mp hlength
  exact ⟨datum, rfl, h.result_of_makes hinvoke (makes_object h.categorical datum)⟩

include h in
theorem AtMostMonoidal.invoke_morphism
    (hinvoke : (calculus.algebra (n + 1)).invoke "Hom" args strict? = .ok result) :
    ∃ datum source target, args = [datum, source, target] ∧ source.hasSort "Ob" = true ∧
      target.hasSort "Ob" = true ∧ result = morphismOf datum source target := by
  obtain ⟨haccepts, hlength, -⟩ := h.checked_of_overload
    (h.categorical.not_accessor (by decide) (by decide)) (overloads_morphism h.categorical) hinvoke
  obtain ⟨datum, source, target, rfl⟩ := List.length_eq_three.mp hlength
  rw [accepts_morphism, Bool.and_eq_true] at haccepts
  obtain ⟨hsource, htarget⟩ := haccepts
  exact ⟨datum, source, target, rfl, hsource, htarget,
    h.result_of_makes hinvoke (makes_morphism h.categorical datum hsource htarget)⟩

include h in
theorem AtMostMonoidal.invoke_identity
    (hinvoke : (calculus.algebra (n + 1)).invoke "id" args strict? = .ok result) :
    ∃ object, args = [object] ∧ object.hasSort "Ob" = true ∧ result = identityOn object := by
  obtain ⟨haccepts, hlength, -⟩ := h.checked_of_overload
    (h.categorical.not_accessor (by decide) (by decide)) (overloads_identity h.categorical) hinvoke
  obtain ⟨object, rfl⟩ := List.length_eq_one_iff.mp hlength
  rw [accepts_identity] at haccepts
  exact ⟨object, rfl, haccepts, h.result_of_makes hinvoke (makes_identity h.categorical haccepts)⟩

include h in
/-- The domain of composition compares the objects at which the two morphisms meet. -/
theorem AtMostMonoidal.same_of_validate {source middle middle' target f g : Value}
    (hf : IsMorphism source middle f) (hg : IsMorphism middle' target g)
    (hpass : (calculus.algebra n).validate composition (composition.domain calculus.theory) [f, g] =
      .ok ()) : Value.Same middle middle' := by
  have hdomain : composition.domain calculus.theory =
      [⟨.app "codom" [.var "f"], .app "dom" [.var "g"]⟩] := by
    rw [h.categorical.domain]
    cbv
  rw [hdomain] at hpass
  obtain ⟨lhs, rhs, hlhs, hrhs, hequal⟩ :=
    Algebra.holds_of_validate (h.silent n) hpass _ List.mem_cons_self
  have henvf : Environment.ofArgs composition.params [f, g] "f" = some f := rfl
  have henvg : Environment.ofArgs composition.params [f, g] "g" = some g := rfl
  rw [Algebra.evaluate_app_one (Algebra.evaluate_var henvf)] at hlhs
  rw [Algebra.evaluate_app_one (Algebra.evaluate_var henvg)] at hrhs
  have hmiddle := h.call_mono (Nat.le_succ n) hlhs
  rw [(reads_algebra h.categorical n hf).2, ok_eq_ok_iff] at hmiddle
  have hmiddle' := h.call_mono (Nat.le_succ n) hrhs
  rw [(reads_algebra h.categorical n hg).1, ok_eq_ok_iff] at hmiddle'
  rw [hmiddle, hmiddle']
  exact Value.same_of_equal hequal

include h in
theorem AtMostMonoidal.invoke_composition
    (hinvoke : (calculus.algebra (n + 1)).invoke "compose" args (some true) = .ok result) :
    ∃ f g, args = [f, g] ∧ f.hasSort "Hom" = true ∧ g.hasSort "Hom" = true ∧
      ∀ {source middle middle' target}, IsMorphism source middle f →
        IsMorphism middle' target g →
        result = compositeOf f g source target ∧ Value.Same middle middle' := by
  obtain ⟨haccepts, hlength, hpass⟩ := h.checked_of_overload
    (h.categorical.not_accessor (by decide) (by decide)) (overloads_composition h.categorical)
    hinvoke
  obtain ⟨f, g, rfl⟩ := List.length_eq_two.mp hlength
  rw [accepts_composition, Bool.and_eq_true] at haccepts
  obtain ⟨hfsort, hgsort⟩ := haccepts
  refine ⟨f, g, rfl, hfsort, hgsort, fun hf hg => ⟨?_, h.same_of_validate hf hg (hpass rfl)⟩⟩
  exact h.result_of_makes hinvoke
    (makes_composition h.categorical (reads_algebra h.categorical n) hf hg)

include h in
/-- The products of objects and of morphisms are told apart by the sorts of the arguments. -/
theorem AtMostMonoidal.invoke_tensor (hmonoidal : Monoidal calculus.theory)
    (hinvoke : (calculus.algebra (n + 1)).invoke "otimes" args strict? = .ok result) :
    ∃ left right, args = [left, right] ∧
      (left.hasSort "Ob" = true ∧ right.hasSort "Ob" = true ∧ result = tensorOfObjects left right ∨
        left.hasSort "Hom" = true ∧ right.hasSort "Hom" = true ∧ ∀ {a b c d},
          calculus.StrictMorphism data a b left → calculus.StrictMorphism data c d right →
          result = tensorOfMorphisms left right (tensorOfObjects a c) (tensorOfObjects b d)) := by
  obtain ⟨constructor, hmem, haccepts, -⟩ := h.checked_of_invoke
    (h.categorical.not_accessor (by decide) (by decide)) hinvoke
  rw [overloads_tensor hmonoidal, List.mem_pair] at hmem
  rcases hmem with rfl | rfl
  · obtain ⟨left, right, rfl⟩ :=
      List.length_eq_two.mp ((Constructor.accepts_iff _ _).mp haccepts).1
    rw [accepts_objectTensor, Bool.and_eq_true] at haccepts
    obtain ⟨hleft, hright⟩ := haccepts
    exact ⟨left, right, rfl, Or.inl ⟨hleft, hright,
      h.result_of_makes hinvoke (makes_objectTensor hmonoidal hleft hright)⟩⟩
  · obtain ⟨f, g, rfl⟩ := List.length_eq_two.mp ((Constructor.accepts_iff _ _).mp haccepts).1
    rw [accepts_morphismTensor, Bool.and_eq_true] at haccepts
    obtain ⟨hfsort, hgsort⟩ := haccepts
    refine ⟨f, g, rfl, Or.inr ⟨hfsort, hgsort, fun {a b c d} hf hg => ?_⟩⟩
    have hproduct {x y : Value} (hx : x.hasSort "Ob" = true) (hy : y.hasSort "Ob" = true) :
        (calculus.algebra (n + 1)).call "otimes" [x, y] = .ok (tensorOfObjects x y) :=
      (makes_objectTensor hmonoidal hx hy).call (h.bare _)
    have hfobjects := hf.objects h.categorical
    have hgobjects := hg.objects h.categorical
    exact h.result_of_makes hinvoke (makes_morphismTensor hmonoidal
      (reads_algebra h.categorical n) hf.isMorphism hg.isMorphism
      (hproduct hfobjects.1.hasSort hgobjects.1.hasSort)
      (hproduct hfobjects.2.hasSort hgobjects.2.hasSort))

include h in
theorem AtMostMonoidal.invoke_unit (hmonoidal : Monoidal calculus.theory)
    (hinvoke : (calculus.algebra (n + 1)).invoke "munit" args strict? = .ok result) :
    args = [] ∧ result = unitObject := by
  obtain ⟨-, hlength, -⟩ := h.checked_of_overload
    (h.categorical.not_accessor (by decide) (by decide)) (overloads_monoidalUnit hmonoidal) hinvoke
  obtain rfl := List.length_eq_zero_iff.mp hlength
  exact ⟨rfl, h.result_of_makes hinvoke (makes_monoidalUnit hmonoidal)⟩

include h in
theorem AtMostMonoidal.invoke_accessor (haccessor : calculus.theory.isAccessor name = true)
    (hinvoke : (calculus.algebra (n + 1)).invoke name args strict? = .ok result) :
    ∃ value, args = [value] ∧ value.hasSort "Hom" = true ∧ result ∈ value.typeArgs := by
  cases h.yields_of_invoke hinvoke with
  | @access _ value _ _ haccess =>
    obtain ⟨owner, hsort, hfind, hget⟩ := access_eq_ok_iff.mp haccess
    have howner : owner ∈ category.accessorOwners name := by
      have hmem := List.mem_of_find?_eq_some hfind
      rw [Theory.accessorOwners, Theory.accessorPlaces, h.categorical.types] at hmem
      exact hmem
    have hhom : owner.1 = "Hom" := by
      simp [Theory.accessorOwners, Theory.accessorPlaces, category, objectType, morphismType,
        List.zipIdx] at howner
      rcases howner with ⟨-, rfl⟩ | ⟨-, rfl⟩ <;> rfl
    rw [hhom] at hsort
    exact ⟨value, rfl, hsort, List.mem_of_getElem? hget⟩
  | define haccessor' _ _ _ =>
    rw [haccessor] at haccessor'
    cases haccessor'
  | build hbuilds =>
    have haccessor' := hbuilds.not_accessor
    rw [haccessor] at haccessor'
    cases haccessor'

end Inversion

section Cases

/-- The value is one of the objects or morphisms above. -/
def StrictExpression (calculus : Calculus) (data : Value → Prop) (value : Value) : Prop :=
  calculus.StrictObject data value ∨
    ∃ source target, calculus.StrictMorphism data source target value

theorem StrictExpression.object {value : Value} (h : calculus.StrictExpression data value)
    (hsort : value.hasSort "Ob" = true) : calculus.StrictObject data value := by
  rcases h with hobject | ⟨source, target, hmorphism⟩
  · exact hobject
  · rw [hmorphism.isMorphism.not_object] at hsort
    cases hsort

theorem StrictExpression.morphism {value : Value} (h : calculus.StrictExpression data value)
    (hsort : value.hasSort "Hom" = true) :
    ∃ source target, calculus.StrictMorphism data source target value := by
  rcases h with hobject | hmorphism
  · cases hobject <;> cases hsort
  · exact hmorphism

theorem isExpr_of_hasSort {sort : String} {value : Value} (h : value.hasSort sort = true) :
    value.isExpr = true := by
  cases value <;> simp_all [Value.hasSort, Value.isExpr]

/-- A constructor that is not a generator is called strictly. -/
theorem Strictly.strict (h : Categorical calculus.theory) {name : String} {args : List Value}
    {strict? : Option Bool} (hname : name ∈ ["id", "compose", "otimes", "munit"])
    (hstrictly : calculus.Strictly data name args strict?) : strict? = some true := by
  have haccessor := h.not_accessor (ne_of_mem_of_not_mem hname (by decide))
    (ne_of_mem_of_not_mem hname (by decide))
  have htype : calculus.theory.type? name = none := by
    rw [Theory.type?, h.types]
    simp only [List.mem_cons, List.not_mem_nil, or_false] at hname
    rcases hname with rfl | rfl | rfl | rfl <;> rfl
  rcases hstrictly with htrue | hstrict
  · rw [haccessor] at htrue
    cases htrue
  · rw [htype] at hstrict
    exact hstrict

/-- A generator wraps one of the data. -/
theorem Strictly.datum (h : Categorical calculus.theory) {name : String} {datum : Value}
    {params : List Value} {strict? : Option Bool} (hname : name ∈ ["Ob", "Hom"])
    (hstrictly : calculus.Strictly data name (datum :: params) strict?) : data datum := by
  have haccessor := h.not_accessor (ne_of_mem_of_not_mem hname (by decide))
    (ne_of_mem_of_not_mem hname (by decide))
  have htype : ∃ t, calculus.theory.type? name = some t := by
    rw [Theory.type?, h.types]
    simp only [List.mem_cons, List.not_mem_nil, or_false] at hname
    rcases hname with rfl | rfl
    · exact ⟨objectType, rfl⟩
    · exact ⟨morphismType, rfl⟩
  rcases hstrictly with htrue | hgenerator
  · rw [haccessor] at htrue
    cases htrue
  · obtain ⟨t, htype⟩ := htype
    rw [htype] at hgenerator
    obtain ⟨_, _, hargs, hdatum⟩ := hgenerator
    cases hargs
    exact hdatum

/-- One call: if the arguments are such expressions, so is the result. -/
theorem AtMostMonoidal.strictExpression_of_invoke (h : calculus.AtMostMonoidal) {n : Nat}
    {name : String} {args : List Value} {strict? : Option Bool} {result : Value}
    (hargs : ∀ arg ∈ args, arg.isExpr = true → calculus.StrictExpression data arg)
    (hstrictly : calculus.Strictly data name args strict?)
    (hbuilt : calculus.StrictlyBuilt data result)
    (hinvoke : (calculus.algebra (n + 1)).invoke name args strict? = .ok result) :
    calculus.StrictExpression data result := by
  have hobject {arg : Value} (harg : arg ∈ args) (hsort : arg.hasSort "Ob" = true) :
      calculus.StrictObject data arg :=
    (hargs arg harg (isExpr_of_hasSort hsort)).object hsort
  have hmorphism {arg : Value} (harg : arg ∈ args) (hsort : arg.hasSort "Hom" = true) :
      ∃ source target, calculus.StrictMorphism data source target arg :=
    (hargs arg harg (isExpr_of_hasSort hsort)).morphism hsort
  cases haccessor : calculus.theory.isAccessor name with
  | true =>
    obtain ⟨value, rfl, hsort, hmem⟩ := h.invoke_accessor haccessor hinvoke
    obtain ⟨source, target, hvalue⟩ := hmorphism List.mem_cons_self hsort
    obtain ⟨hsource, htarget⟩ := hvalue.objects h.categorical
    rw [hvalue.isMorphism.typeArgs, List.mem_pair] at hmem
    rcases hmem with rfl | rfl
    · exact Or.inl hsource
    · exact Or.inl htarget
  | false =>
    obtain ⟨constructor, hmem, -, -⟩ := h.checked_of_invoke haccessor hinvoke
    rcases h.names hmem with hname | ⟨hmonoidal, hname⟩
    · simp only [List.mem_cons, List.not_mem_nil, or_false] at hname
      rcases hname with rfl | rfl | rfl | rfl
      · obtain ⟨datum, rfl, rfl⟩ := h.invoke_object hinvoke
        exact Or.inl (.generator hbuilt (hstrictly.datum h.categorical (by decide)))
      · obtain ⟨datum, source, target, rfl, hsource, htarget, rfl⟩ := h.invoke_morphism hinvoke
        exact Or.inr ⟨source, target, .generator hbuilt
          (hstrictly.datum h.categorical (by decide)) (hobject (by simp) hsource)
          (hobject (by simp) htarget)⟩
      · obtain ⟨object, rfl, hsort, rfl⟩ := h.invoke_identity hinvoke
        exact Or.inr ⟨object, object, .identity hbuilt (hobject (by simp) hsort)⟩
      · obtain rfl := hstrictly.strict h.categorical (by decide)
        obtain ⟨f, g, rfl, hfsort, hgsort, hresult⟩ := h.invoke_composition hinvoke
        obtain ⟨source, middle, hf⟩ := hmorphism (by simp) hfsort
        obtain ⟨middle', target, hg⟩ := hmorphism (by simp) hgsort
        obtain ⟨rfl, hmiddle⟩ := hresult hf.isMorphism hg.isMorphism
        exact Or.inr ⟨source, target, .composite hbuilt hf hg hmiddle⟩
    · simp only [List.mem_cons, List.not_mem_nil, or_false] at hname
      rcases hname with rfl | rfl
      · obtain ⟨left, right, rfl, ⟨hleft, hright, rfl⟩ | ⟨hleft, hright, hresult⟩⟩ :=
          h.invoke_tensor hmonoidal hinvoke
        · exact Or.inl (.tensor hmonoidal hbuilt (hobject (by simp) hleft)
            (hobject (by simp) hright))
        · obtain ⟨a, b, hf⟩ := hmorphism (by simp) hleft
          obtain ⟨c, d, hg⟩ := hmorphism (by simp) hright
          obtain rfl := hresult hf hg
          exact Or.inr ⟨_, _, .tensor hmonoidal hbuilt hf hg⟩
      · obtain ⟨rfl, rfl⟩ := h.invoke_unit hmonoidal hinvoke
        exact Or.inl (.unit hmonoidal hbuilt)

/-- Whatever is built strictly is an object or a morphism. -/
theorem AtMostMonoidal.strictExpression_of_built (h : calculus.AtMostMonoidal) {value : Value}
    (hbuilt : calculus.StrictlyBuilt data value) (hexpr : value.isExpr = true) :
    calculus.StrictExpression data value := by
  obtain ⟨n, hbuilt⟩ := hbuilt
  induction hbuilt with
  | datum hdatum =>
    rw [hdatum] at hexpr
    cases hexpr
  | call hargs hstrictly hcall ih =>
    cases n with
    | zero => cases hcall
    | succ n =>
      exact h.strictExpression_of_invoke ih hstrictly ⟨n + 1, .call hargs hstrictly hcall⟩
        ((h.silent (n + 1) _ _ _).eq_ok hcall)

end Cases

end TermAlgebra.Calculus
