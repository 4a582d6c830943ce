import TermAlgebra.Algebra.Free
import TermAlgebra.Algebra.Operation
import TermAlgebra.Proofs.FunctorValues
import TermAlgebra.Proofs.StrictExpressions

/-!
What the functor into a free calculus makes of expressions that were built strictly. It drops
identities from composites and units from products, looking only at the heads of parts that it has
simplified before. The result has the same value as the expression in every algebra in which these
laws hold: what is dropped beside a morphism is the identity of an object equal to the one at which
the two meet, and the source and target of a simplified morphism are the simplified ones, up to
equality.
-/
namespace TermAlgebra

def Value.hasHead (head : String) : Value → Bool
  | .expr own _ _ _ => own = head
  | _ => false

theorem Value.isExpr_of_isText {value : Value} (h : value.isText = true) :
    value.isExpr = false := by
  cases value <;> simp_all [Value.isText, Value.isExpr]

namespace Free

open Outcome Standard Calculus

def reducedComposite (f g source target : Value) : Value :=
  if f.hasHead "id" then g else if g.hasHead "id" then f else compositeOf f g source target

def reducedTensor (left right : Value) : Value :=
  if left.hasHead "munit" then right else if right.hasHead "munit" then left
  else tensorOfObjects left right

/-- The object without the units in its products. -/
def reduceObject : Value → Value
  | .expr head [left, right] typeArgs sort =>
      if head = "otimes" then reducedTensor (reduceObject left) (reduceObject right)
      else .expr head [left, right] typeArgs sort
  | value => value

/-- The calculus has the constructors of categories, and composition applies the unit laws; so do
products of objects, if it is monoidal. -/
structure Unital (free : Calculus) : Prop where
  categorical : Categorical free.theory
  bare : ∀ name ∈ ["Ob", "Hom", "id", "munit"], free.overrides.get? name = none
  compose : free.overrides.get? "compose" = some composeUnits
  tensor : Monoidal free.theory → free.overrides.get? "otimes" = some tensorUnits

theorem unital_category : Unital category where
  categorical := categorical_category
  bare := by
    intro name hname
    simp only [List.mem_cons, List.not_mem_nil, or_false] at hname
    rcases hname with rfl | rfl | rfl | rfl <;> rfl
  compose := rfl
  tensor hmonoidal := by
    have hproducts := hmonoidal.products "munit" (by decide)
    cases hproducts

theorem unital_monoidal : Unital monoidal where
  categorical := monoidal_monoidal.toCategorical
  bare := by
    intro name hname
    simp only [List.mem_cons, List.not_mem_nil, or_false] at hname
    rcases hname with rfl | rfl | rfl | rfl <;> rfl
  compose := rfl
  tensor _ := rfl

section Calls

variable {free : Calculus} (hfree : Unital free) {k : Nat}

theorem form_of_hasSort {sort : String} {value : Value} (h : value.hasSort sort = true) :
    ∃ head, value.form = .ok (head, sort) ∧
      ∀ name, value.hasHead name = decide (head = name) := by
  cases value with
  | expr head args typeArgs own =>
    simp only [Value.hasSort, decide_eq_true_eq] at h
    subst h
    exact ⟨head, rfl, fun _ => rfl⟩
  | _ => cases h

include hfree in
theorem Unital.call_composite {f g source middle middle' target : Value}
    (hf : IsMorphism source middle f) (hg : IsMorphism middle' target g) :
    (free.algebra (k + 2)).call "compose" [f, g] = .ok (reducedComposite f g source target) := by
  have hmakes := makes_composition hfree.categorical (reads_algebra hfree.categorical k) hf hg
  have hbuild : (free.workshop (free.algebra (k + 1))).build "compose" [f, g] false =
      .ok (compositeOf f g source target) := hmakes.buildNamed
  obtain ⟨first, hfirst, hheadf⟩ := form_of_hasSort hf.hasSort
  obtain ⟨second, hsecond, hheadg⟩ := form_of_hasSort hg.hasSort
  rw [hmakes.call_override hfree.compose]
  simp only [composeUnits, hbuild, hfirst, hsecond, bind_eq, ok_bind, ofExcept_ok_bind, pure_eq,
    reducedComposite, hheadf, hheadg, decide_eq_true_eq]
  split
  · rfl
  · split <;> rfl

include hfree in
theorem Unital.call_bare {name : String} {args : List Value} {value : Value}
    (hname : name ∈ ["Ob", "Hom", "id", "munit"])
    (hmakes : Makes free (free.algebra k) name args value) :
    (free.algebra (k + 1)).call name args = .ok value :=
  hmakes.call (hfree.bare name hname)

include hfree in
theorem Unital.call_tensor (hmonoidal : Monoidal free.theory) {left right : Value}
    (hleft : left.hasSort "Ob" = true) (hright : right.hasSort "Ob" = true) :
    (free.algebra (k + 1)).call "otimes" [left, right] = .ok (reducedTensor left right) := by
  have hmakes : Makes free (free.algebra k) "otimes" [left, right] _ :=
    makes_objectTensor hmonoidal hleft hright
  have hbuild : (free.workshop (free.algebra k)).build "otimes" [left, right] false =
      .ok (tensorOfObjects left right) := hmakes.buildNamed
  obtain ⟨first, hfirst, hheadl⟩ := form_of_hasSort hleft
  obtain ⟨second, hsecond, hheadr⟩ := form_of_hasSort hright
  rw [hmakes.call_override (hfree.tensor hmonoidal)]
  simp only [tensorUnits, hbuild, hfirst, hsecond, bind_eq, ok_bind, ofExcept_ok_bind, pure_eq,
    reducedTensor, hheadl, hheadr, decide_eq_true_eq, if_true]
  split
  · rfl
  · split <;> rfl

include hfree in
/-- Products of morphisms stay; their types are products of objects. -/
theorem Unital.call_tensorOfMorphisms (hmonoidal : Monoidal free.theory) {a b c d f g : Value}
    (hf : IsMorphism a b f) (hg : IsMorphism c d g) (ha : a.hasSort "Ob" = true)
    (hb : b.hasSort "Ob" = true) (hc : c.hasSort "Ob" = true) (hd : d.hasSort "Ob" = true) :
    (free.algebra (k + 2)).call "otimes" [f, g] =
      .ok (tensorOfMorphisms f g (reducedTensor a c) (reducedTensor b d)) := by
  have hmakes := makes_morphismTensor hmonoidal (reads_algebra hfree.categorical k) hf hg
    (hfree.call_tensor hmonoidal ha hc) (hfree.call_tensor hmonoidal hb hd)
  have hbuild : (free.workshop (free.algebra (k + 1))).build "otimes" [f, g] false = .ok _ :=
    hmakes.buildNamed
  obtain ⟨first, hfirst, -⟩ := form_of_hasSort hf.hasSort
  have hsort : ("Hom" : String) ≠ "Ob" := by decide
  rw [hmakes.call_override (hfree.tensor hmonoidal)]
  simp only [tensorUnits, hbuild, hfirst, bind_eq, ok_bind, ofExcept_ok_bind, pure_eq, hsort,
    if_false]

end Calls

section Objects

theorem reduceObject_generator (datum : Value) :
    reduceObject (objectOf datum) = objectOf datum := by
  rw [objectOf, reduceObject]
  simp

theorem reduceObject_tensor (left right : Value) :
    reduceObject (tensorOfObjects left right) =
      reducedTensor (reduceObject left) (reduceObject right) := by
  rw [tensorOfObjects, reduceObject, if_pos rfl]

theorem reduceObject_unit : reduceObject unitObject = unitObject := by
  rw [unitObject, reduceObject]
  simp

theorem hasHead_of_same {a b : Value} (h : Value.Same a b) (head : String) :
    a.hasHead head = b.hasHead head := by
  cases a with
  | expr own args typeArgs sort =>
    obtain ⟨_, _, _, rfl, -, -⟩ := Value.same_expr_iff.mp h
    rfl
  | _ => cases b <;> simp_all [Value.Same, Value.same, Value.number?, Value.hasHead]

theorem reducedTensor_same {left left' right right' : Value} (hleft : Value.Same left left')
    (hright : Value.Same right right') :
    Value.Same (reducedTensor left right) (reducedTensor left' right') := by
  unfold reducedTensor
  rw [hasHead_of_same hleft, hasHead_of_same hright]
  split
  · exact hright
  · split
    · exact hleft
    · exact Value.same_expr.mpr ⟨rfl, .cons hleft (.cons hright .nil), .nil⟩

theorem reduceObject_same {a b : Value} (h : Value.Same a b) :
    Value.Same (reduceObject a) (reduceObject b) := by
  fun_induction reduceObject a generalizing b with
  | case1 left right typeArgs sort ihleft ihright =>
    obtain ⟨_, _, _, rfl, hargs, -⟩ := Value.same_expr_iff.mp h
    cases hargs with
    | cons hleft hrest =>
      cases hrest with
      | cons hright hnil =>
        cases hnil
        rw [reduceObject, if_pos rfl]
        exact reducedTensor_same (ihleft hleft) (ihright hright)
  | case2 head left right typeArgs sort hhead =>
    obtain ⟨_, _, _, rfl, hargs, htypes⟩ := Value.same_expr_iff.mp h
    cases hargs with
    | cons hleft hrest =>
      cases hrest with
      | cons hright hnil =>
        cases hnil
        rw [reduceObject, if_neg hhead]
        exact Value.same_expr.mpr ⟨rfl, .cons hleft (.cons hright .nil), htypes⟩
  | case3 value hshape =>
    have hb : reduceObject b = b := by
      rw [reduceObject]
      rintro head left right typeArgs sort rfl
      cases value with
      | expr own args typeArgs' sort' =>
        obtain ⟨rfl, hargs, -⟩ := Value.same_expr.mp h
        cases hargs with
        | cons _ hrest =>
          cases hrest with
          | cons _ hnil =>
            cases hnil
            exact hshape _ _ _ _ _ rfl
      | _ => simp [Value.Same, Value.same, Value.number?] at h
    rw [hb]
    exact h

variable {calculus : Calculus} {data : Value → Prop} {object : Value}

theorem reducedTensor_cases (left right : Value) :
    left.hasHead "munit" = true ∧ reducedTensor left right = right ∨
      right.hasHead "munit" = true ∧ reducedTensor left right = left ∨
      reducedTensor left right = tensorOfObjects left right := by
  unfold reducedTensor
  split
  · rename_i hleft
    exact Or.inl ⟨hleft, rfl⟩
  · split
    · rename_i hright
      exact Or.inr (Or.inl ⟨hright, rfl⟩)
    · exact Or.inr (Or.inr rfl)

theorem hasSort_reducedTensor {left right : Value} (hleft : left.hasSort "Ob" = true)
    (hright : right.hasSort "Ob" = true) : (reducedTensor left right).hasSort "Ob" = true := by
  rcases reducedTensor_cases left right with ⟨-, heq⟩ | ⟨-, heq⟩ | heq
  · rw [heq]
    exact hright
  · rw [heq]
    exact hleft
  · rw [heq]
    rfl

theorem hasSort_reduceObject (h : calculus.StrictObject data object) :
    (reduceObject object).hasSort "Ob" = true := by
  induction h with
  | @generator datum =>
    rw [reduceObject_generator]
    rfl
  | @tensor left right _ _ _ _ ihleft ihright =>
    rw [reduceObject_tensor]
    exact hasSort_reducedTensor ihleft ihright
  | unit =>
    rw [reduceObject_unit]
    rfl

/-- No other object has the head of the unit. -/
theorem reduceObject_eq_unit (h : calculus.StrictObject data object)
    (hhead : (reduceObject object).hasHead "munit" = true) : reduceObject object = unitObject := by
  induction h with
  | @generator datum =>
    rw [reduceObject_generator] at hhead
    cases hhead
  | @tensor left right _ _ _ _ ihleft ihright =>
    rw [reduceObject_tensor] at hhead ⊢
    rcases reducedTensor_cases (reduceObject left) (reduceObject right) with
      ⟨-, heq⟩ | ⟨-, heq⟩ | heq
    · rw [heq] at hhead ⊢
      exact ihright hhead
    · rw [heq] at hhead ⊢
      exact ihleft hhead
    · rw [heq] at hhead
      cases hhead
  | unit => exact reduceObject_unit

theorem functor_object {free : Calculus} (hfree : Unital free)
    (htheory : free.theory = calculus.theory) (hdata : ∀ datum, data datum → datum.isText = true)
    (k : Nat) (h : calculus.StrictObject data object) :
    (free.algebra (k + 1)).functor [] .empty object = .ok (reduceObject object) := by
  induction h with
  | @generator datum _ hdatum =>
    rw [reduceObject_generator]
    have hexpr : datum.isExpr = false := Value.isExpr_of_isText (hdata datum hdatum)
    exact Algebra.functor_of_args (Algebra.functorAll_datum hexpr Algebra.functorAll_nil)
      (hfree.call_bare (by decide) (makes_object hfree.categorical datum))
  | @tensor left right hmonoidal _ hleft hright ihleft ihright =>
    rw [reduceObject_tensor]
    exact Algebra.functor_of_args
      (Algebra.functorAll_expr hleft.isExpr ihleft
        (Algebra.functorAll_expr hright.isExpr ihright Algebra.functorAll_nil))
      (hfree.call_tensor (htheory ▸ hmonoidal) (hasSort_reduceObject hleft)
        (hasSort_reduceObject hright))
  | unit hmonoidal =>
    rw [reduceObject_unit]
    exact Algebra.functor_of_args Algebra.functorAll_nil
      (hfree.call_bare (by decide) (makes_monoidalUnit (htheory ▸ hmonoidal)))

end Objects

section Laws

variable (calculus : Calculus) (data : Value → Prop) (algebra : Algebra)

/-- All expressions that are built strictly have values in the algebra, and the values of identities
and of the unit are neutral for those of morphisms and objects. An object counts as the source or
the target of a morphism if it is equal to it. -/
structure UnitLaws : Prop where
  defined : ∀ {value}, calculus.StrictlyBuilt data value → value.isExpr = true →
    ∃ v, algebra.Denotes value v
  identity_left : ∀ {object source target value a i v}, calculus.StrictlyBuilt data object →
    calculus.StrictlyBuilt data value → IsMorphism source target value →
    Value.equal object source = true → algebra.Denotes object a → algebra.Gives "id" [a] i →
    algebra.Denotes value v → algebra.Gives "compose" [i, v] v
  identity_right : ∀ {object source target value a i v}, calculus.StrictlyBuilt data object →
    calculus.StrictlyBuilt data value → IsMorphism source target value →
    Value.equal object target = true → algebra.Denotes object a → algebra.Gives "id" [a] i →
    algebra.Denotes value v → algebra.Gives "compose" [v, i] v
  unit_left : Monoidal calculus.theory → ∀ {object u a}, calculus.StrictlyBuilt data object →
    object.hasSort "Ob" = true → algebra.Gives "munit" [] u → algebra.Denotes object a →
    algebra.Gives "otimes" [u, a] a
  unit_right : Monoidal calculus.theory → ∀ {object u a}, calculus.StrictlyBuilt data object →
    object.hasSort "Ob" = true → algebra.Gives "munit" [] u → algebra.Denotes object a →
    algebra.Gives "otimes" [a, u] a

variable {calculus data algebra}

theorem refines_reduceObject (hlaws : UnitLaws calculus data algebra) {object : Value}
    (h : calculus.StrictObject data object) : algebra.Refines object (reduceObject object) := by
  induction h with
  | generator =>
    rw [reduceObject_generator]
    exact Algebra.refines_refl _
  | @tensor left right hmonoidal _ hleft hright ihleft ihright =>
    intro v hv
    obtain ⟨a, b, ha, hb, hproduct⟩ := Algebra.denotes_binary.mp hv
    rw [reduceObject_tensor]
    rcases reducedTensor_cases (reduceObject left) (reduceObject right) with
      ⟨hhead, heq⟩ | ⟨hhead, heq⟩ | heq
    · have hunit := ihleft a ha
      rw [reduceObject_eq_unit hleft hhead] at hunit
      have hneutral := hlaws.unit_left hmonoidal hright.built hright.hasSort
        (Algebra.denotes_nullary.mp hunit) hb
      rw [heq, ← hneutral.unique hproduct]
      exact ihright b hb
    · have hunit := ihright b hb
      rw [reduceObject_eq_unit hright hhead] at hunit
      have hneutral := hlaws.unit_right hmonoidal hleft.built hleft.hasSort
        (Algebra.denotes_nullary.mp hunit) ha
      rw [heq, ← hneutral.unique hproduct]
      exact ihleft a ha
    · rw [heq]
      exact Algebra.refines_expr (.cons ihleft (.cons ihright .nil)) _ _ v hv
  | unit =>
    rw [reduceObject_unit]
    exact Algebra.refines_refl _

/-- The identity of the simplified object has the value of the identity of the object itself. -/
theorem exists_gives_identity (hlaws : UnitLaws calculus data algebra) {object v : Value}
    (hobject : calculus.StrictObject data object)
    (hv : algebra.Denotes (identityOn (reduceObject object)) v) :
    ∃ a, algebra.Denotes object a ∧ algebra.Gives "id" [a] v := by
  obtain ⟨a, ha⟩ := hlaws.defined hobject.built hobject.isExpr
  obtain ⟨a', ha', hgives⟩ := Algebra.denotes_unary.mp hv
  rw [ha'.unique (refines_reduceObject hlaws hobject a ha)] at hgives
  exact ⟨a, ha, hgives⟩

end Laws

section Morphisms

variable {calculus : Calculus} {data : Value → Prop} {algebra : Algebra}
  {source target value : Value}

/-- A simplified morphism goes between the simplified objects, up to equality. If it is an identity,
then it is one on the simplified target, and the morphism that it comes from is a loop. -/
structure Simplifies (source target source' target' reduced : Value) : Prop where
  isMorphism : IsMorphism source' target' reduced
  source_hasSort : source'.hasSort "Ob" = true
  target_hasSort : target'.hasSort "Ob" = true
  same_source : Value.Same source' (reduceObject source)
  same_target : Value.Same target' (reduceObject target)
  identity : reduced.hasHead "id" = true →
    reduced = identityOn (reduceObject target) ∧ Value.Same source target

theorem simplifies_of_objects {reduced : Value} (hsource : calculus.StrictObject data source)
    (htarget : calculus.StrictObject data target)
    (hmorphism : IsMorphism (reduceObject source) (reduceObject target) reduced)
    (hidentity : reduced.hasHead "id" = true →
      reduced = identityOn (reduceObject target) ∧ Value.Same source target) :
    Simplifies source target (reduceObject source) (reduceObject target) reduced where
  isMorphism := hmorphism
  source_hasSort := hasSort_reduceObject hsource
  target_hasSort := hasSort_reduceObject htarget
  same_source := Value.same_refl _
  same_target := Value.same_refl _
  identity := hidentity

theorem reducedComposite_cases (f g source target : Value) :
    f.hasHead "id" = true ∧ reducedComposite f g source target = g ∨
      f.hasHead "id" = false ∧ g.hasHead "id" = true ∧ reducedComposite f g source target = f ∨
      reducedComposite f g source target = compositeOf f g source target := by
  unfold reducedComposite
  split
  · rename_i hf
    exact Or.inl ⟨hf, rfl⟩
  · rename_i hf
    split
    · rename_i hg
      exact Or.inr (Or.inl ⟨by simpa using hf, hg, rfl⟩)
    · exact Or.inr (Or.inr rfl)

/-- Dropping an identity keeps the type up to equality, because the two parts of the composite meet
at equal objects. -/
theorem Simplifies.composite {f' g' middle middle' sourcef targetf sourceg targetg : Value}
    (hregular : Value.Regular source) (hmiddle : Value.Same middle middle')
    (hf : Simplifies source middle sourcef targetf f')
    (hg : Simplifies middle' target sourceg targetg g') :
    ∃ source' target', Simplifies source target source' target'
      (reducedComposite f' g' sourcef targetg) := by
  rcases reducedComposite_cases f' g' sourcef targetg with
    ⟨hhead, heq⟩ | ⟨hother, hhead, heq⟩ | heq
  · have hloop : Value.Same source middle' := (hf.identity hhead).2.trans hmiddle
    have hsource : Value.Same sourceg (reduceObject source) :=
      hg.same_source.trans (reduceObject_same (hregular.same_symm hloop))
    rw [heq]
    refine ⟨sourceg, targetg, hg.isMorphism, hg.source_hasSort, hg.target_hasSort, hsource,
      hg.same_target, fun hidentity => ?_⟩
    obtain ⟨hreduced, hsame⟩ := hg.identity hidentity
    exact ⟨hreduced, hloop.trans hsame⟩
  · have hloop : Value.Same middle target := hmiddle.trans (hg.identity hhead).2
    have htarget : Value.Same targetf (reduceObject target) :=
      hf.same_target.trans (reduceObject_same hloop)
    rw [heq]
    refine ⟨sourcef, targetf, hf.isMorphism, hf.source_hasSort, hf.target_hasSort, hf.same_source,
      htarget, fun hidentity => ?_⟩
    rw [hother] at hidentity
    cases hidentity
  · rw [heq]
    exact ⟨sourcef, targetg, isMorphism_expr _ _ _ _, hf.source_hasSort, hg.target_hasSort,
      hf.same_source, hg.same_target, fun hidentity => by cases hidentity⟩

theorem Simplifies.tensor {a b c d f' g' sourcef targetf sourceg targetg : Value}
    (hf : Simplifies a b sourcef targetf f') (hg : Simplifies c d sourceg targetg g') :
    Simplifies (tensorOfObjects a c) (tensorOfObjects b d) (reducedTensor sourcef sourceg)
      (reducedTensor targetf targetg)
      (tensorOfMorphisms f' g' (reducedTensor sourcef sourceg)
        (reducedTensor targetf targetg)) where
  isMorphism := isMorphism_expr _ _ _ _
  source_hasSort := hasSort_reducedTensor hf.source_hasSort hg.source_hasSort
  target_hasSort := hasSort_reducedTensor hf.target_hasSort hg.target_hasSort
  same_source := by
    rw [reduceObject_tensor]
    exact reducedTensor_same hf.same_source hg.same_source
  same_target := by
    rw [reduceObject_tensor]
    exact reducedTensor_same hf.same_target hg.same_target
  identity hidentity := by cases hidentity

/-- An identity that is dropped from a composite is neutral for the other part. -/
theorem refines_reducedComposite (hcategorical : Categorical calculus.theory)
    (hdata : ∀ datum, data datum → datum.isText = true) (hlaws : UnitLaws calculus data algebra)
    {f g f' g' middle middle' sourcef targetf sourceg targetg : Value}
    (hf : calculus.StrictMorphism data source middle f)
    (hg : calculus.StrictMorphism data middle' target g) (hmiddle : Value.Same middle middle')
    (hf' : Simplifies source middle sourcef targetf f')
    (hg' : Simplifies middle' target sourceg targetg g') (hrefinesf : algebra.Refines f f')
    (hrefinesg : algebra.Refines g g') :
    algebra.Refines (compositeOf f g source target)
      (reducedComposite f' g' sourcef targetg) := by
  intro v hv
  obtain ⟨a, b, ha, hb, hcomposite⟩ := Algebra.denotes_binary.mp hv
  have hmiddleObject := (hf.objects hcategorical).2
  have htargetObject := (hg.objects hcategorical).2
  rcases reducedComposite_cases f' g' sourcef targetg with
    ⟨hhead, heq⟩ | ⟨-, hhead, heq⟩ | heq
  · have hidentity := hrefinesf a ha
    rw [(hf'.identity hhead).1] at hidentity
    obtain ⟨m, hm, hgives⟩ := exists_gives_identity hlaws hmiddleObject hidentity
    have hequal := Value.equal_of_same hmiddleObject.isExpr hmiddle
    have hneutral := hlaws.identity_left hmiddleObject.built hg.built hg.isMorphism hequal hm
      hgives hb
    rw [heq, ← hneutral.unique hcomposite]
    exact hrefinesg b hb
  · obtain ⟨hreduced, hloop⟩ := hg'.identity hhead
    have hidentity := hrefinesg b hb
    rw [hreduced] at hidentity
    obtain ⟨m, hm, hgives⟩ := exists_gives_identity hlaws htargetObject hidentity
    -- The identity is one on the target of the second part, which equals that of the first.
    have hsame := (hmiddleObject.regular hdata).same_symm (hmiddle.trans hloop)
    have hequal := Value.equal_of_same htargetObject.isExpr hsame
    have hneutral := hlaws.identity_right htargetObject.built hf.built hf.isMorphism hequal hm
      hgives ha
    rw [heq, ← hneutral.unique hcomposite]
    exact hrefinesf a ha
  · rw [heq]
    exact Algebra.refines_expr (.cons hrefinesf (.cons hrefinesg .nil)) _ _ v hv

/-- The type and the value of a morphism are followed together: an identity may be dropped only
because the parts of the composite meet. -/
theorem functor_morphism {free : Calculus} (hfree : Unital free)
    (htheory : free.theory = calculus.theory) (hdata : ∀ datum, data datum → datum.isText = true)
    (hlaws : UnitLaws calculus data algebra) (k : Nat)
    (h : calculus.StrictMorphism data source target value) :
    ∃ reduced source' target', (free.algebra (k + 2)).functor [] .empty value = .ok reduced ∧
      Simplifies source target source' target' reduced ∧ algebra.Refines value reduced := by
  have hobject {object : Value} (hstrict : calculus.StrictObject data object) :
      (free.algebra (k + 2)).functor [] .empty object = .ok (reduceObject object) :=
    functor_object hfree htheory hdata (k + 1) hstrict
  have hcategorical : Categorical calculus.theory := htheory ▸ hfree.categorical
  induction h with
  | @generator datum source target _ hdatum hsource htarget =>
    have hexpr : datum.isExpr = false := Value.isExpr_of_isText (hdata datum hdatum)
    have hmakes : Makes free (free.algebra (k + 1)) "Hom"
        [datum, reduceObject source, reduceObject target] _ :=
      makes_morphism hfree.categorical datum (hasSort_reduceObject hsource)
        (hasSort_reduceObject htarget)
    have hargs := Algebra.functorAll_datum hexpr (Algebra.functorAll_expr hsource.isExpr
      (hobject hsource) (Algebra.functorAll_expr htarget.isExpr (hobject htarget)
        Algebra.functorAll_nil))
    have hrefines : List.Forall₂ algebra.Refines [datum, source, target]
        [datum, reduceObject source, reduceObject target] :=
      .cons (Algebra.refines_refl _) (.cons (refines_reduceObject hlaws hsource)
        (.cons (refines_reduceObject hlaws htarget) .nil))
    have hsimplifies := simplifies_of_objects hsource htarget
      (isMorphism_expr generatorHead [datum, reduceObject source, reduceObject target] _ _)
      fun hidentity => by cases hidentity
    exact ⟨_, _, _, Algebra.functor_of_args hargs (hfree.call_bare (by decide) hmakes),
      hsimplifies, Algebra.refines_expr hrefines _ _⟩
  | @identity object _ hstrict =>
    have hmakes : Makes free (free.algebra (k + 1)) "id" [reduceObject object] _ :=
      makes_identity hfree.categorical (hasSort_reduceObject hstrict)
    have hargs := Algebra.functorAll_expr hstrict.isExpr (hobject hstrict) Algebra.functorAll_nil
    have hsimplifies := simplifies_of_objects hstrict hstrict
      (isMorphism_expr "id" [reduceObject object] _ _) fun _ => ⟨rfl, Value.same_refl _⟩
    exact ⟨_, _, _, Algebra.functor_of_args hargs (hfree.call_bare (by decide) hmakes),
      hsimplifies, Algebra.refines_expr (.cons (refines_reduceObject hlaws hstrict) .nil) _ _⟩
  | @composite source middle middle' target f g _ hf hg hmiddle ihf ihg =>
    obtain ⟨f', sourcef, targetf, hfunctorf, hf', hrefinesf⟩ := ihf
    obtain ⟨g', sourceg, targetg, hfunctorg, hg', hrefinesg⟩ := ihg
    have hregular := (hf.objects hcategorical).1.regular hdata
    obtain ⟨source', target', hsimplifies⟩ := hf'.composite hregular hmiddle hg'
    have hargs := Algebra.functorAll_expr hf.isExpr hfunctorf
      (Algebra.functorAll_expr hg.isExpr hfunctorg Algebra.functorAll_nil)
    exact ⟨_, source', target', Algebra.functor_of_args hargs
      (hfree.call_composite hf'.isMorphism hg'.isMorphism), hsimplifies,
      refines_reducedComposite hcategorical hdata hlaws hf hg hmiddle hf' hg' hrefinesf hrefinesg⟩
  | @tensor a b c d f g hmonoidal _ hf hg ihf ihg =>
    obtain ⟨f', sourcef, targetf, hfunctorf, hf', hrefinesf⟩ := ihf
    obtain ⟨g', sourceg, targetg, hfunctorg, hg', hrefinesg⟩ := ihg
    have hargs := Algebra.functorAll_expr hf.isExpr hfunctorf
      (Algebra.functorAll_expr hg.isExpr hfunctorg Algebra.functorAll_nil)
    have hcall := hfree.call_tensorOfMorphisms (k := k) (htheory ▸ hmonoidal) hf'.isMorphism
      hg'.isMorphism hf'.source_hasSort hf'.target_hasSort hg'.source_hasSort hg'.target_hasSort
    exact ⟨_, _, _, Algebra.functor_of_args hargs hcall, hf'.tensor hg',
      Algebra.refines_expr (.cons hrefinesf (.cons hrefinesg .nil)) _ _⟩

end Morphisms

section Meaning

variable {calculus free : Calculus} {data : Value → Prop} {algebra : Algebra} {value : Value}

theorem unital_of_pair
    (hpair : calculus.theory = Standard.category ∧ free = category ∨
      calculus.theory = Standard.monoidal ∧ free = monoidal) :
    Unital free ∧ free.theory = calculus.theory := by
  rcases hpair with ⟨htheory, rfl⟩ | ⟨htheory, rfl⟩
  · exact ⟨unital_category, htheory.symm⟩
  · exact ⟨unital_monoidal, htheory.symm⟩

/-- The source and the target of a simplified morphism, as the free calculus reads them, are the
simplified source and target of the morphism, up to equality. -/
theorem accessors_of_simplifies (hfree : Unital free) (htheory : free.theory = calculus.theory)
    (hdata : ∀ datum, data datum → datum.isText = true)
    {source target source' target' reduced : Value}
    (h : calculus.StrictMorphism data source target value)
    (hsimplifies : Simplifies source target source' target' reduced) :
    ∀ accessor ∈ ["dom", "codom"], ∃ object image object',
      calculus.toAlgebra.call accessor [value] = .ok object ∧
      free.toAlgebra.functor [] .empty object = .ok image ∧
      free.toAlgebra.call accessor [reduced] = .ok object' ∧
      Value.equal object' image = true := by
  have hcategorical : Categorical calculus.theory := htheory ▸ hfree.categorical
  obtain ⟨hsource, htarget⟩ := h.objects hcategorical
  have hreads := reads_algebra hcategorical (depthBound - 1) h.isMorphism
  have hreads' := reads_algebra hfree.categorical (depthBound - 1) hsimplifies.isMorphism
  intro accessor haccessor
  simp only [List.mem_cons, List.not_mem_nil, or_false] at haccessor
  rcases haccessor with rfl | rfl
  · exact ⟨source, reduceObject source, source', hreads.1,
      functor_object hfree htheory hdata (depthBound - 1) hsource, hreads'.1,
      Value.equal_of_same (isExpr_of_hasSort hsimplifies.source_hasSort)
        hsimplifies.same_source⟩
  · exact ⟨target, reduceObject target, target', hreads.2,
      functor_object hfree htheory hdata (depthBound - 1) htarget, hreads'.2,
      Value.equal_of_same (isExpr_of_hasSort hsimplifies.target_hasSort)
        hsimplifies.same_target⟩

/-- The functor into the free calculus keeps the value that a strictly built expression has in any
algebra with the unit laws, and it carries the source and the target of a morphism along. -/
theorem functor_preserves_value (plain : calculus.Plain)
    (hpair : calculus.theory = Standard.category ∧ free = category ∨
      calculus.theory = Standard.monoidal ∧ free = monoidal)
    (hdata : ∀ datum, data datum → datum.isText = true)
    (hlaws : UnitLaws calculus data algebra) (hbuilt : calculus.StrictlyBuilt data value)
    (hexpr : value.isExpr = true) :
    ∃ reduced, free.toAlgebra.functor [] .empty value = .ok reduced ∧
      (∃ v, algebra.Denotes value v ∧ algebra.Denotes reduced v ∧
        (algebra.functor [] .empty value).Always v ∧
        (algebra.functor [] .empty reduced).Always v) ∧
      (value.hasSort "Hom" = true → ∀ accessor ∈ ["dom", "codom"], ∃ object image object',
        calculus.toAlgebra.call accessor [value] = .ok object ∧
        free.toAlgebra.functor [] .empty object = .ok image ∧
        free.toAlgebra.call accessor [reduced] = .ok object' ∧
        Value.equal object' image = true) := by
  obtain ⟨hfree, htheory⟩ := unital_of_pair hpair
  have hat := plain.atMostMonoidal (hpair.imp And.left And.left)
  obtain ⟨v, hv⟩ := hlaws.defined hbuilt hexpr
  rcases hat.strictExpression_of_built hbuilt hexpr with hobject | ⟨source, target, hmorphism⟩
  · have hvalue := refines_reduceObject hlaws hobject v hv
    have hreduced := isExpr_of_hasSort (hasSort_reduceObject hobject)
    refine ⟨reduceObject value, functor_object hfree htheory hdata (depthBound - 1) hobject,
      ⟨v, hv, hvalue, hv.functor hexpr, hvalue.functor hreduced⟩, fun hsort => ?_⟩
    cases hobject <;> cases hsort
  · obtain ⟨reduced, source', target', hfunctor, hsimplifies, hrefines⟩ :=
      functor_morphism hfree htheory hdata hlaws (depthBound - 2) hmorphism
    have hvalue := hrefines v hv
    have hreduced := isExpr_of_hasSort hsimplifies.isMorphism.hasSort
    exact ⟨reduced, hfunctor, ⟨v, hv, hvalue, hv.functor hexpr, hvalue.functor hreduced⟩,
      fun _ => accessors_of_simplifies hfree htheory hdata hmorphism hsimplifies⟩

end Meaning

section Words

/-- Morphisms as words: a generator is its name, and composition joins words. -/
def words : Model where
  name := "Words"
  theory := Standard.category
  types := .ofList [("Ob", Operation.constant (.str "")), ("Hom", Operation.argument List.head?)]
  operations := .ofList [("id", Operation.constant (.str "")), ("compose", Operation.sum)]

def IsName (value : Value) : Prop := ∃ characters, value = .str characters

theorem words_gives {name : String} {operation : Operation} {args : List Value} {result : Value}
    (hname : words.operation? name = some operation) (hresult : operation args = .ok result) :
    words.toAlgebra.Gives name args result := Model.gives_of_operation hname hresult

theorem words_object {object : Value}
    (h : (calculusOf Standard.category).StrictObject IsName object) :
    words.toAlgebra.Denotes object (.str "") := by
  cases h with
  | generator _ hdatum =>
    obtain ⟨characters, rfl⟩ := hdatum
    exact Algebra.denotes_unary.mpr ⟨_, (Algebra.denotes_datum rfl).mpr rfl, words_gives rfl rfl⟩
  | tensor hmonoidal => cases hmonoidal.products "munit" (by decide)
  | unit hmonoidal => cases hmonoidal.products "munit" (by decide)

theorem words_morphism {source target value : Value}
    (h : (calculusOf Standard.category).StrictMorphism IsName source target value) :
    ∃ word, words.toAlgebra.Denotes value (.str word) := by
  induction h with
  | generator _ hdatum hsource htarget =>
    obtain ⟨characters, rfl⟩ := hdatum
    exact ⟨characters, _, ⟨_, _, rfl, ⟨_, _, words_object hsource,
      ⟨_, _, words_object htarget, rfl, rfl⟩, rfl⟩, rfl⟩, words_gives rfl rfl⟩
  | identity _ hobject =>
    exact ⟨"", Algebra.denotes_unary.mpr ⟨_, words_object hobject, words_gives rfl rfl⟩⟩
  | composite _ _ _ _ ihf ihg =>
    obtain ⟨first, hf⟩ := ihf
    obtain ⟨second, hg⟩ := ihg
    exact ⟨first ++ second, Algebra.denotes_binary.mpr ⟨_, _, hf, hg, words_gives rfl rfl⟩⟩
  | tensor hmonoidal => cases hmonoidal.products "munit" (by decide)

theorem words_built {value : Value}
    (hbuilt : (calculusOf Standard.category).StrictlyBuilt IsName value)
    (hexpr : value.isExpr = true) : ∃ word, words.toAlgebra.Denotes value (.str word) := by
  have hat := plain_category.atMostMonoidal (Or.inl rfl)
  rcases hat.strictExpression_of_built hbuilt hexpr with hobject | ⟨source, target, hmorphism⟩
  · exact ⟨"", words_object hobject⟩
  · exact words_morphism hmorphism

theorem words_laws : UnitLaws (calculusOf Standard.category) IsName words.toAlgebra where
  defined hbuilt hexpr := by
    obtain ⟨word, hword⟩ := words_built hbuilt hexpr
    exact ⟨_, hword⟩
  identity_left := by
    intro object source target value a i v _ hbuilt hmorphism _ _ hi hv
    obtain ⟨word, hword⟩ := words_built hbuilt (isExpr_of_hasSort hmorphism.hasSort)
    have hempty : words.toAlgebra.Gives "id" [a] (.str "") := words_gives rfl rfl
    rw [hi.unique hempty, hv.unique hword]
    have hjoin : Operation.sum [.str "", .str word] = .ok (.str ("" ++ word)) := rfl
    rw [String.empty_append] at hjoin
    exact words_gives rfl hjoin
  identity_right := by
    intro object source target value a i v _ hbuilt hmorphism _ _ hi hv
    obtain ⟨word, hword⟩ := words_built hbuilt (isExpr_of_hasSort hmorphism.hasSort)
    have hempty : words.toAlgebra.Gives "id" [a] (.str "") := words_gives rfl rfl
    rw [hi.unique hempty, hv.unique hword]
    have hjoin : Operation.sum [.str word, .str ""] = .ok (.str (word ++ "")) := rfl
    rw [String.append_empty] at hjoin
    exact words_gives rfl hjoin
  unit_left hmonoidal := by cases hmonoidal.products "munit" (by decide)
  unit_right hmonoidal := by cases hmonoidal.products "munit" (by decide)

/-- A morphism after the identity of its source. -/
theorem functor_preserves_word :
    let a := objectOf (.str "A")
    let f := morphismOf (.str "f") a (objectOf (.str "B"))
    let value := compositeOf (identityOn a) f a (objectOf (.str "B"))
    ∃ reduced, category.toAlgebra.functor [] .empty value = .ok reduced ∧
      (∃ v, words.toAlgebra.Denotes value v ∧ words.toAlgebra.Denotes reduced v ∧
        (words.toAlgebra.functor [] .empty value).Always v ∧
        (words.toAlgebra.functor [] .empty reduced).Always v) ∧
      (value.hasSort "Hom" = true → ∀ accessor ∈ ["dom", "codom"], ∃ object image object',
        (calculusOf Standard.category).toAlgebra.call accessor [value] = .ok object ∧
        category.toAlgebra.functor [] .empty object = .ok image ∧
        category.toAlgebra.call accessor [reduced] = .ok object' ∧
        Value.equal object' image = true) := by
  intro a f value
  let P := calculusOf Standard.category
  have hobject (name : String) :
      (P.algebra 2).BuiltBy (P.Strictly IsName) (objectOf (.str name)) := by
    have hstrictly : P.Strictly IsName "Ob" [.str name] none := Or.inr ⟨_, _, rfl, name, rfl⟩
    exact .call (by simpa using .datum rfl) hstrictly (congrArg Outcome.result
      ((makes_object categorical_category (.str name)).call rfl))
  have hidentity : (P.algebra 2).BuiltBy (P.Strictly IsName) (identityOn a) :=
    .call (by simpa using hobject "A") (Or.inr rfl)
      (show ((P.algebra 2).invoke "id" [a] (some true)).result = .ok (identityOn a) by cbv)
  have hf : (P.algebra 2).BuiltBy (P.Strictly IsName) f := by
    have hstrictly : P.Strictly IsName "Hom" [.str "f", a, objectOf (.str "B")] none :=
      Or.inr ⟨_, _, rfl, "f", rfl⟩
    exact .call (by simpa using ⟨.datum rfl, hobject "A", hobject "B"⟩) hstrictly
      (congrArg Outcome.result ((makes_morphism categorical_category _ rfl rfl).call rfl))
  have hvalue : (P.algebra 2).BuiltBy (P.Strictly IsName) value :=
    .call (by simpa using ⟨hidentity, hf⟩) (Or.inr rfl)
      (show ((P.algebra 2).invoke "compose" [identityOn a, f] (some true)).result = .ok value
        by cbv)
  have htexts : ∀ datum, IsName datum → datum.isText = true := by
    intro datum hdatum
    obtain ⟨_, rfl⟩ := hdatum
    rfl
  exact functor_preserves_value plain_category (Or.inl ⟨rfl, rfl⟩) htexts words_laws ⟨2, hvalue⟩
    rfl

end Words
end Free
end TermAlgebra
