import TermAlgebra.Algebra.Operation
import TermAlgebra.Proofs.DecodedValues
import TermAlgebra.Proofs.RecordedCalls
import TermAlgebra.Proofs.StrictExpressions

/-!
Evaluating strictly built morphisms. The strict check compares the objects at which two morphisms
meet as expressions, whereas the functor rebuilds nodes from images and reads no types. What links
the two is the pair of objects that every sub-expression runs between: its image has the images of
these objects for its domain and codomain, and objects that are equal as expressions have equal
images. So the functor only ever composes along pairs that meet, also inside data that are
themselves expressions.
-/
namespace TermAlgebra

namespace Outcome

variable {α β : Type}

/-- Whenever the operation starts, it succeeds with such a value. -/
def Surely (outcome : Outcome α) (post : α → Prop) : Prop :=
  ∀ stamp, ∃ value, (outcome.run stamp).result = .ok value ∧ post value

/-- Both operations always succeed, with values that are equal in either order. -/
def Agree (outcome other : Outcome Value) : Prop :=
  outcome.Surely fun a => other.Surely fun b => Value.equal a b = true ∧ Value.equal b a = true

theorem surely_ok {value : α} {post : α → Prop} (h : post value) : (ok value).Surely post :=
  fun _ => ⟨value, rfl, h⟩

theorem Surely.of_run {outcome : Outcome α} {post : α → Prop} (h : outcome.Surely post)
    {stamp : Nat} {value : α} (hrun : (outcome.run stamp).result = .ok value) : post value := by
  obtain ⟨value', hrun', hpost⟩ := h stamp
  rw [hrun] at hrun'
  cases hrun'
  exact hpost

theorem Surely.bind {outcome : Outcome α} {next : α → Outcome β} {post : α → Prop}
    {post' : β → Prop} (h : outcome.Surely post)
    (hnext : ∀ value, post value → (next value).Surely post') :
    (outcome.bind next).Surely post' := by
  intro stamp
  obtain ⟨value, hrun, hpost⟩ := h stamp
  simp only [Outcome.bind, hrun]
  exact hnext value hpost _

theorem Surely.mono {outcome : Outcome α} {post post' : α → Prop} (h : outcome.Surely post)
    (hpost : ∀ value, post value → post' value) : outcome.Surely post' := by
  intro stamp
  obtain ⟨value, hrun, hvalue⟩ := h stamp
  exact ⟨value, hrun, hpost value hvalue⟩

theorem Agree.symm {outcome other : Outcome Value} (h : outcome.Agree other) :
    other.Agree outcome := by
  intro stamp
  obtain ⟨_, _, hother⟩ := h firstStamp
  obtain ⟨b, hb, -⟩ := hother stamp
  refine ⟨b, hb, fun stamp' => ?_⟩
  obtain ⟨a, ha, hother⟩ := h stamp'
  obtain ⟨hab, hba⟩ := hother.of_run hb
  exact ⟨a, ha, hba, hab⟩

theorem equal_trans {a b c : Value} (hab : Value.equal a b = true) (hbc : Value.equal b c = true) :
    Value.equal a c = true := by
  have hsame := (Value.same_of_equal hab).trans (Value.same_of_equal hbc)
  simp only [Value.equal, Bool.and_eq_true, decide_eq_true_eq] at hab ⊢
  exact ⟨hab.1, hsame⟩

theorem Agree.trans {first second third : Outcome Value} (h : first.Agree second)
    (h' : second.Agree third) : first.Agree third := by
  refine h.mono fun a ha stamp => ?_
  obtain ⟨b, hb, hab, hba⟩ := ha firstStamp
  obtain ⟨c, hc, hbc, hcb⟩ := h'.of_run hb stamp
  exact ⟨c, hc, equal_trans hab hbc, equal_trans hcb hba⟩

/-- A value that an operation has given once stands for the operation. -/
theorem Agree.of_run {outcome other : Outcome Value} (h : outcome.Agree other) {stamp : Nat}
    {value : Value} (hrun : (outcome.run stamp).result = .ok value) : (ok value).Agree other :=
  surely_ok (Surely.of_run h hrun)

end Outcome

namespace SExpr

theorem Occurs.trans {node part value : Value} (h : Occurs node part) (h' : Occurs part value) :
    Occurs node value := by
  induction h' with
  | here => exact h
  | within harg _ ih => exact .within harg ih

theorem occurs_expr_iff {node : Value} {head sort : String} {args typeArgs : List Value} :
    Occurs node (.expr head args typeArgs sort) ↔
      node = .expr head args typeArgs sort ∨ ∃ arg ∈ args, Occurs node arg := by
  constructor
  · intro h
    cases h with
    | here => exact .inl rfl
    | within harg h => exact .inr ⟨_, harg, h⟩
  · rintro (rfl | ⟨arg, harg, h⟩)
    · exact .here
    · exact .within harg h

theorem occurs_datum_iff {node value : Value} (hdatum : value.isExpr = false) :
    Occurs node value ↔ node = value := by
  constructor
  · intro h
    cases h with
    | here => rfl
    | within => cases hdatum
  · rintro rfl
    exact .here

end SExpr

namespace Algebra

open Outcome Standard SExpr

variable (target : Algebra) (images : Images)

/-- The value runs between the images of the objects. -/
def Spans (source codomain value : Value) : Prop :=
  (target.call "dom" [value]).Agree (target.functor images .empty source) ∧
    (target.call "codom" [value]).Agree (target.functor images .empty codomain)

/-- The table gives equal objects equal images and sends each morphism generator to a legal
morphism between the images of its ends. The target's identities run from an object to itself, and
its composites of legal morphisms that meet run from the domain of the first to the codomain of the
second. -/
structure RespectsEnds (legal : Value → Prop) (value : Value) : Prop where
  objects : ∀ datum datum', Occurs (objectOf datum) value → Occurs (objectOf datum') value →
    Value.equal (objectOf datum) (objectOf datum') = true →
    (target.functor images .empty (objectOf datum)).Agree
      (target.functor images .empty (objectOf datum'))
  morphisms : ∀ datum source codomain, Occurs (morphismOf datum source codomain) value →
    (target.functor images .empty (morphismOf datum source codomain)).Surely fun x =>
      legal x ∧ target.Spans images source codomain x
  identities : ∀ datum, Occurs (objectOf datum) value →
    (target.functor images .empty (objectOf datum)).Surely fun a =>
      (target.call "id" [a]).Surely fun i => legal i ∧
        (target.call "dom" [i]).Agree (.ok a) ∧ (target.call "codom" [i]).Agree (.ok a)
  composites : ∀ x y, legal x → legal y →
    (target.call "codom" [x]).Agree (target.call "dom" [y]) →
    (target.call "compose" [x, y]).Surely fun z => legal z ∧
      (target.call "dom" [z]).Agree (target.call "dom" [x]) ∧
      (target.call "codom" [z]).Agree (target.call "codom" [y])

variable {target images} {legal : Value → Prop} {value : Value}

theorem RespectsEnds.of_occurs (respects : target.RespectsEnds images legal value) {part : Value}
    (hpart : Occurs part value) : target.RespectsEnds images legal part where
  objects datum datum' h h' := respects.objects datum datum' (h.trans hpart) (h'.trans hpart)
  morphisms datum source codomain h := respects.morphisms datum source codomain (h.trans hpart)
  identities datum h := respects.identities datum (h.trans hpart)
  composites := respects.composites

theorem surely_functorAll {values : List Value} {posts : List (Value → Prop)}
    (h : List.Forall₂ (fun value post => (target.mapped images value).Surely post) values posts) :
    (target.functorAll images .empty values).Surely fun results =>
      List.Forall₂ (fun result post => post result) results posts := by
  induction h with
  | nil => exact surely_ok .nil
  | cons hvalue _ ih =>
    rw [functorAll_mapped]
    exact hvalue.bind fun image himage => ih.bind fun others hothers =>
      surely_ok (.cons himage hothers)

theorem visits_occurs {node : Value} (h : Visits images node value) : Occurs node value := by
  induction h with
  | here => exact .here
  | within _ harg _ ih => exact .within harg ih

end Algebra

namespace Calculus

open Outcome Standard SExpr TermAlgebra.Algebra

variable {calculus : Calculus} {data : Value → Prop} {target : Algebra} {images : Images}
  {legal : Value → Prop}

theorem not_monoidal (htheory : calculus.theory = category) : ¬Monoidal calculus.theory := by
  intro hmonoidal
  rw [htheory] at hmonoidal
  cases hmonoidal.products "munit" (by decide)

section Spans

variable (hsimple : ¬Monoidal calculus.theory)

include hsimple

/-- Without products every object is a generator. -/
theorem StrictObject.eq_objectOf {object : Value} (h : calculus.StrictObject data object) :
    ∃ datum, data datum ∧ object = objectOf datum := by
  cases h with
  | generator _ hdatum => exact ⟨_, hdatum, rfl⟩
  | tensor hmonoidal => exact absurd hmonoidal hsimple
  | unit hmonoidal => exact absurd hmonoidal hsimple

/-- The ends of a morphism stand in it. -/
theorem StrictMorphism.occurs {source codomain value : Value}
    (h : calculus.StrictMorphism data source codomain value) :
    Occurs source value ∧ Occurs codomain value := by
  induction h with
  | generator => exact ⟨.within (by simp) .here, .within (by simp) .here⟩
  | identity => exact ⟨.within (by simp) .here, .within (by simp) .here⟩
  | composite _ _ _ _ ihf ihg => exact ⟨.within (by simp) ihf.1, .within (by simp) ihg.2⟩
  | tensor hmonoidal => exact absurd hmonoidal hsimple

/-- Images of morphisms that meet at equal objects meet as well. -/
theorem agree_of_spans (hcategorical : Categorical calculus.theory)
    {source middle middle' codomain f g x y value : Value}
    (hf : calculus.StrictMorphism data source middle f)
    (hg : calculus.StrictMorphism data middle' codomain g) (hmiddle : Value.Same middle middle')
    (hfvalue : Occurs f value) (hgvalue : Occurs g value)
    (respects : target.RespectsEnds images legal value)
    (hx : target.Spans images source middle x) (hy : target.Spans images middle' codomain y) :
    (target.call "codom" [x]).Agree (target.call "dom" [y]) := by
  have hoccurs := (hf.occurs hsimple).2.trans hfvalue
  have hoccurs' := (hg.occurs hsimple).1.trans hgvalue
  obtain ⟨datum, -, rfl⟩ := (hf.objects hcategorical).2.eq_objectOf hsimple
  obtain ⟨datum', -, rfl⟩ := (hg.objects hcategorical).1.eq_objectOf hsimple
  have himages := respects.objects _ _ hoccurs hoccurs' (Value.equal_of_same rfl hmiddle)
  exact (hx.2.trans himages).trans hy.1.symm

/-- The image of a morphism runs between the images of its ends. The induction is on how the
morphism was built; a composite uses that its parts meet. -/
theorem StrictMorphism.spans (hcategorical : Categorical calculus.theory)
    {source codomain value : Value} (h : calculus.StrictMorphism data source codomain value)
    (respects : target.RespectsEnds images legal value) :
    (target.functor images .empty value).Surely fun x =>
      legal x ∧ target.Spans images source codomain x := by
  induction h with
  | generator => exact respects.morphisms _ _ _ .here
  | @identity object _ hobject =>
    obtain ⟨datum, -, rfl⟩ := hobject.eq_objectOf hsimple
    have hoccurs : Occurs (objectOf datum) (identityOn (objectOf datum)) :=
      .within (by simp) .here
    have hself := respects.objects datum datum hoccurs hoccurs
      (Value.equal_of_same rfl (Value.same_refl _))
    have himage : (target.mapped images (objectOf datum)).Surely fun a =>
        (Outcome.ok a).Agree (target.functor images .empty (objectOf datum)) ∧
          (target.call "id" [a]).Surely fun i => legal i ∧
            (target.call "dom" [i]).Agree (.ok a) ∧ (target.call "codom" [i]).Agree (.ok a) := by
      intro stamp
      obtain ⟨a, hrun, hidentity⟩ := respects.identities datum hoccurs stamp
      exact ⟨a, hrun, hself.of_run hrun, hidentity⟩
    rw [identityOn, functor_untabled rfl]
    refine (surely_functorAll (.cons himage .nil)).bind fun values hvalues => ?_
    cases hvalues with
    | cons ha hnil =>
      cases hnil
      exact ha.2.mono fun i hi => ⟨hi.1, hi.2.1.trans ha.1, hi.2.2.trans ha.1⟩
  | @composite source middle middle' codomain f g _ hf hg hmiddle ihf ihg =>
    have hfoccurs : Occurs f (compositeOf f g source codomain) := .within (by simp) .here
    have hgoccurs : Occurs g (compositeOf f g source codomain) := .within (by simp) .here
    have hfimage := ihf (respects.of_occurs hfoccurs)
    have hgimage := ihg (respects.of_occurs hgoccurs)
    rw [← mapped_expr hf.isExpr] at hfimage
    rw [← mapped_expr hg.isExpr] at hgimage
    rw [compositeOf, functor_untabled rfl]
    refine (surely_functorAll (.cons hfimage (.cons hgimage .nil))).bind fun values hvalues => ?_
    obtain ⟨⟩ | ⟨⟨hxlegal, hx⟩, ⟨⟩ | ⟨⟨hylegal, hy⟩, ⟨⟩⟩⟩ := hvalues
    have hmeet := agree_of_spans hsimple hcategorical hf hg hmiddle hfoccurs hgoccurs respects hx hy
    exact (respects.composites _ _ hxlegal hylegal hmeet).mono fun z hz =>
      ⟨hz.1, hz.2.1.trans hx.1, hz.2.2.trans hy.2⟩
  | tensor hmonoidal => exact absurd hmonoidal hsimple

end Spans

section Data

/-- An expression that a generator wraps is itself built strictly. -/
def StrictData (calculus : Calculus) (datum : Value) : Prop :=
  datum.isExpr = true → calculus.StrictlyBuilt (fun _ => True) datum

theorem StrictlyBuilt.strictData {value : Value}
    (hbuilt : calculus.StrictlyBuilt (fun _ => True) value) :
    calculus.StrictlyBuilt calculus.StrictData value := by
  obtain ⟨n, hbuilt⟩ := hbuilt
  refine ⟨n, ?_⟩
  induction hbuilt with
  | datum h => exact .datum h
  | @call name args strict? result hargs hstrictly hcall ih =>
    refine .call ih ?_ hcall
    refine hstrictly.imp_right fun hconstructor => ?_
    split at hconstructor
    · obtain ⟨datum, params, rfl, -⟩ := hconstructor
      exact ⟨datum, params, rfl, fun _ => ⟨n, hargs datum List.mem_cons_self⟩⟩
    · exact hconstructor

theorem AtMostMonoidal.strictExpression_of_strict (h : calculus.AtMostMonoidal) {value : Value}
    (hbuilt : calculus.StrictlyBuilt (fun _ => True) value) (hexpr : value.isExpr = true) :
    calculus.StrictExpression calculus.StrictData value :=
  h.strictExpression_of_built hbuilt.strictData hexpr

theorem AtMostMonoidal.strictExpression_of_mem (h : calculus.AtMostMonoidal)
    {head sort : String} {args typeArgs : List Value}
    (hvalue : calculus.StrictExpression calculus.StrictData (.expr head args typeArgs sort))
    {arg : Value} (harg : arg ∈ args) (hexpr : arg.isExpr = true) :
    calculus.StrictExpression calculus.StrictData arg := by
  rcases hvalue with hobject | ⟨source, codomain, hmorphism⟩
  · cases hobject with
    | generator _ hdatum =>
      obtain rfl := List.mem_singleton.mp harg
      exact h.strictExpression_of_strict (hdatum hexpr) hexpr
    | tensor _ _ hleft hright =>
      rcases List.mem_pair.mp harg with rfl | rfl
      · exact .inl hleft
      · exact .inl hright
    | unit => cases harg
  · cases hmorphism with
    | generator _ hdatum hsource htarget =>
      rcases List.mem_cons.mp harg with rfl | harg
      · exact h.strictExpression_of_strict (hdatum hexpr) hexpr
      · rcases List.mem_pair.mp harg with rfl | rfl
        · exact .inl hsource
        · exact .inl htarget
    | identity _ hobject =>
      obtain rfl := List.mem_singleton.mp harg
      exact .inl hobject
    | composite _ hf hg _ =>
      rcases List.mem_pair.mp harg with rfl | rfl
      · exact .inr ⟨_, _, hf⟩
      · exact .inr ⟨_, _, hg⟩
    | tensor _ _ hf hg =>
      rcases List.mem_pair.mp harg with rfl | rfl
      · exact .inr ⟨_, _, hf⟩
      · exact .inr ⟨_, _, hg⟩

/-- Every node of a strictly built expression is an object or a morphism, also within data. -/
theorem AtMostMonoidal.strictExpression_of_occurs (h : calculus.AtMostMonoidal) {node value : Value}
    (hoccurs : Occurs node value) (hnode : node.isExpr = true)
    (hvalue : calculus.StrictExpression calculus.StrictData value) :
    calculus.StrictExpression calculus.StrictData node := by
  induction hoccurs with
  | here => exact hvalue
  | @within head args typeArgs sort arg harg hin ih =>
    have hexpr : arg.isExpr = true := by
      cases hin with
      | here => exact hnode
      | within => rfl
    exact ih (h.strictExpression_of_mem hvalue harg hexpr)

/-- The only nodes that become calls of composition are composites. -/
theorem StrictExpression.composite_of_name (hsimple : ¬Monoidal calculus.theory)
    {head sort : String} {args typeArgs : List Value}
    (h : calculus.StrictExpression data (.expr head args typeArgs sort))
    (hname : constructorName head sort = "compose") :
    ∃ source middle middle' codomain f g, args = [f, g] ∧
      calculus.StrictMorphism data source middle f ∧
      calculus.StrictMorphism data middle' codomain g ∧ Value.Same middle middle' := by
  rcases h with hobject | ⟨source, codomain, hmorphism⟩
  · cases hobject with
    | generator => exact absurd hname (by decide)
    | tensor hmonoidal => exact absurd hmonoidal hsimple
    | unit hmonoidal => exact absurd hmonoidal hsimple
  · cases hmorphism with
    | generator => exact absurd hname (by decide)
    | identity => exact absurd hname (by decide)
    | composite _ hf hg hmiddle => exact ⟨_, _, _, _, _, _, rfl, hf, hg, hmiddle⟩
    | tensor hmonoidal => exact absurd hmonoidal hsimple

end Data

/-- A call of composition on the way through a strictly built expression is one on two morphisms
that meet. -/
theorem AtMostMonoidal.agree_of_callFor (h : calculus.AtMostMonoidal)
    (hsimple : ¬Monoidal calculus.theory) {value : Value}
    (hvalue : calculus.StrictExpression calculus.StrictData value)
    (respects : target.RespectsEnds images legal value) {args : List Value}
    (hcall : target.CallFor images (.applied "compose" args) value) :
    ∃ x y, args = [x, y] ∧ (target.call "codom" [x]).Agree (target.call "dom" [y]) := by
  obtain ⟨head, operands, typeArgs, sort, values, stamp, hvisits, hevent, hvalues⟩ := hcall
  obtain ⟨hname, rfl⟩ := Event.applied.inj hevent
  have hoccurs := visits_occurs hvisits
  obtain ⟨source, middle, middle', codomain, f, g, rfl, hf, hg, hmiddle⟩ :=
    (h.strictExpression_of_occurs hoccurs rfl hvalue).composite_of_name hsimple hname.symm
  have hfoccurs : Occurs f value := .trans (.within (by simp) .here) hoccurs
  have hgoccurs : Occurs g value := .trans (.within (by simp) .here) hoccurs
  obtain ⟨⟩ | ⟨⟨_, hx⟩, ⟨⟩ | ⟨⟨_, hy⟩, ⟨⟩⟩⟩ := exists_of_functorAll hvalues
  rw [mapped_expr hf.isExpr] at hx
  rw [mapped_expr hg.isExpr] at hy
  have hxspans := (hf.spans hsimple h.categorical (respects.of_occurs hfoccurs)).of_run hx
  have hyspans := (hg.spans hsimple h.categorical (respects.of_occurs hgoccurs)).of_run hy
  exact ⟨_, _, rfl, agree_of_spans hsimple h.categorical hf hg hmiddle hfoccurs hgoccurs respects
    hxspans.2 hyspans.2⟩

/-- The functor succeeds on what a category's calculus builds strictly, every composition it calls
for is one of two morphisms that meet, and the image of a morphism runs between the images of its
ends. -/
theorem Plain.functor_along_composable_pairs (plain : calculus.Plain)
    (htheory : calculus.theory = category) {value : Value}
    (hbuilt : calculus.StrictlyBuilt (fun _ => True) value) (hexpr : value.isExpr = true)
    (respects : target.RespectsEnds images legal value) :
    (∀ stamp, ∃ result, ((target.functor images .empty value).run stamp).result = .ok result) ∧
    (∀ stamp args,
      .applied "compose" args ∈
        ((target.recorded.functor images .empty value).run stamp).events →
      ∃ x y, args = [x, y] ∧ (target.call "codom" [x]).Agree (target.call "dom" [y])) ∧
    (value.hasSort "Hom" = true → ∃ source codomain,
      calculus.toAlgebra.call "dom" [value] = .ok source ∧
      calculus.toAlgebra.call "codom" [value] = .ok codomain ∧
      (target.functor images .empty value).Surely fun x =>
        (target.call "dom" [x]).Agree (target.functor images .empty source) ∧
        (target.call "codom" [x]).Agree (target.functor images .empty codomain)) := by
  have h := plain.atMostMonoidal (.inl htheory)
  have hsimple := not_monoidal htheory
  have hvalue := h.strictExpression_of_strict hbuilt hexpr
  refine ⟨?_, fun stamp args hmem => ?_, fun hsort => ?_⟩
  · rcases hvalue with hobject | ⟨source, codomain, hmorphism⟩
    · obtain ⟨datum, -, rfl⟩ := hobject.eq_objectOf hsimple
      intro stamp
      obtain ⟨image, hrun, -⟩ := respects.objects datum datum .here .here
        (Value.equal_of_same rfl (Value.same_refl _)) stamp
      exact ⟨image, hrun⟩
    · intro stamp
      obtain ⟨image, hrun, -⟩ := hmorphism.spans hsimple h.categorical respects stamp
      exact ⟨image, hrun⟩
  · exact h.agree_of_callFor hsimple hvalue respects (callFor_of_mem value hmem)
  · obtain ⟨source, codomain, hmorphism⟩ := hvalue.morphism hsort
    obtain ⟨hdom, hcodom⟩ := reads_algebra h.categorical (depthBound - 1) hmorphism.isMorphism
    exact ⟨source, codomain, hdom, hcodom,
      (hmorphism.spans hsimple h.categorical respects).mono fun _ hx => hx.2⟩

end Calculus

section FiniteSets

open Outcome Standard SExpr

/-- Functions between finite sets, with the numbers of elements as objects. -/
def finiteSets : Model where
  name := "FinSet"
  theory := category
  types := .ofList [("Hom", Operation.finite)]
  operations := .ofList [("dom", Operation.finiteDomain), ("codom", Operation.finiteCodomain),
    ("id", Operation.finiteIdentity), ("compose", Operation.finiteCompose)]

def indices (elements : List Nat) : List Value := elements.map fun (i : Nat) => .int i

def functionTo (elements : List Nat) (size : Nat) : Value := .fin (indices elements) (.int size)

/-- All images lie in the codomain. -/
def IsFunction (value : Value) : Prop :=
  ∃ elements size, value = functionTo elements size ∧ ∀ i ∈ elements, i < size

theorem domain_gives (elements : List Nat) (size : Nat) :
    finiteSets.toAlgebra.Gives "dom" [functionTo elements size] (.int elements.length) :=
  Model.gives_of_operation rfl (by simp [Operation.finiteDomain, functionTo, indices])

theorem codomain_gives (elements : List Nat) (size : Nat) :
    finiteSets.toAlgebra.Gives "codom" [functionTo elements size] (.int size) :=
  Model.gives_of_operation rfl rfl

theorem mapM_image {elements others : List Nat} (h : ∀ i ∈ elements, i < others.length) :
    (indices elements).mapM (Operation.image (indices others).toArray) =
      .ok (indices (elements.map fun i => others.getD i 0)) := by
  induction elements with
  | nil => rfl
  | cons i elements ih =>
    have hi : i < others.length := h i List.mem_cons_self
    have himage : Operation.image (indices others).toArray (.int i) =
        .ok (.int (others.getD i 0 : Nat)) := by
      have hnatural : ¬(i : Int) < 0 := by omega
      simp [Operation.image, Value.integer?, indices, hnatural, hi]
    have hrest := ih fun j hj => h j (List.mem_cons_of_mem _ hj)
    simp only [indices, List.map_cons] at himage hrest ⊢
    rw [List.mapM_cons, himage, hrest]
    rfl

theorem composition_gives {elements others : List Nat} {size size' : Nat}
    (h : ∀ i ∈ elements, i < others.length) :
    finiteSets.toAlgebra.Gives "compose" [functionTo elements size, functionTo others size']
      (functionTo (elements.map fun i => others.getD i 0) size') := by
  refine Model.gives_of_operation rfl ?_
  simp only [functionTo, Operation.finiteCompose, mapM_image h]
  rfl

theorem agree_of_always {outcome other : Outcome Value} {n : Int} (h : outcome.Always (.int n))
    (h' : other.Always (.int n)) : outcome.Agree other := by
  have hequal : Value.equal (.int n) (.int n) = true := by
    simp [Value.equal, Value.isUndefined, Value.same_refl]
  exact fun stamp => ⟨_, h stamp, fun stamp' => ⟨_, h' stamp', hequal, hequal⟩⟩

theorem eq_of_agree {outcome other : Outcome Value} {n n' : Int} (h : outcome.Always (.int n))
    (h' : other.Always (.int n')) (hagree : outcome.Agree other) : n = n' := by
  have hequal := (Surely.of_run hagree (h firstStamp)).of_run (h' firstStamp)
  have hsame := Value.same_of_equal hequal.1
  simpa [Value.Same, Value.same, Value.number?] using hsame

theorem finiteSets_composites (x y : Value) (hx : IsFunction x) (hy : IsFunction y)
    (hmeet : (finiteSets.toAlgebra.call "codom" [x]).Agree (finiteSets.toAlgebra.call "dom" [y])) :
    (finiteSets.toAlgebra.call "compose" [x, y]).Surely fun z => IsFunction z ∧
      (finiteSets.toAlgebra.call "dom" [z]).Agree (finiteSets.toAlgebra.call "dom" [x]) ∧
      (finiteSets.toAlgebra.call "codom" [z]).Agree (finiteSets.toAlgebra.call "codom" [y]) := by
  obtain ⟨elements, size, rfl, hx⟩ := hx
  obtain ⟨others, size', rfl, hy⟩ := hy
  have hsize := eq_of_agree (codomain_gives elements size) (domain_gives others size') hmeet
  have hwithin : ∀ i ∈ elements, i < others.length := fun i hi => by
    have := hx i hi
    omega
  have hdomain := domain_gives (elements.map fun i => others.getD i 0) size'
  rw [List.length_map] at hdomain
  refine fun stamp => ⟨_, composition_gives hwithin stamp, ⟨_, _, rfl, fun i hi => ?_⟩,
    agree_of_always hdomain (domain_gives elements size),
    agree_of_always (codomain_gives _ size') (codomain_gives others size')⟩
  obtain ⟨j, hj, rfl⟩ := List.mem_map.mp hi
  have hjlength := hwithin j hj
  rw [List.getD_eq_getElem _ _ hjlength]
  exact hy _ (List.getElem_mem hjlength)

/-- A function into a set with three elements, followed by the identity there. The table has the
two sets, and the function is rebuilt from its list of images. -/
theorem functor_along_composable_pairs_finite :
    let a := objectOf (.str "A")
    let b := objectOf (.str "B")
    let f := morphismOf (.list (indices [0, 2])) a b
    let value := compositeOf f (identityOn b) a b
    let images : Images := [(a, .int 2), (b, .int 3)]
    let target := finiteSets.toAlgebra
    (∀ stamp, ∃ result, ((target.functor images .empty value).run stamp).result = .ok result) ∧
    (∀ stamp args,
      .applied "compose" args ∈
        ((target.recorded.functor images .empty value).run stamp).events →
      ∃ x y, args = [x, y] ∧ (target.call "codom" [x]).Agree (target.call "dom" [y])) ∧
    (value.hasSort "Hom" = true → ∃ source codomain,
      (calculusOf category).toAlgebra.call "dom" [value] = .ok source ∧
      (calculusOf category).toAlgebra.call "codom" [value] = .ok codomain ∧
      (target.functor images .empty value).Surely fun x =>
        (target.call "dom" [x]).Agree (target.functor images .empty source) ∧
        (target.call "codom" [x]).Agree (target.functor images .empty codomain)) := by
  intro a b f value images target
  let P := calculusOf category
  have hobject (name : String) :
      (P.algebra 2).BuiltBy (P.Strictly fun _ => True) (objectOf (.str name)) := by
    have hstrictly : P.Strictly (fun _ => True) "Ob" [.str name] none :=
      Or.inr ⟨_, _, rfl, trivial⟩
    exact .call (by simpa using .datum rfl) hstrictly (congrArg Outcome.result
      ((makes_object categorical_category (.str name)).call rfl))
  have hf : (P.algebra 2).BuiltBy (P.Strictly fun _ => True) f := by
    have hstrictly : P.Strictly (fun _ => True) "Hom" [.list (indices [0, 2]), a, b] none :=
      Or.inr ⟨_, _, rfl, trivial⟩
    exact .call (by simpa using ⟨.datum rfl, hobject "A", hobject "B"⟩) hstrictly
      (congrArg Outcome.result ((makes_morphism categorical_category _ rfl rfl).call rfl))
  have hidentity : (P.algebra 2).BuiltBy (P.Strictly fun _ => True) (identityOn b) :=
    .call (by simpa using hobject "B") (Or.inr rfl)
      (show ((P.algebra 2).invoke "id" [b] (some true)).result = .ok (identityOn b) by cbv)
  have hvalue : (P.algebra 2).BuiltBy (P.Strictly fun _ => True) value :=
    .call (by simpa using ⟨hf, hidentity⟩) (Or.inr rfl)
      (show ((P.algebra 2).invoke "compose" [f, identityOn b] (some true)).result = .ok value
        by cbv)
  have ha : target.functor images .empty a = .ok (.int 2) := by cbv
  have hb : target.functor images .empty b = .ok (.int 3) := by cbv
  have hfimage : target.functor images .empty f = .ok (functionTo [0, 2] 3) := by cbv
  have htext (node : Value) (characters : String) (symbolic : Bool) :
      Occurs node (.text characters symbolic) ↔ node = .text characters symbolic :=
    occurs_datum_iff rfl
  have hlist (node : Value) (items : List Value) :
      Occurs node (.list items) ↔ node = .list items := occurs_datum_iff rfl
  have hobjects (datum : Value) (h : Occurs (objectOf datum) value) :
      datum = .str "A" ∨ datum = .str "B" := by
    simpa [value, f, a, b, compositeOf, morphismOf, identityOn, objectOf, generatorHead,
      Value.str, occurs_expr_iff, htext, hlist] using h
  have hmorphisms (datum source codomain : Value)
      (h : Occurs (morphismOf datum source codomain) value) :
      datum = .list (indices [0, 2]) ∧ source = a ∧ codomain = b := by
    simpa [value, f, a, b, compositeOf, morphismOf, identityOn, objectOf, generatorHead,
      Value.str, occurs_expr_iff, htext, hlist] using h
  refine Calculus.Plain.functor_along_composable_pairs plain_category rfl ⟨2, hvalue⟩ rfl
    ⟨?_, ?_, ?_, finiteSets_composites⟩
  · intro datum datum' h h' hequal
    rcases hobjects datum h with rfl | rfl <;> rcases hobjects datum' h' with rfl | rfl
    · rw [ha]; exact agree_of_always (always_ok _) (always_ok _)
    · exact absurd hequal (by decide)
    · exact absurd hequal (by decide)
    · rw [hb]; exact agree_of_always (always_ok _) (always_ok _)
  · intro datum source codomain h
    obtain ⟨rfl, rfl, rfl⟩ := hmorphisms datum source codomain h
    rw [hfimage]
    refine surely_ok ⟨⟨[0, 2], 3, rfl, by decide⟩, ?_, ?_⟩
    · rw [ha]
      exact agree_of_always (domain_gives _ _) (always_ok _)
    · rw [hb]
      exact agree_of_always (codomain_gives _ _) (always_ok _)
  · intro datum h
    have hidentity (n : Nat) (hn : Value.checkSize n = .ok ()) :
        (target.call "id" [.int n]).Surely fun i => IsFunction i ∧
          (target.call "dom" [i]).Agree (.ok (.int n)) ∧
          (target.call "codom" [i]).Agree (.ok (.int n)) := by
      have hgives : target.Gives "id" [.int n] (functionTo (List.range n) n) :=
        Model.gives_of_operation rfl (by
          simp [Operation.finiteIdentity, Value.integer?, hn, functionTo, indices, bind_eq, pure_eq,
            ofExcept_ok_bind])
      have hdomain := domain_gives (List.range n) n
      rw [List.length_range] at hdomain
      exact fun stamp => ⟨_, hgives stamp, ⟨_, _, rfl, by simp⟩,
        agree_of_always hdomain (always_ok _),
        agree_of_always (codomain_gives _ n) (always_ok _)⟩
    rcases hobjects datum h with rfl | rfl
    · rw [ha]
      exact surely_ok (hidentity 2 rfl)
    · rw [hb]
      exact surely_ok (hidentity 3 rfl)

end FiniteSets
end TermAlgebra
