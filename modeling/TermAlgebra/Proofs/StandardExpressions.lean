import Mathlib.Data.List.Permutation
import TermAlgebra.Proofs.BuiltValues
import TermAlgebra.Proofs.ReachedParameters
import TermAlgebra.Theory.Standard

/-!
The expressions of categories and monoidal categories, and the calls that build them. The calls look
only at the sorts and the type arguments of what they are given, and they are the same in every
theory that extends the one in question without further types.
-/
namespace TermAlgebra.Standard

open Outcome Calculus

section Expressions

def objectOf (datum : Value) : Value := .expr generatorHead [datum] [] "Ob"

def morphismOf (datum source target : Value) : Value :=
  .expr generatorHead [datum, source, target] [source, target] "Hom"

def identityOn (object : Value) : Value := .expr "id" [object] [object, object] "Hom"

def compositeOf (f g source target : Value) : Value :=
  .expr "compose" [f, g] [source, target] "Hom"

def tensorOfObjects (left right : Value) : Value := .expr "otimes" [left, right] [] "Ob"

def tensorOfMorphisms (f g source target : Value) : Value :=
  .expr "otimes" [f, g] [source, target] "Hom"

def unitObject : Value := .expr "munit" [] [] "Ob"

def copyOf (object : Value) : Value :=
  .expr "mcopy" [object] [object, tensorOfObjects object object] "Hom"

/-- The value is an expression of a morphism type. -/
structure IsMorphism (source target value : Value) : Prop where
  hasSort : value.hasSort "Hom" = true
  typeArgs : value.typeArgs = [source, target]

theorem isMorphism_expr (head : String) (args : List Value) (source target : Value) :
    IsMorphism source target (.expr head args [source, target] "Hom") :=
  ⟨by simp [Value.hasSort], rfl⟩

end Expressions

/-- The calculus of a theory with nothing overridden. -/
def calculusOf (theory : Theory) : Calculus := ⟨"Syntax(" ++ theory.name ++ ")", theory, .empty⟩

theorem plain_category : (calculusOf category).Plain :=
  (plain_of_create (show Calculus.create category none .empty = .ok (calculusOf category) by cbv)).1

theorem plain_monoidal : (calculusOf monoidal).Plain :=
  (plain_of_create (show Calculus.create monoidal none .empty = .ok (calculusOf monoidal) by cbv)).1

theorem plain_cartesian : (calculusOf cartesian).Plain :=
  (plain_of_create
    (show Calculus.create cartesian none .empty = .ok (calculusOf cartesian) by cbv)).1

/-- The theory has the types of categories, and their constructors under their names. -/
structure Categorical (theory : Theory) : Prop where
  types : theory.types = category.types
  termsNamed : ∀ name ∈ ["Ob", "Hom", "id", "compose"],
    theory.termsNamed name = category.termsNamed name

/-- The theory also has the products and the unit of monoidal categories. -/
structure Monoidal (theory : Theory) : Prop extends Categorical theory where
  products : ∀ name ∈ ["otimes", "munit"], theory.termsNamed name = monoidal.termsNamed name

theorem categorical_category : Categorical category := ⟨rfl, fun _ _ => rfl⟩

theorem monoidal_monoidal : Monoidal monoidal where
  types := rfl
  termsNamed := by
    intro name hname
    simp only [List.mem_cons, List.not_mem_nil, or_false] at hname
    rcases hname with rfl | rfl | rfl | rfl <;> rfl
  products _ _ := rfl

theorem monoidal_symmetricMonoidal : Monoidal symmetricMonoidal where
  types := rfl
  termsNamed := by
    intro name hname
    simp only [List.mem_cons, List.not_mem_nil, or_false] at hname
    rcases hname with rfl | rfl | rfl | rfl <;> rfl
  products := by
    intro name hname
    simp only [List.mem_cons, List.not_mem_nil, or_false] at hname
    rcases hname with rfl | rfl <;> rfl

theorem monoidal_cartesian : Monoidal cartesian where
  types := rfl
  termsNamed := by
    intro name hname
    simp only [List.mem_cons, List.not_mem_nil, or_false] at hname
    rcases hname with rfl | rfl | rfl | rfl <;> rfl
  products := by
    intro name hname
    simp only [List.mem_cons, List.not_mem_nil, or_false] at hname
    rcases hname with rfl | rfl <;> rfl

section Theories

variable {theory : Theory}

theorem typeVariables_of_types {theory' : Theory} (h : theory.types = theory'.types)
    (type : Term) : theory.typeVariables type = theory'.typeVariables type := by
  cases type with
  | var name => rfl
  | app head args => simp only [Theory.typeVariables, Theory.type?, h]

theorem paths_of_types {theory' : Theory} (h : theory.types = theory'.types)
    (constructor : TermConstructor) : constructor.paths theory = constructor.paths theory' :=
  TermConstructor.paths_congr fun name => by
    simp only [TermConstructor.steps, typeVariables_of_types h]

theorem Categorical.mem_types_iff (h : Categorical theory) {t : TypeConstructor} :
    t ∈ theory.types ↔ t = objectType ∨ t = morphismType := by
  have htypes : category.types = [objectType, morphismType] := rfl
  rw [h.types, htypes, List.mem_pair]

theorem Categorical.expandedResult (h : Categorical theory) (constructor : TermConstructor) :
    constructor.expandedResult theory = constructor.expandedResult category := by
  rw [TermConstructor.expandedResult, TermConstructor.expandedResult, paths_of_types h.types]

theorem Categorical.domain (h : Categorical theory) (constructor : TermConstructor) :
    constructor.domain theory = constructor.domain category := by
  have hexpand : constructor.expandEquation theory = constructor.expandEquation category := by
    funext equation
    rw [TermConstructor.expandEquation, TermConstructor.expandEquation, paths_of_types h.types]
  rw [TermConstructor.domain, TermConstructor.domain, TermConstructor.derivedEquations,
    TermConstructor.derivedEquations, paths_of_types h.types, hexpand]

theorem Categorical.isAccessor_iff (h : Categorical theory) (name : String) :
    theory.isAccessor name = true ↔ name = "dom" ∨ name = "codom" := by
  simp [Theory.isAccessor, h.types, category, objectType, morphismType]

theorem Categorical.not_accessor (h : Categorical theory) {name : String} (hdom : name ≠ "dom")
    (hcodom : name ≠ "codom") : theory.isAccessor name = false := by
  rw [← Bool.not_eq_true, h.isAccessor_iff]
  simp [hdom, hcodom]

end Theories

section Constructors

variable {calculus : Calculus} {self : Algebra}

theorem accepts_of_paramSorts {declaration : TermConstructor} {sorts : List String}
    (h : declaration.paramSorts = sorts) (kind : Kind) (args : List Value) :
    Constructor.accepts ⟨declaration, kind⟩ args = (decide (args.length = sorts.length) &&
      (sorts.zip args).all fun (sort, value) => Constructor.fits sort value) := by
  rw [Constructor.accepts, ← h, TermConstructor.paramSorts, List.length_map]
  rfl

theorem accepts_object (datum : Value) :
    Constructor.accepts ⟨objectType.generator, .generator⟩ [datum] = true := by
  have hsorts : objectType.generator.paramSorts = ["Any"] := rfl
  simp [accepts_of_paramSorts hsorts, Constructor.fits, anySort]

theorem accepts_morphism (datum source target : Value) :
    Constructor.accepts ⟨morphismType.generator, .generator⟩ [datum, source, target] =
      (source.hasSort "Ob" && target.hasSort "Ob") := by
  have hsorts : morphismType.generator.paramSorts = ["Any", "Ob", "Ob"] := rfl
  simp [accepts_of_paramSorts hsorts, Constructor.fits, anySort]

theorem accepts_identity (object : Value) :
    Constructor.accepts ⟨identity, .compound⟩ [object] = object.hasSort "Ob" := by
  have hsorts : identity.paramSorts = ["Ob"] := rfl
  simp [accepts_of_paramSorts hsorts, Constructor.fits, anySort]

theorem accepts_composition (f g : Value) :
    Constructor.accepts ⟨composition, .compound⟩ [f, g] =
      (f.hasSort "Hom" && g.hasSort "Hom") := by
  have hsorts : composition.paramSorts = ["Hom", "Hom"] := rfl
  simp [accepts_of_paramSorts hsorts, Constructor.fits, anySort]

theorem accepts_objectTensor (left right : Value) :
    Constructor.accepts ⟨objectTensor, .compound⟩ [left, right] =
      (left.hasSort "Ob" && right.hasSort "Ob") := by
  have hsorts : objectTensor.paramSorts = ["Ob", "Ob"] := rfl
  simp [accepts_of_paramSorts hsorts, Constructor.fits, anySort]

theorem accepts_morphismTensor (f g : Value) :
    Constructor.accepts ⟨morphismTensor, .compound⟩ [f, g] =
      (f.hasSort "Hom" && g.hasSort "Hom") := by
  have hsorts : morphismTensor.paramSorts = ["Hom", "Hom"] := rfl
  simp [accepts_of_paramSorts hsorts, Constructor.fits, anySort]

theorem accepts_monoidalUnit : Constructor.accepts ⟨monoidalUnit, .compound⟩ [] = true := by
  decide

/-- The accessors of morphism types read them off. -/
def Reads (self : Algebra) : Prop :=
  ∀ {source target value}, IsMorphism source target value →
    self.call "dom" [value] = .ok source ∧ self.call "codom" [value] = .ok target

theorem build_object (h : Categorical calculus.theory) (datum : Value) :
    calculus.build self ⟨objectType.generator, .generator⟩ [datum] false =
      .ok (objectOf datum) := by
  have hexpanded : objectType.generator.expandedResult calculus.theory = .app "Ob" [] := by
    rw [h.expandedResult]
    cbv
  exact build_of_types (accepts_object datum) hexpanded rfl

theorem build_morphism (h : Categorical calculus.theory) {source target : Value} (datum : Value)
    (hsource : source.hasSort "Ob" = true) (htarget : target.hasSort "Ob" = true) :
    calculus.build self ⟨morphismType.generator, .generator⟩ [datum, source, target] false =
      .ok (morphismOf datum source target) := by
  have hexpanded : morphismType.generator.expandedResult calculus.theory =
      hom (.var "dom") (.var "codom") := by
    rw [h.expandedResult]
    cbv
  exact build_of_types (by rw [accepts_morphism, hsource, htarget]; rfl) hexpanded rfl

theorem build_identity (h : Categorical calculus.theory) {object : Value}
    (hobject : object.hasSort "Ob" = true) :
    calculus.build self ⟨identity, .compound⟩ [object] false = .ok (identityOn object) := by
  have hexpanded : identity.expandedResult calculus.theory = hom a a := by
    rw [h.expandedResult]
    cbv
  exact build_of_types (by rw [accepts_identity, hobject]) hexpanded rfl

theorem build_composition (h : Categorical calculus.theory) (hself : Reads self)
    {f g source middle middle' target : Value} (hf : IsMorphism source middle f)
    (hg : IsMorphism middle' target g) :
    calculus.build self ⟨composition, .compound⟩ [f, g] false =
      .ok (compositeOf f g source target) := by
  have hexpanded : composition.expandedResult calculus.theory =
      hom (.app "dom" [.var "f"]) (.app "codom" [.var "g"]) := by
    rw [h.expandedResult]
    cbv
  refine build_of_types (by rw [accepts_composition, hf.hasSort, hg.hasSort]; rfl) hexpanded ?_
  have hparams : composition.params = ["f", "g"] := rfl
  simp [hparams, Algebra.evaluateAll, Algebra.evaluate, Algebra.variableValue,
    Environment.ofArgs, lastEntry, (hself hf).1, (hself hg).2, bind_eq, pure_eq]

theorem build_objectTensor (h : Categorical calculus.theory) {left right : Value}
    (hleft : left.hasSort "Ob" = true) (hright : right.hasSort "Ob" = true) :
    calculus.build self ⟨objectTensor, .compound⟩ [left, right] false =
      .ok (tensorOfObjects left right) := by
  have hexpanded : objectTensor.expandedResult calculus.theory = .app "Ob" [] := by
    rw [h.expandedResult]
    cbv
  exact build_of_types (by rw [accepts_objectTensor, hleft, hright]; rfl) hexpanded rfl

theorem build_morphismTensor (h : Categorical calculus.theory) (hself : Reads self)
    {f g a b c d source target : Value} (hf : IsMorphism a b f) (hg : IsMorphism c d g)
    (hsource : self.call "otimes" [a, c] = .ok source)
    (htarget : self.call "otimes" [b, d] = .ok target) :
    calculus.build self ⟨morphismTensor, .compound⟩ [f, g] false =
      .ok (tensorOfMorphisms f g source target) := by
  have hexpanded : morphismTensor.expandedResult calculus.theory =
      hom (tensor (.app "dom" [.var "f"]) (.app "dom" [.var "g"]))
        (tensor (.app "codom" [.var "f"]) (.app "codom" [.var "g"])) := by
    rw [h.expandedResult]
    cbv
  refine build_of_types (by rw [accepts_morphismTensor, hf.hasSort, hg.hasSort]; rfl)
    hexpanded ?_
  have hparams : morphismTensor.params = ["f", "g"] := rfl
  simp [hparams, tensor, Algebra.evaluateAll, Algebra.evaluate, Algebra.variableValue,
    Environment.ofArgs, lastEntry, (hself hf).1, (hself hf).2, (hself hg).1, (hself hg).2,
    hsource, htarget, bind_eq, pure_eq]

theorem build_monoidalUnit (h : Categorical calculus.theory) :
    calculus.build self ⟨monoidalUnit, .compound⟩ [] false = .ok unitObject := by
  have hexpanded : monoidalUnit.expandedResult calculus.theory = .app "Ob" [] := by
    rw [h.expandedResult]
    cbv
  exact build_of_types accepts_monoidalUnit hexpanded rfl

end Constructors

section Calls

variable {calculus : Calculus} {self : Algebra}

/-- The name stands for a constructor that builds the expression from the arguments. -/
def Makes (calculus : Calculus) (self : Algebra) (name : String) (args : List Value)
    (value : Value) : Prop :=
  calculus.theory.isAccessor name = false ∧ ∃ constructor,
    calculus.resolve name args = .ok constructor ∧
    constructor.declaration.definition? = none ∧
    calculus.build self constructor args false = .ok value

theorem Makes.buildNamed {name : String} {args : List Value} {value : Value}
    (h : Makes calculus self name args value) :
    calculus.buildNamed self name args false = .ok value := by
  obtain ⟨-, constructor, hresolve, -, hbuild⟩ := h
  rw [Calculus.buildNamed, hresolve, bind_eq, ofExcept_ok_bind, hbuild]

/-- Unless the name is overridden, this is what its call gives. -/
theorem Makes.call {n : Nat} {name : String} {args : List Value} {value : Value}
    (h : Makes calculus (calculus.algebra n) name args value)
    (hbare : calculus.overrides.get? name = none) :
    (calculus.algebra (n + 1)).call name args = .ok value := by
  obtain ⟨haccessor, constructor, hresolve, hdefinition, hbuild⟩ := h
  change calculus.invokeWith (calculus.algebra n) name args none = .ok value
  rw [invokeWith_of_resolve haccessor hresolve, Calculus.apply, resolve_name hresolve, hbare]
  simp only [hdefinition, Option.getD_none, hbuild]

/-- If the name is overridden, the override decides. -/
theorem Makes.call_override {n : Nat} {name : String} {args : List Value} {value : Value}
    {override : Override} (h : Makes calculus (calculus.algebra n) name args value)
    (hoverride : calculus.overrides.get? name = some override) :
    (calculus.algebra (n + 1)).call name args =
      override (calculus.workshop (calculus.algebra n)) args false := by
  obtain ⟨haccessor, constructor, hresolve, -, -⟩ := h
  change calculus.invokeWith (calculus.algebra n) name args none = _
  rw [invokeWith_of_resolve haccessor hresolve, Calculus.apply, resolve_name hresolve, hoverride]
  rfl

theorem resolve_of_overloads {name : String} {args : List Value} {constructor : Constructor}
    {overloads : List Constructor} (hoverloads : calculus.overloads name = overloads)
    (hfind : overloads.find? (fun c => c.accepts args) = some constructor) :
    calculus.resolve name args = .ok constructor := by
  cases overloads with
  | nil => cases hfind
  | cons first rest =>
    rw [Calculus.resolve, hoverloads]
    simp only [hfind]

theorem overloads_categorical (h : Categorical calculus.theory) {name : String}
    (hname : name ∈ ["Ob", "Hom", "id", "compose"]) :
    calculus.overloads name = (calculusOf category).overloads name := by
  rw [Calculus.overloads, Calculus.overloads, h.termsNamed name hname, h.types]
  rfl

theorem overloads_monoidal (h : Monoidal calculus.theory) {name : String}
    (hname : name ∈ ["otimes", "munit"]) :
    calculus.overloads name = (calculusOf monoidal).overloads name := by
  rw [Calculus.overloads, Calculus.overloads, h.products name hname, h.types]
  rfl

theorem overloads_object (h : Categorical calculus.theory) :
    calculus.overloads "Ob" = [⟨objectType.generator, .generator⟩] :=
  overloads_categorical h (by decide)

theorem overloads_morphism (h : Categorical calculus.theory) :
    calculus.overloads "Hom" = [⟨morphismType.generator, .generator⟩] :=
  overloads_categorical h (by decide)

theorem overloads_identity (h : Categorical calculus.theory) :
    calculus.overloads "id" = [⟨identity, .compound⟩] :=
  overloads_categorical h (by decide)

theorem overloads_composition (h : Categorical calculus.theory) :
    calculus.overloads "compose" = [⟨composition, .compound⟩] :=
  overloads_categorical h (by decide)

theorem overloads_tensor (h : Monoidal calculus.theory) :
    calculus.overloads "otimes" = [⟨objectTensor, .compound⟩, ⟨morphismTensor, .compound⟩] :=
  overloads_monoidal h (by decide)

theorem overloads_monoidalUnit (h : Monoidal calculus.theory) :
    calculus.overloads "munit" = [⟨monoidalUnit, .compound⟩] :=
  overloads_monoidal h (by decide)

theorem makes_object (h : Categorical calculus.theory) (datum : Value) :
    Makes calculus self "Ob" [datum] (objectOf datum) := by
  refine ⟨h.not_accessor (by decide) (by decide), _, ?_, rfl, build_object h datum⟩
  refine resolve_of_overloads (overloads_object h) ?_
  rw [List.find?_cons, accepts_object]

theorem makes_morphism (h : Categorical calculus.theory) {source target : Value} (datum : Value)
    (hsource : source.hasSort "Ob" = true) (htarget : target.hasSort "Ob" = true) :
    Makes calculus self "Hom" [datum, source, target] (morphismOf datum source target) := by
  refine ⟨h.not_accessor (by decide) (by decide), _, ?_, rfl,
    build_morphism h datum hsource htarget⟩
  refine resolve_of_overloads (overloads_morphism h) ?_
  rw [List.find?_cons, accepts_morphism, hsource, htarget]
  rfl

theorem makes_identity (h : Categorical calculus.theory) {object : Value}
    (hobject : object.hasSort "Ob" = true) :
    Makes calculus self "id" [object] (identityOn object) := by
  refine ⟨h.not_accessor (by decide) (by decide), _, ?_, rfl, build_identity h hobject⟩
  refine resolve_of_overloads (overloads_identity h) ?_
  rw [List.find?_cons, accepts_identity, hobject]

theorem makes_composition (h : Categorical calculus.theory) (hself : Reads self)
    {f g source middle middle' target : Value} (hf : IsMorphism source middle f)
    (hg : IsMorphism middle' target g) :
    Makes calculus self "compose" [f, g] (compositeOf f g source target) := by
  refine ⟨h.not_accessor (by decide) (by decide), _, ?_, rfl, build_composition h hself hf hg⟩
  refine resolve_of_overloads (overloads_composition h) ?_
  rw [List.find?_cons, accepts_composition, hf.hasSort, hg.hasSort]
  rfl

theorem makes_objectTensor (h : Monoidal calculus.theory) {left right : Value}
    (hleft : left.hasSort "Ob" = true) (hright : right.hasSort "Ob" = true) :
    Makes calculus self "otimes" [left, right] (tensorOfObjects left right) := by
  refine ⟨h.not_accessor (by decide) (by decide), _, ?_, rfl,
    build_objectTensor h.toCategorical hleft hright⟩
  refine resolve_of_overloads (overloads_tensor h) ?_
  rw [List.find?_cons, accepts_objectTensor, hleft, hright]
  rfl

theorem IsMorphism.not_object {source target value : Value} (h : IsMorphism source target value) :
    value.hasSort "Ob" = false := by
  have hsort := h.hasSort
  cases value <;> simp_all [Value.hasSort]

theorem makes_morphismTensor (h : Monoidal calculus.theory) (hself : Reads self)
    {f g a b c d source target : Value} (hf : IsMorphism a b f) (hg : IsMorphism c d g)
    (hsource : self.call "otimes" [a, c] = .ok source)
    (htarget : self.call "otimes" [b, d] = .ok target) :
    Makes calculus self "otimes" [f, g] (tensorOfMorphisms f g source target) := by
  refine ⟨h.not_accessor (by decide) (by decide), _, ?_, rfl,
    build_morphismTensor h.toCategorical hself hf hg hsource htarget⟩
  refine resolve_of_overloads (overloads_tensor h) ?_
  rw [List.find?_cons, accepts_objectTensor, hf.not_object, List.find?_cons,
    accepts_morphismTensor, hf.hasSort, hg.hasSort]
  rfl

theorem makes_monoidalUnit (h : Monoidal calculus.theory) :
    Makes calculus self "munit" [] unitObject := by
  refine ⟨h.not_accessor (by decide) (by decide), _, ?_, rfl,
    build_monoidalUnit h.toCategorical⟩
  exact resolve_of_overloads (overloads_monoidalUnit h) rfl

/-- What the call of a name makes of built arguments is built, unless the name is overridden. -/
theorem Makes.built {n : Nat} {name : String} {args : List Value} {value : Value}
    (h : Makes calculus (calculus.algebra n) name args value)
    (hbare : calculus.overrides.get? name = none)
    (hargs : ∀ arg ∈ args, (calculus.algebra (n + 1)).Built arg) :
    (calculus.algebra (n + 1)).Built value := .call hargs (h.call hbare)

theorem built_object (h : Categorical calculus.theory)
    (hbare : calculus.overrides.get? "Ob" = none) (text : String) (n : Nat) :
    (calculus.algebra (n + 1)).Built (objectOf (.str text)) := by
  refine (makes_object h _).built hbare ?_
  intro arg harg
  rw [List.mem_singleton.mp harg]
  exact .datum rfl

theorem built_morphism (h : Categorical calculus.theory)
    (hbare : calculus.overrides.get? "Hom" = none) {n : Nat} {source target : Value}
    (hsource : (calculus.algebra (n + 1)).Built source)
    (htarget : (calculus.algebra (n + 1)).Built target) (hsourceSort : source.hasSort "Ob" = true)
    (htargetSort : target.hasSort "Ob" = true) (text : String) :
    (calculus.algebra (n + 1)).Built (morphismOf (.str text) source target) := by
  refine (makes_morphism h _ hsourceSort htargetSort).built hbare ?_
  intro arg harg
  simp only [List.mem_cons, List.not_mem_nil, or_false] at harg
  rcases harg with rfl | rfl | rfl
  · exact .datum rfl
  · exact hsource
  · exact htarget

theorem access_of_isMorphism (h : Categorical calculus.theory) {source target value : Value}
    (hvalue : IsMorphism source target value) :
    calculus.access "dom" value = .ok source ∧ calculus.access "codom" value = .ok target := by
  have howners (name : String) :
      calculus.theory.accessorOwners name = category.accessorOwners name := by
    rw [Theory.accessorOwners, Theory.accessorPlaces, h.types]
    rfl
  have hdom : category.accessorOwners "dom" = [("Hom", 0)] := rfl
  have hcodom : category.accessorOwners "codom" = [("Hom", 1)] := rfl
  refine ⟨access_eq_ok_iff.mpr ⟨("Hom", 0), hvalue.hasSort, ?_, ?_⟩,
    access_eq_ok_iff.mpr ⟨("Hom", 1), hvalue.hasSort, ?_, ?_⟩⟩
  · rw [howners, hdom, List.find?_cons, hvalue.hasSort]
  · rw [hvalue.typeArgs]
    rfl
  · rw [howners, hcodom, List.find?_cons, hvalue.hasSort]
  · rw [hvalue.typeArgs]
    rfl

theorem reads_algebra (h : Categorical calculus.theory) (n : Nat) :
    Reads (calculus.algebra (n + 1)) := by
  intro source target value hvalue
  obtain ⟨hsource, htarget⟩ := access_of_isMorphism h hvalue
  exact ⟨call_of_access ((h.isAccessor_iff _).mpr (Or.inl rfl)) hsource,
    call_of_access ((h.isAccessor_iff _).mpr (Or.inr rfl)) htarget⟩

end Calls

end TermAlgebra.Standard
