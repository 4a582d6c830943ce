import TermAlgebra.Proofs.RecoveredParameters

/-!
The types of built expressions. An expression has a type argument for each parameter of its type
constructor, except that the bare type of all data takes none. Where the result types of the theory
are sorted, the type arguments have the declared sorts, and a generator of the same type can be made
for any datum. Nothing in the check of a theory sees to the sorts: the theory at the end passes.
-/
namespace TermAlgebra

theorem Theory.length_sortsOf (theory : Theory) (sorts : String → String) (terms : List Term) :
    (theory.sortsOf sorts terms).length = terms.length := by
  induction terms with
  | nil => rfl
  | cons term rest ih => rw [Theory.sortsOf, List.length_cons, List.length_cons, ih]

namespace Calculus

open TermAlgebra.Algebra Outcome Value

variable {calculus : Calculus}

/-- The type arguments of what is built are as many as the parameters of its type constructor,
unless the result type may be the bare type of all data. -/
theorem length_of_builds (hconsistent : calculus.theory.Consistent) {algebra : Algebra}
    (hsilent : algebra.Silent) {constructor : Constructor} {args typeArgs : List Value}
    (h : calculus.Builds algebra constructor args typeArgs) {t : TypeConstructor}
    (ht : t ∈ calculus.theory.types) (hname : t.name = constructor.sort)
    (hsorts : t.name ≠ anySort ∨ calculus.theory.ResultsSorted) :
    typeArgs.length = t.arity := by
  have hmem := mem_constructors_of_resolve h.resolve
  obtain ⟨head, types, hexpanded, htypes⟩ := h.typeArgs
  obtain ⟨head', types', hexpanded', hsort, -, hdeclared⟩ := hconsistent.expandedResult hmem
  cases hexpanded.symm.trans hexpanded'
  have hhead : t.name = head := by
    rw [hname, Constructor.sort, hsort, Option.getD_some]
  subst hhead
  have hfound := hconsistent.type?_of_mem ht
  rw [length_of_evaluateAll hsilent htypes]
  rcases hsorts with hany | hsorted
  · obtain ⟨t', ht', hlength⟩ := hdeclared.resolve_left hany
    cases hfound.symm.trans ht'
    exact hlength
  · have hresult := resultSorted_interface hsorted hconsistent hmem
    rw [Theory.resultSorted, hexpanded] at hresult
    simp only [hfound] at hresult
    have hlength := (sortsFit_iff.mp hresult).length_eq
    rw [Theory.length_sortsOf, TypeConstructor.paramSorts, List.length_map] at hlength
    exact hlength.symm

/-- From parameters of the declared sorts a generator can be made for any datum. -/
theorem Plain.call_generator (plain : calculus.Plain) {t : TypeConstructor}
    (ht : t ∈ calculus.theory.types) (hnodup : t.params.Nodup)
    (hdatum : declaredSort t.context valueParam = anySort) {params : List Value}
    (hparams : FitAll t.paramSorts params) (datum : Value) (n : Nat) :
    (calculus.algebra (n + 1)).call t.name (datum :: params) =
      .ok (.expr generatorHead (datum :: params) params t.name) := by
  have hlength : params.length = t.params.length := by
    rw [← hparams.length_eq, TypeConstructor.paramSorts, List.length_map]
  refine plain.call_of_gives ht ?_ hparams (Environment.gives_args_of_nodup hnodup hlength) n
  rw [hdatum]
  exact Constructor.fits_any datum

theorem Primitive.wellSorted_of_built (primitive : calculus.Primitive)
    (hsorted : calculus.theory.ResultsSorted) {n : Nat} {value : Value}
    (h : (calculus.algebra n).Built value) : WellSorted calculus.theory value := by
  refine primitive.invariant_built (fun _ h => .datum h) (fun _ h => h.parts) ?_ h
  intro m constructor args typeArgs _ hbuilds hargs _
  exact wellSorted_of_builds hsorted primitive.accepted.consistent
    (primitive.sortedCalls hsorted m) hbuilds hargs

theorem Primitive.length_of_built (primitive : calculus.Primitive) {n : Nat} {value : Value}
    (h : (calculus.algebra n).Built value) {t : TypeConstructor} (ht : t ∈ calculus.theory.types)
    (hsort : value.hasSort t.name = true)
    (hsorts : t.name ≠ anySort ∨ calculus.theory.ResultsSorted) :
    value.typeArgs.length = t.arity := by
  cases primitive.genuine_of_built h with
  | datum hdatum =>
    rw [hasSort_of_not_expr hdatum] at hsort
    cases hsort
  | @expr m constructor args typeArgs _ hbuilds _ _ =>
    have hname : constructor.sort = t.name := of_decide_eq_true hsort
    exact length_of_builds primitive.accepted.consistent (primitive.silent m) hbuilds ht
      hname.symm hsorts

theorem fitAll_of_wellSorted {value : Value} (h : WellSorted calculus.theory value)
    {t : TypeConstructor} (ht : t ∈ calculus.theory.types)
    (hsort : value.hasSort t.name = true) (hlength : value.typeArgs.length = t.arity) :
    FitAll t.paramSorts value.typeArgs := by
  have hcount : t.paramSorts.length = value.typeArgs.length := by
    rw [hlength, TypeConstructor.paramSorts, List.length_map]
    rfl
  have hplaces (i : Nat) (sort : String) (hget : t.paramSorts[i]? = some sort) :
      ∃ typeArg, value.typeArgs[i]? = some typeArg ∧ Constructor.fits sort typeArg = true := by
    rw [TypeConstructor.paramSorts, List.getElem?_map, Option.map_eq_some_iff] at hget
    obtain ⟨param, hparam, rfl⟩ := hget
    obtain ⟨typeArg, hget, hdeclared⟩ := h.exists_typeArg ht hsort hparam
    refine ⟨typeArg, hget, ?_⟩
    rw [declaredSort]
    cases hhead : declaredHead? t.context param with
    | none => exact Constructor.fits_any typeArg
    | some u => exact hdeclared u hhead
  have hfit := forall₂_take_of_getElem? hplaces
  rw [hcount, List.take_length] at hfit
  exact hfit.flip

/-- A built expression has as many type arguments as its type constructor has parameters. If the
result types of the theory are sorted, each type argument is an expression of the sort declared for
it, and a generator of the same type can be made for every datum, unless parameters of the type
share a name or the datum's own is declared to have a sort. -/
theorem Primitive.generatorLike_of_built (primitive : calculus.Primitive) {n : Nat} {value : Value}
    (hbuilt : (calculus.algebra n).Built value) {t : TypeConstructor}
    (ht : t ∈ calculus.theory.types) (hsort : value.hasSort t.name = true) :
    (t.name ≠ anySort → value.typeArgs.length = t.arity) ∧
    (calculus.theory.ResultsSorted →
      value.typeArgs.length = t.arity ∧
      (∀ (i : Nat) param u, t.params[i]? = some param → declaredHead? t.context param = some u →
        u ≠ anySort → ∃ typeArg, value.typeArgs[i]? = some typeArg ∧ typeArg.hasSort u = true) ∧
      (t.params.Nodup → declaredSort t.context valueParam = anySort → ∀ datum,
        calculus.generatorLike value datum =
          .ok (.expr generatorHead (datum :: value.typeArgs) value.typeArgs t.name))) := by
  refine ⟨fun hany => primitive.length_of_built hbuilt ht hsort (Or.inl hany), ?_⟩
  intro hsorted
  have hlength := primitive.length_of_built hbuilt ht hsort (Or.inr hsorted)
  have hwell := primitive.wellSorted_of_built hsorted hbuilt
  refine ⟨hlength, ?_, ?_⟩
  · intro i param u hparam hhead hu
    obtain ⟨typeArg, hget, hdeclared⟩ := hwell.exists_typeArg ht hsort hparam
    exact ⟨typeArg, hget, (Constructor.fits_iff.mp (hdeclared u hhead)).resolve_left hu⟩
  · intro hnodup hdatum datum
    have hfit := fitAll_of_wellSorted hwell ht hsort hlength
    cases value with
    | expr head args typeArgs sort =>
      have hname : sort = t.name := of_decide_eq_true hsort
      subst hname
      exact primitive.call_generator ht hnodup hdatum hfit datum (depthBound - 1)
    | _ => cases hsort

section Example

open Standard

theorem primitive_monoidal : (calculusOf monoidal).Primitive where
  toPlain := plain_monoidal
  definition? := by
    intro c hc
    simp only [calculusOf, monoidal, category, Theory.extend, List.cons_append, List.nil_append,
      List.mem_cons, List.not_mem_nil, or_false] at hc
    rcases hc with rfl | rfl | rfl | rfl | rfl <;> rfl

theorem resultsSorted_monoidal : monoidal.ResultsSorted := by
  intro c hc
  simp only [monoidal, category, Theory.extend, List.cons_append, List.nil_append, List.mem_cons,
    List.not_mem_nil, or_false] at hc
  rcases hc with rfl | rfl | rfl | rfl | rfl
  all_goals cbv

/-- A product of morphisms has products of objects for its domain and codomain. -/
theorem generatorLike_of_product :
    let object (name : String) := objectOf (.str name)
    let f := morphismOf (.str "f") (object "A") (object "B")
    let g := morphismOf (.str "g") (object "C") (object "D")
    let source := tensorOfObjects (object "A") (object "C")
    let target := tensorOfObjects (object "B") (object "D")
    let product := tensorOfMorphisms f g source target
    source.hasSort "Ob" = true ∧ target.hasSort "Ob" = true ∧
      (calculusOf monoidal).generatorLike product (.str "h") =
        .ok (morphismOf (.str "h") source target) := by
  intro object f g source target product
  have hcategorical := monoidal_monoidal.toCategorical
  have hobject (name : String) : ((calculusOf monoidal).algebra 2).Built (object name) :=
    built_object hcategorical rfl name 1
  have hf := built_morphism hcategorical rfl (hobject "A") (hobject "B") rfl rfl "f"
  have hg := built_morphism hcategorical rfl (hobject "C") (hobject "D") rfl rfl "g"
  have hproduct : ((calculusOf monoidal).algebra 2).Built product := by
    refine (makes_morphismTensor monoidal_monoidal (reads_algebra hcategorical 0)
      (isMorphism_expr _ _ _ _) (isMorphism_expr _ _ _ _)
      ((makes_objectTensor monoidal_monoidal rfl rfl).call rfl)
      ((makes_objectTensor monoidal_monoidal rfl rfl).call rfl)).built rfl ?_
    intro arg harg
    rcases List.mem_pair.mp harg with rfl | rfl
    · exact hf
    · exact hg
  have hmem : morphismType ∈ (calculusOf monoidal).theory.types :=
    List.mem_cons_of_mem _ List.mem_cons_self
  obtain ⟨-, hsorted⟩ := primitive_monoidal.generatorLike_of_built hproduct hmem rfl
  obtain ⟨-, hsorts, hlike⟩ := hsorted resultsSorted_monoidal
  obtain ⟨_, hget, hsource⟩ := hsorts 0 "dom" "Ob" rfl rfl (by decide)
  cases hget
  obtain ⟨_, hget, htarget⟩ := hsorts 1 "codom" "Ob" rfl rfl (by decide)
  cases hget
  exact ⟨hsource, htarget, hlike (by decide) rfl (.str "h")⟩

/-- Categories with a constructor whose result type is no type of morphisms between objects, a type
under the name of the type of all data, a type with two parameters of one name, and a type whose
parameter has the name under which generators take their datum. -/
def disordered : Theory := category.extend "DisorderedCategory"
  [{ name := "Any", params := ["x"], context := .ofList (objects ["x"]) },
    { name := "Twin", params := ["t", "t"], context := .ofList (objects ["t"]) },
    { name := "Box", params := ["__value__"], context := .ofList (objects ["__value__"]) }]
  [constructor "loop" (objects ["A", "B"]) [("f", hom a b)] (hom (.var "f") (.var "f")) none,
    constructor "blob" [] [] (.app "Any" []) none,
    constructor "twin" [] (objects ["A", "B"]) (.app "Twin" [a, b]) none]
  none

theorem primitive_disordered : (calculusOf disordered).Primitive where
  toPlain := (plain_of_create
    (show Calculus.create disordered none .empty = .ok (calculusOf disordered) by cbv)).1
  definition? := by
    intro c hc
    simp only [calculusOf, disordered, category, Theory.extend, List.cons_append, List.nil_append,
      List.mem_cons, List.not_mem_nil, or_false] at hc
    rcases hc with rfl | rfl | rfl | rfl | rfl <;> rfl

/-- The check passes a theory with expressions that lack a type argument or have one of a sort that
is not declared, and with generators that cannot be made or come out with another type. -/
theorem disordered_expressions :
    let calculus := calculusOf disordered
    let a := objectOf (.str "a")
    let b := objectOf (.str "b")
    let f := morphismOf (.str "f") a b
    let loop := Value.expr "loop" [f] [f, f] "Hom"
    let blob := Value.expr "blob" [] [] "Any"
    let twin := Value.expr "twin" [a, b] [a, b] "Twin"
    let box := Value.expr generatorHead [a, a] [a] "Box"
    let datum := Value.str "v"
    calculus.Primitive ∧
      (∀ value ∈ [loop, blob, twin, box], (calculus.algebra 2).Built value) ∧
      (declaredHead? morphismType.context "dom" = some "Ob" ∧ f.hasSort "Ob" = false ∧
        (calculus.generatorLike loop datum).result =
          .error (calculus.noMethod "Hom" [datum, f, f])) ∧
      (disordered.type? "Any").map (·.arity) = some 1 ∧
      (calculus.generatorLike twin datum).result =
        .ok (.expr generatorHead [datum, a, b] [b, b] "Twin") ∧
      (calculus.generatorLike box datum).result =
        .error (calculus.noMethod "Box" [datum, a]) := by
  intro calculus a b f loop blob twin box datum
  have hcall (name : String) (args : List Value) {value : Value}
      (hargs : ∀ arg ∈ args, (calculus.algebra 2).Built arg)
      (h : ((calculus.algebra 2).call name args).result = .ok value) :
      (calculus.algebra 2).Built value := BuiltBy.call hargs trivial h
  have htext (text : String) : (calculus.algebra 2).Built (.str text) := .datum rfl
  have ha : (calculus.algebra 2).Built a :=
    hcall "Ob" [.str "a"] (by simpa using htext "a") (by cbv)
  have hb : (calculus.algebra 2).Built b :=
    hcall "Ob" [.str "b"] (by simpa using htext "b") (by cbv)
  have hf : (calculus.algebra 2).Built f :=
    hcall "Hom" [.str "f", a, b] (by simpa using ⟨htext "f", ha, hb⟩) (by cbv)
  have hloop : (calculus.algebra 2).Built loop := hcall "loop" [f] (by simpa using hf) (by cbv)
  have hblob : (calculus.algebra 2).Built blob := hcall "blob" [] (by simp) (by cbv)
  have htwin : (calculus.algebra 2).Built twin :=
    hcall "twin" [a, b] (by simpa using ⟨ha, hb⟩) (by cbv)
  have hbox : (calculus.algebra 2).Built box := hcall "Box" [a, a] (by simpa using ha) (by cbv)
  have hlikeLoop (n : Nat) : ((calculus.algebra (n + 1)).call "Hom" [datum, f, f]).result =
      .error (calculus.noMethod "Hom" [datum, f, f]) := by cbv
  have hlikeTwin (n : Nat) : ((calculus.algebra (n + 1)).call "Twin" [datum, a, b]).result =
      .ok (.expr generatorHead [datum, a, b] [b, b] "Twin") := by cbv
  have hlikeBox (n : Nat) : ((calculus.algebra (n + 1)).call "Box" [datum, a]).result =
      .error (calculus.noMethod "Box" [datum, a]) := by cbv
  exact ⟨primitive_disordered, by simpa using ⟨hloop, hblob, htwin, hbox⟩,
    ⟨rfl, rfl, hlikeLoop (depthBound - 1)⟩, rfl, hlikeTwin (depthBound - 1),
    hlikeBox (depthBound - 1)⟩

end Example

end Calculus
end TermAlgebra
