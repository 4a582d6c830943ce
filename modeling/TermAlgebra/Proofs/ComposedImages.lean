import TermAlgebra.Proofs.EqualValues
import TermAlgebra.Proofs.SafeCalls
import TermAlgebra.Proofs.TabledGenerators

/-!
Composing tables of generators. The composite of two tables has the generators of the first one,
each with its image mapped on by the second. It gives what the two give in turn, unless a generator
that the first table leaves out becomes a generator of the second: that one the composite lacks. A
generator left out by both tables is rebuilt over mapped parameters, once or twice, to the same
effect.
-/
namespace TermAlgebra

/-- The functor of the table comes to the node on its way through the value. -/
inductive Visits (images : Images) (node : Value) : Value → Prop
  | here : Visits images node node
  | within {head args typeArgs sort arg}
      (hopen : tabledImage? images (.expr head args typeArgs sort) = none) (harg : arg ∈ args)
      (h : Visits images node arg) : Visits images node (.expr head args typeArgs sort)

/-- The tables have the same keys in the same order, with related images. -/
def SameKeys (R : Value → Value → Prop) (images images' : Images) : Prop :=
  List.Forall₂ (fun entry entry' => entry'.1 = entry.1 ∧ R entry.2 entry'.2) images images'

section Tables

variable {R : Value → Value → Prop} {images images' : Images}

theorem lookup_related (h : SameKeys R images images') (key : Value) :
    Option.Rel R (key.lookup images) (key.lookup images') := by
  induction h with
  | nil => exact Option.Rel.none
  | @cons entry entry' rest rest' hentry _ ih =>
    obtain ⟨hkey, himage⟩ := hentry
    rw [Value.lookup, Value.lookup, hkey]
    by_cases hsame : Value.Same entry.1 key
    · rw [if_pos hsame, if_pos hsame]
      exact Option.Rel.some himage
    · rw [if_neg hsame, if_neg hsame]
      exact ih

theorem tabledImage?_related (h : SameKeys R images images') (node : Value) :
    Option.Rel R (tabledImage? images node) (tabledImage? images' node) := by
  cases node with
  | expr head args typeArgs sort =>
    rw [tabledImage?, tabledImage?, generatorImage?, generatorImage?]
    by_cases hhead : head = generatorHead
    · rw [if_pos hhead, if_pos hhead]
      have hlookup := lookup_related h (.expr head args typeArgs sort)
      generalize (Value.expr head args typeArgs sort).lookup images = found at hlookup
      generalize (Value.expr head args typeArgs sort).lookup images' = found' at hlookup
      cases hlookup with
      | none => exact Option.Rel.none
      | some himage =>
        cases (Value.expr head args typeArgs sort).hashable with
        | true => exact Option.Rel.some himage
        | false => exact Option.Rel.none
    · rw [if_neg hhead, if_neg hhead]
      exact Option.Rel.none
  | _ => exact Option.Rel.none

theorem exists_tabledImage? (h : SameKeys R images images') {node image : Value}
    (htabled : tabledImage? images node = some image) :
    ∃ image', tabledImage? images' node = some image' ∧ R image image' := by
  have hrelated := tabledImage?_related h node
  rw [htabled] at hrelated
  generalize tabledImage? images' node = found at hrelated
  cases hrelated with
  | some himage => exact ⟨_, rfl, himage⟩

theorem tabledImage?_eq_none (h : SameKeys R images images') {node : Value}
    (hopen : tabledImage? images node = none) : tabledImage? images' node = none := by
  have hrelated := tabledImage?_related h node
  rw [hopen] at hrelated
  generalize tabledImage? images' node = found at hrelated
  cases hrelated with
  | none => rfl

end Tables

namespace Algebra

open Outcome

variable {target : Algebra} {second : Images}

theorem composeImages_cons (key value : Value) (rest : Images) :
    target.composeImages .empty ((key, value) :: rest) second =
      (target.mapped second value).bind fun image =>
        (target.composeImages .empty rest second).bind fun others =>
          ok ((key, image) :: others) := by
  simp only [composeImages, List.mapM_cons, mapped]
  cases hexpr : value.isExpr <;> simp [bind_eq, pure_eq, Outcome.bind_assoc]

theorem Timeless.composeImages (htimeless : target.Timeless) (first : Images) :
    (target.composeImages .empty first second).Timeless := by
  induction first with
  | nil => exact (silent_ok []).timeless
  | cons entry rest ih =>
    rw [composeImages_cons]
    exact (htimeless.mapped entry.2).bind fun image => ih.bind fun others =>
      (silent_ok _).timeless

theorem Timeless.sameKeys_composeImages (htimeless : target.Timeless) {first composed : Images}
    (h : (target.composeImages .empty first second).result = .ok composed) :
    SameKeys (fun value image => (target.mapped second value).result = .ok image)
      first composed := by
  induction first generalizing composed with
  | nil =>
    cases h
    exact List.Forall₂.nil
  | cons entry rest ih =>
    rw [composeImages_cons, bind_result_iff fun image => (htimeless.composeImages rest).bind
      fun others => (silent_ok _).timeless] at h
    obtain ⟨image, himage, h⟩ := h
    rw [bind_result_iff fun others => (silent_ok _).timeless] at h
    obtain ⟨others, hothers, h⟩ := h
    cases h
    exact List.Forall₂.cons ⟨rfl, himage⟩ (ih hothers)

end Algebra

namespace Calculus

open TermAlgebra.Algebra Outcome

variable {calculus : Calculus}

/-- One name builds either generators or other expressions. -/
theorem Plain.generator_iff_of_name (plain : calculus.Plain) {algebra algebra' : Algebra}
    {constructor constructor' : Constructor} {args typeArgs args' typeArgs' : List Value}
    (h : calculus.Builds algebra constructor args typeArgs)
    (h' : calculus.Builds algebra' constructor' args' typeArgs')
    (hname : constructor.name = constructor'.name) :
    constructor.head = generatorHead ↔ constructor'.head = generatorHead := by
  rcases plain.builds_cases h with ⟨hhead, -, harity⟩ | ⟨t, -, -, hhead, htype, -, harity, -⟩
  · rcases plain.builds_cases h' with ⟨hhead', -, -⟩ | ⟨t', -, -, -, htype', -, harity', -⟩
    · simp [hhead, hhead']
    · rw [hname, htype', harity'] at harity
      cases harity
  · rcases plain.builds_cases h' with ⟨-, -, harity'⟩ | ⟨t', -, -, hhead', -⟩
    · rw [← hname, htype, harity] at harity'
      cases harity'
    · simp [hhead, hhead']

section Composite

variable {target : Algebra} {first second composed : Images} {n bound : Nat}

/-- No generator that the first table leaves out, on the way through the value, becomes one of the
second's. -/
def Misses (calculus : Calculus) (n : Nat) (first second : Images) (value : Value) : Prop :=
  ∀ args typeArgs sort rebuilt, Visits first (.expr generatorHead args typeArgs sort) value →
    tabledImage? first (.expr generatorHead args typeArgs sort) = none →
    ((calculus.algebra n).functor first .empty
      (.expr generatorHead args typeArgs sort)).result = .ok rebuilt →
    tabledImage? second rebuilt = none

theorem Misses.of_mem {head sort : String} {args typeArgs : List Value}
    (h : calculus.Misses n first second (.expr head args typeArgs sort))
    (hopen : tabledImage? first (.expr head args typeArgs sort) = none) {arg : Value}
    (harg : arg ∈ args) : calculus.Misses n first second arg :=
  fun args' typeArgs' sort' rebuilt hvisits => h args' typeArgs' sort' rebuilt
    (.within hopen harg hvisits)

/-- A node that the first table leaves out is rebuilt under its own name from the images of its
arguments, and the second table leaves it out as well. -/
theorem Primitive.rebuilt_node (primitive : calculus.Primitive) {m : Nat}
    {constructor : Constructor} {args typeArgs : List Value}
    (hbuilds : calculus.Builds (calculus.algebra m) constructor args typeArgs)
    (hmisses : calculus.Misses n first second
      (.expr constructor.head args typeArgs constructor.sort))
    (hopen : tabledImage? first (.expr constructor.head args typeArgs constructor.sort) = none)
    {middle : Value} (hmiddle : ((calculus.algebra n).functor first .empty
      (.expr constructor.head args typeArgs constructor.sort)).result = .ok middle) :
    ∃ head middles typeArgs' sort, middle = .expr head middles typeArgs' sort ∧
      constructorName head sort = constructor.name ∧
      List.Forall₂ (fun arg image => ((calculus.algebra n).mapped first arg).result = .ok image)
        args middles ∧
      tabledImage? second middle = none := by
  have htimeless := (primitive.silent n).timeless
  obtain ⟨middles, hmiddles, hcall⟩ := (htimeless.functor_result_iff hopen).mp hmiddle
  rw [primitive.constructorName_of_builds hbuilds] at hcall
  have hcalled := (primitive.silent n constructor.name middles none).eq_ok hcall
  obtain ⟨m', constructor', typeArgs', -, hname, hbuilds', rfl⟩ :=
    primitive.builds_of_call hbuilds.not_accessor hcalled
  refine ⟨_, middles, typeArgs', _, rfl, ?_, hmiddles, ?_⟩
  · rw [primitive.constructorName_of_builds hbuilds', hname]
  · by_cases hhead : constructor.head = generatorHead
    · rw [hhead] at hmisses hopen hmiddle
      exact hmisses args typeArgs constructor.sort _ .here hopen hmiddle
    · have hhead' : ¬constructor'.head = generatorHead := by
        rw [← primitive.generator_iff_of_name hbuilds hbuilds' hname.symm]
        exact hhead
      rw [tabledImage?, if_neg hhead']

/-- The induction is on how the value was built. -/
theorem Primitive.mapped_composeImages (primitive : calculus.Primitive)
    (htimeless : target.Timeless)
    (hcomposed : (target.composeImages .empty first second).result = .ok composed) {value : Value}
    (hgenuine : calculus.Genuine bound value) (hmisses : calculus.Misses n first second value)
    {middle result : Value}
    (hmiddle : ((calculus.algebra n).mapped first value).result = .ok middle)
    (hresult : (target.mapped second middle).result = .ok result) :
    (target.mapped composed value).result = .ok result := by
  have hkeys := htimeless.sameKeys_composeImages hcomposed
  induction hgenuine generalizing middle result with
  | datum hdatum =>
    rw [mapped_datum hdatum] at hmiddle ⊢
    cases hmiddle
    rw [mapped_datum hdatum] at hresult
    exact hresult
  | @expr m constructor args typeArgs _ hbuilds _ _ ih _ =>
    rw [mapped_expr rfl] at hmiddle ⊢
    cases htabled : tabledImage? first
        (.expr constructor.head args typeArgs constructor.sort) with
    | some image =>
      rw [functor_tabled htabled] at hmiddle
      cases hmiddle
      obtain ⟨image', htabled', himage⟩ := exists_tabledImage? hkeys htabled
      rw [functor_tabled htabled']
      exact himage.symm.trans hresult
    | none =>
      obtain ⟨head, middles, typeArgs', sort, rfl, hname, hmiddles, hopen⟩ :=
        primitive.rebuilt_node hbuilds hmisses htabled hmiddle
      rw [mapped_expr rfl, htimeless.functor_result_iff hopen, hname] at hresult
      obtain ⟨results, hresults, hcall⟩ := hresult
      have hargs : List.Forall₂
          (fun arg image => (target.mapped composed arg).result = .ok image) args results := by
        refine Value.forall₂_trans ?_ hmiddles hresults
        intro arg harg _ _ hmiddle' hresult'
        exact ih arg harg (hmisses.of_mem htabled harg) hmiddle' hresult'
      have hopen' := tabledImage?_eq_none hkeys htabled
      rw [htimeless.functor_result_iff hopen', primitive.constructorName_of_builds hbuilds]
      exact ⟨results, hargs, hcall⟩

/-- The composite of two tables gives what they give in turn, if no generator that the first leaves
out becomes one of the second's. -/
theorem Primitive.functor_composeImages (primitive : calculus.Primitive)
    (htimeless : target.Timeless) {value middle result : Value}
    (hbuilt : (calculus.algebra bound).Built value)
    (hmisses : calculus.Misses n first second value)
    (hmiddle : ((calculus.algebra n).functor first .empty value).result = .ok middle)
    (hcomposed : (target.composeImages .empty first second).result = .ok composed)
    (hresult : (target.functor second .empty middle).result = .ok result) :
    (target.functor composed .empty value).result = .ok result := by
  have hexpr := isExpr_of_functor hmiddle
  have hexpr' := isExpr_of_functor hresult
  rw [← mapped_expr hexpr] at hmiddle ⊢
  rw [← mapped_expr hexpr'] at hresult
  exact primitive.mapped_composeImages htimeless hcomposed (primitive.genuine_of_built hbuilt)
    hmisses hmiddle hresult

end Composite

section Example

open Standard

/-- The domain of a morphism is mapped twice, and its codomain by neither table. -/
theorem functor_composeImages_morphism :
    let object (name : String) := objectOf (.str name)
    let morphism (source target : String) := morphismOf (.str "f") (object source) (object target)
    (((calculusOf category).algebra 2).functor [(object "A", object "D")] .empty
      (morphism "A" "C")).result = .ok (morphism "D" "C") := by
  intro object morphism
  have hprimitive := elementary_category.primitive
  have hobject (name : String) : ((calculusOf category).algebra 2).Built (object name) :=
    built_object categorical_category rfl name 1
  have hbuilt := built_morphism categorical_category rfl (hobject "A") (hobject "C") rfl rfl "f"
  have hmiddle : (((calculusOf category).algebra 2).functor [(object "A", object "B")] .empty
      (morphism "A" "C")).result = .ok (morphism "B" "C") := by cbv
  have hcodomain : (((calculusOf category).algebra 2).functor [(object "A", object "B")] .empty
      (object "C")).result = .ok (object "C") := by cbv
  have hcomposed : (((calculusOf category).algebra 2).composeImages .empty
      [(object "A", object "B")] [(object "B", object "D")]).result =
        .ok [(object "A", object "D")] := by cbv
  have hresult : (((calculusOf category).algebra 2).functor [(object "B", object "D")] .empty
      (morphism "B" "C")).result = .ok (morphism "D" "C") := by cbv
  have hmisses : (calculusOf category).Misses 2 [(object "A", object "B")]
      [(object "B", object "D")] (morphism "A" "C") := by
    intro args typeArgs sort rebuilt hvisits hopen hrebuilt
    cases hvisits with
    | here =>
      cases hmiddle.symm.trans hrebuilt
      cbv
    | within _ harg h =>
      simp only [List.mem_cons, List.not_mem_nil, or_false] at harg
      rcases harg with rfl | rfl | rfl
      · cases h
      · have htabled : tabledImage? [(object "A", object "B")] (object "A") =
            some (object "B") := by cbv
        cases h with
        | here => cases htabled.symm.trans hopen
        | within hopen' => cases htabled.symm.trans hopen'
      · cases h with
        | here =>
          cases hcodomain.symm.trans hrebuilt
          cbv
        | within _ harg h =>
          rw [List.mem_singleton] at harg
          subst harg
          cases h
  exact hprimitive.functor_composeImages (hprimitive.silent 2).timeless hbuilt hmisses hmiddle
    hcomposed hresult

/-- A generator that only the second table has is mapped by the two tables in turn, and not by their
composite. -/
theorem functor_composeImages_missed :
    let object (name : String) := objectOf (.str name)
    let morphism (source target : String) := morphismOf (.str "f") (object source) (object target)
    let first := [(object "A", object "B")]
    let second := [(object "B", object "D"), (object "C", object "E")]
    let composed := [(object "A", object "D")]
    let target := (calculusOf category).algebra 2
    (calculusOf category).Primitive ∧
      target.Built (morphism "A" "C") ∧
      (target.functor first .empty (morphism "A" "C")).result = .ok (morphism "B" "C") ∧
      (target.composeImages .empty first second).result = .ok composed ∧
      (target.functor second .empty (morphism "B" "C")).result = .ok (morphism "D" "E") ∧
      (target.functor composed .empty (morphism "A" "C")).result = .ok (morphism "D" "C") ∧
      Value.equal (morphism "D" "C") (morphism "D" "E") = false := by
  intro object morphism first second composed target
  have hobject (name : String) : target.Built (object name) :=
    built_object categorical_category rfl name 1
  have hbuilt := built_morphism categorical_category rfl (hobject "A") (hobject "C") rfl rfl "f"
  exact ⟨elementary_category.primitive, hbuilt, by cbv, by cbv, by cbv, by cbv, by cbv⟩

end Example

end Calculus
end TermAlgebra
