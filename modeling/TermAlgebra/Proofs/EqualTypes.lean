import TermAlgebra.Proofs.DecodedValues
import TermAlgebra.Proofs.PrimitiveCalculus

/-!
What equality of expressions says about their types. The comparison passes over the sort of an
expression, and for generators nothing else tells it: types with parameters alike have generators
that are equal. Above the generators the sort is determined. Equal expressions have one head and
arguments that are equal; if these are of the same sorts as well, the head picks the same overload
on both and computes the same type. So expressions whose generators are not confused agree in all
that is read off them: the type, the name under which they are rebuilt, their encoding and what the
accessors find in them.
-/
namespace TermAlgebra

namespace Value

theorem isExpr_of_same {a b : Value} (h : Same a b) : a.isExpr = b.isExpr := by
  cases a <;> cases b <;> simp_all [Same, same, number?, isExpr]

theorem respectful_alike_flip : Respectful fun a b => Alike b a where
  hasSort h sort := (respectful_alike.hasSort h sort).symm
  typeArgs h := (respectful_alike.typeArgs h).flip

end Value

namespace SExpr

open Value

/-- A text, or a datum without parts that equals itself. -/
def isLegible (value : Value) : Bool := (isScalar value || value.isText) && !value.isUndefined

abbrev Legible (value : Value) : Prop := AllData (fun datum => isLegible datum = true) value

theorem isUndefined_of_legible {value : Value} (h : Legible value) : value.isUndefined = false := by
  cases h with
  | datum _ h => simpa using (Bool.and_eq_true_iff.mp h).2
  | expr => rfl

theorem encodeAll_eq_map (values : List Value) : encodeAll values = values.map encode := by
  induction values with
  | nil => rfl
  | cons value rest ih => rw [encodeAll, ih, List.map_cons]

/-- Legible data encode as themselves, and so do the data that are the same. -/
theorem encode_of_same {a b : Value} (ha : isLegible a = true) (h : Same a b) :
    encode a = a ∧ encode b = b := by
  have hnumber {number : Number} (hnumber : a.number? = some number) : encode b = b := by
    have hb := (same_number_iff hnumber).mp h
    cases b <;> first | rfl | cases hb
  cases a with
  | null => exact ⟨rfl, by rw [same_null_iff.mp h]; rfl⟩
  | bool => exact ⟨rfl, hnumber rfl⟩
  | int => exact ⟨rfl, hnumber rfl⟩
  | float => exact ⟨rfl, hnumber rfl⟩
  | text =>
    obtain ⟨symbolic, rfl⟩ := same_text_iff.mp h
    exact ⟨rfl, rfl⟩
  | _ => cases ha

/-- Alike values have the same encoding. -/
theorem same_encode_of_alike {a b : Value} (ha : Legible a) (h : Alike a b) :
    Same (encode a) (encode b) := by
  induction ha generalizing b with
  | datum hdatum hlegible =>
    cases h with
    | datum _ _ hsame =>
      obtain ⟨hencode, hencode'⟩ := encode_of_same hlegible hsame
      rwa [hencode, hencode']
    | expr => cases hdatum
  | expr _ _ ihargs _ =>
    cases h with
    | datum ha => cases ha
    | expr hargs _ =>
      rw [encode, encode, same_list_iff]
      refine ⟨_, rfl, .cons (same_refl _) ?_⟩
      rw [encodeAll_eq_map, encodeAll_eq_map, List.forall₂_map_left_iff, List.forall₂_map_right_iff]
      clear * - hargs ihargs
      induction hargs with
      | nil => exact .nil
      | cons harg _ ih =>
        exact .cons (ihargs _ List.mem_cons_self harg)
          (ih fun arg hmem => ihargs arg (List.mem_cons_of_mem _ hmem))

end SExpr

namespace Calculus

open Value SExpr

variable {calculus : Calculus} {n : Nat}

/-- Equal generators in the two values have the same sort. -/
def GeneratorsAgree (a b : Value) : Prop :=
  ∀ args typeArgs sort args' typeArgs' sort',
    Occurs (.expr generatorHead args typeArgs sort) a →
    Occurs (.expr generatorHead args' typeArgs' sort') b →
    Value.equal (.expr generatorHead args typeArgs sort)
      (.expr generatorHead args' typeArgs' sort') = true → sort = sort'

theorem GeneratorsAgree.of_mem {head sort head' sort' : String}
    {args typeArgs args' typeArgs' : List Value}
    (h : GeneratorsAgree (.expr head args typeArgs sort) (.expr head' args' typeArgs' sort'))
    {arg arg' : Value} (harg : arg ∈ args) (harg' : arg' ∈ args') : GeneratorsAgree arg arg' :=
  fun _ _ _ _ _ _ hoccurs hoccurs' => h _ _ _ _ _ _ (.within harg hoccurs) (.within harg' hoccurs')

theorem Genuine.exists_builds {head sort : String} {args typeArgs : List Value}
    (h : calculus.Genuine n (.expr head args typeArgs sort)) : ∃ m constructor, m < n ∧
      constructor.head = head ∧ constructor.sort = sort ∧
      calculus.Builds (calculus.algebra m) constructor args typeArgs ∧
      ∀ arg ∈ args, calculus.Genuine n arg := by
  generalize hvalue : Value.expr head args typeArgs sort = value at h
  cases h with
  | datum hdatum =>
    rw [← hvalue] at hdatum
    cases hdatum
  | expr hm hbuilds hargs _ =>
    cases hvalue
    exact ⟨_, _, hm, rfl, rfl, hbuilds, hargs⟩

theorem forall₂_alike {args args' : List Value} (hsame : List.Forall₂ Same args args')
    (h : ∀ arg ∈ args, ∀ arg' ∈ args', Same arg arg' → Alike arg arg') :
    List.Forall₂ Alike args args' := by
  induction hsame with
  | nil => exact .nil
  | cons hhead _ ih =>
    refine .cons (h _ List.mem_cons_self _ List.mem_cons_self hhead)
      (ih fun arg harg arg' harg' => ?_)
    exact h arg (List.mem_cons_of_mem _ harg) arg' (List.mem_cons_of_mem _ harg')

/-- Equal expressions are alike as soon as their generators are. The arguments are alike by
induction, so the name that built the one expression builds an alike one from the arguments of the
other, which is the other. -/
theorem Plain.alike_of_same (plain : calculus.Plain) {a b : Value} (ha : calculus.Genuine n a)
    (hb : calculus.Genuine n b) (hagree : GeneratorsAgree a b) (h : Same a b) : Alike a b := by
  induction ha generalizing b with
  | datum hdatum => exact .datum hdatum (isExpr_of_same h ▸ hdatum) h
  | @expr m constructor args typeArgs hm hbuilds _ _ ih _ =>
    obtain ⟨args', typeArgs', sort', rfl, hsame, -⟩ := same_expr_iff.mp h
    obtain ⟨m', constructor', hm', hhead, hsort, hbuilds', hargs'⟩ := hb.exists_builds
    have halike : List.Forall₂ Alike args args' := forall₂_alike hsame
      fun arg harg arg' harg' => ih arg harg (hargs' arg' harg') (hagree.of_mem harg harg')
    have hname : constructor'.name = constructor.name := by
      rw [← plain.constructorName_of_builds hbuilds, ← plain.constructorName_of_builds hbuilds',
        hhead, hsort]
      by_cases hgenerator : constructor.head = generatorHead
      · rw [hgenerator] at h hagree
        rw [hagree _ _ _ _ _ _ .here .here (equal_of_same rfl h)]
      · rw [constructorName, constructorName, if_neg hgenerator, if_neg hgenerator]
    obtain ⟨rebuilt, hcall, hrebuilt⟩ := plain.call_of_builds hm hbuilds halike
    have hcall' := plain.call_mono (Nat.succ_le_of_lt hm')
      (plain.call_of_yields (.build hbuilds'))
    rw [hname, hcall, Outcome.ok_eq_ok_iff, hhead, hsort] at hcall'
    rwa [← hcall']

theorem Genuine.of_occurs {node value : Value} (h : Occurs node value)
    (hvalue : calculus.Genuine n value) : calculus.Genuine n node := by
  induction h with
  | here => exact hvalue
  | within harg _ ih =>
    obtain ⟨_, _, _, _, _, _, hargs⟩ := hvalue.exists_builds
    exact ih (hargs _ harg)

theorem Plain.type_of_generator (plain : calculus.Plain) {args typeArgs : List Value}
    {sort : String} (h : calculus.Genuine n (.expr generatorHead args typeArgs sort)) :
    ∃ t ∈ calculus.theory.types, t.name = sort ∧ args.length = t.arity + 1 := by
  obtain ⟨_, constructor, _, hhead, hsort, hbuilds, _⟩ := h.exists_builds
  rcases plain.builds_cases hbuilds with ⟨hne, -⟩ | ⟨t, ht, -, -, -, hname, -, hlength⟩
  · exact absurd hhead hne
  · exact ⟨t, ht, hname.symm.trans hsort, hlength⟩

/-- Where no two types have equally many parameters, the number of arguments tells the type of a
generator. -/
theorem Plain.generatorsAgree_of_arities (plain : calculus.Plain)
    (harities : ∀ t ∈ calculus.theory.types, ∀ t' ∈ calculus.theory.types,
      t.arity = t'.arity → t.name = t'.name) {a b : Value} (ha : calculus.Genuine n a)
    (hb : calculus.Genuine n b) : GeneratorsAgree a b := by
  intro args typeArgs sort args' typeArgs' sort' hoccurs hoccurs' hequal
  obtain ⟨t, ht, rfl, hlength⟩ := plain.type_of_generator (ha.of_occurs hoccurs)
  obtain ⟨t', ht', rfl, hlength'⟩ := plain.type_of_generator (hb.of_occurs hoccurs')
  obtain ⟨-, hargs, -⟩ := same_expr.mp (same_of_equal hequal)
  have harity := hargs.length_eq
  exact harities t ht t' ht' (by omega)

/-- The data among the arguments are legible. -/
def Legibly (_name : String) (args : List Value) (_strict? : Option Bool) : Prop :=
  ∀ arg ∈ args, arg.isExpr = false → isLegible arg = true

theorem Plain.legible_of_builtBy (plain : calculus.Plain) {value : Value}
    (h : (calculus.algebra n).BuiltBy Legibly value) (hexpr : value.isExpr = true) :
    Legible value := by
  induction h with
  | datum hdatum => rw [hdatum] at hexpr; cases hexpr
  | @call name args strict? result hargs hpermits hcall ih =>
    have hlegible : ∀ arg ∈ args, Legible arg := by
      intro arg harg
      cases hexpr : arg.isExpr with
      | true => exact ih arg harg hexpr
      | false => exact .datum hexpr (hpermits arg harg hexpr)
    exact plain.allData_call hlegible ((plain.silent n _ _ _).eq_ok hcall)

theorem equal_of_access {name : String} {value result result' : Value} (hvalue : Legible value)
    (haccess : calculus.access name value = .ok result) (h : Alike result result') :
    Value.equal result result' = true := by
  obtain ⟨owner, -, -, hget⟩ := access_eq_ok_iff.mp haccess
  have hdefined := isUndefined_of_legible (hvalue.typeArgs result (List.mem_of_getElem? hget))
  simp [Value.equal, hdefined, h.same]

/-- Equal expressions whose generators are not confused have the same type and the same name to be
rebuilt under, equal encodings, and equal type arguments under every accessor. -/
theorem Plain.same_type_of_equal (plain : calculus.Plain)
    {head head' sort sort' : String} {args typeArgs args' typeArgs' : List Value}
    (hbuilt : (calculus.algebra n).BuiltBy Legibly (.expr head args typeArgs sort))
    (hbuilt' : (calculus.algebra n).BuiltBy Legibly (.expr head' args' typeArgs' sort'))
    (hagree : GeneratorsAgree (.expr head args typeArgs sort) (.expr head' args' typeArgs' sort'))
    (hequal : Value.equal (.expr head args typeArgs sort)
      (.expr head' args' typeArgs' sort') = true) :
    sort = sort' ∧ constructorName head sort = constructorName head' sort' ∧
      Value.equal (encode (.expr head args typeArgs sort))
        (encode (.expr head' args' typeArgs' sort')) = true ∧
      ∀ name,
        (∀ result, calculus.access name (.expr head args typeArgs sort) = .ok result →
          ∃ result', calculus.access name (.expr head' args' typeArgs' sort') = .ok result' ∧
            Value.equal result result' = true) ∧
        (∀ result', calculus.access name (.expr head' args' typeArgs' sort') = .ok result' →
          ∃ result, calculus.access name (.expr head args typeArgs sort) = .ok result ∧
            Value.equal result result' = true) := by
  have halike := plain.alike_of_same (plain.genuine_of_built hbuilt.built)
    (plain.genuine_of_built hbuilt'.built) hagree (same_of_equal hequal)
  have hlegible := plain.legible_of_builtBy hbuilt rfl
  have hencode : Value.equal (encode (.expr head args typeArgs sort))
      (encode (.expr head' args' typeArgs' sort')) = true := by
    have hsame := same_encode_of_alike hlegible halike
    rw [encode] at hsame ⊢
    simp [Value.equal, Value.isUndefined, hsame]
  refine ⟨?_, ?_, hencode, fun name => ⟨fun result haccess => ?_, fun result' haccess' => ?_⟩⟩
  · cases halike with
    | datum ha => cases ha
    | expr => rfl
  · cases halike with
    | datum ha => cases ha
    | expr => rfl
  · obtain ⟨result', haccess', hresult⟩ := access_related respectful_alike halike haccess
    exact ⟨result', haccess', equal_of_access hlegible haccess hresult⟩
  · obtain ⟨result, haccess, hresult⟩ := access_related respectful_alike_flip halike haccess'
    exact ⟨result, haccess, equal_of_access hlegible haccess hresult⟩

section Example

open Standard

/-- In a category the number of parameters tells objects from morphisms. -/
theorem same_type_of_equal_identity :
    let a := objectOf (.str "A")
    let a' := objectOf (.text "A" true)
    Value.equal (identityOn a) (identityOn a') = true ∧
      Value.equal (encode (identityOn a)) (encode (identityOn a')) = true ∧
      ∃ result, (calculusOf category).access "dom" (identityOn a') = .ok result ∧
        Value.equal a result = true := by
  intro a a'
  have hobject (symbolic : Bool) : ((calculusOf category).algebra 2).BuiltBy Legibly
      (objectOf (.text "A" symbolic)) := by
    have hlegibly : Legibly "Ob" [.text "A" symbolic] none := by
      simp [Legibly, isLegible, isText, isUndefined]
    exact .call (by simpa using .datum rfl) hlegibly (congrArg Outcome.result
      ((makes_object categorical_category _).call rfl))
  have hidentity (symbolic : Bool) : ((calculusOf category).algebra 2).BuiltBy Legibly
      (identityOn (objectOf (.text "A" symbolic))) := by
    have hlegibly : Legibly "id" [objectOf (.text "A" symbolic)] none := by
      simp [Legibly, objectOf, isExpr]
    exact .call (by simpa using hobject symbolic) hlegibly (congrArg Outcome.result
      ((makes_identity categorical_category rfl).call rfl))
  have harities : ∀ t ∈ category.types, ∀ t' ∈ category.types,
      t.arity = t'.arity → t.name = t'.name := by decide
  have hagree := plain_category.generatorsAgree_of_arities harities
    (plain_category.genuine_of_built (hidentity false).built)
    (plain_category.genuine_of_built (hidentity true).built)
  have hequal : Value.equal (identityOn a) (identityOn a') = true := by decide
  obtain ⟨-, -, hencode, haccess⟩ :=
    plain_category.same_type_of_equal (hidentity false) (hidentity true) hagree hequal
  exact ⟨hequal, hencode, (haccess "dom").1 a rfl⟩

/-- Two types without parameters, one with a datum for its parameter, and a constructor that takes
any datum. -/
def kinds : Theory where
  name := "Kinds"
  types := [{ name := "Ob", params := [], context := .empty },
    { name := "Pt", params := [], context := .empty },
    { name := "Tag", params := ["x"], context := .ofList [("x", .app "Any" [])] }]
  terms := [constructor "wrap" [] [("x", .app "Any" [])] ob none]

theorem primitive_kinds : (calculusOf kinds).Primitive where
  toPlain := (plain_of_create
    (show Calculus.create kinds none .empty = .ok (calculusOf kinds) by cbv)).1
  definition? := by
    intro c hc
    obtain rfl := List.mem_singleton.mp hc
    rfl

/-- Generators of the two types are equal, and nothing else tells them apart. Data that are equal
as numbers are told apart in the text of a tuple, and a datum without a number is not equal to
itself once an accessor has found it. -/
theorem equal_across_types :
    let calculus := calculusOf kinds
    let object := Value.expr generatorHead [.str "A"] [] "Ob"
    let point := Value.expr generatorHead [.str "A"] [] "Pt"
    let wrapped (datum : Value) := Value.expr "wrap" [.tuple [datum]] [] "Ob"
    let undefined := Value.float (.nan 0)
    let tagged := Value.expr generatorHead [.str "v", undefined] [undefined] "Tag"
    calculus.Primitive ∧
      ((calculus.algebra 2).BuiltBy Legibly object ∧ (calculus.algebra 2).BuiltBy Legibly point ∧
        Value.equal object point = true ∧ object.kindName ≠ point.kindName ∧
        constructorName generatorHead object.kindName ≠
          constructorName generatorHead point.kindName ∧
        Value.equal (encode object) (encode point) = false) ∧
      ((∀ datum, (calculus.algebra 2).Built (wrapped datum)) ∧
        Value.equal (wrapped (.int 1)) (wrapped (.bool true)) = true ∧
        Value.equal (encode (wrapped (.int 1))) (encode (wrapped (.bool true))) = false) ∧
      ((calculus.algebra 2).Built tagged ∧ Value.equal tagged tagged = true ∧
        calculus.access "x" tagged = .ok undefined ∧ Value.equal undefined undefined = false) := by
  intro calculus object point wrapped undefined tagged
  have hgenerator (name : String) {value : Value}
      (h : ((calculus.algebra 2).call name [.str "A"]).result = .ok value) :
      (calculus.algebra 2).BuiltBy Legibly value := by
    have hlegibly : Legibly name [.str "A"] none := by
      simp [Legibly, isLegible, isText, isUndefined, Value.str]
    exact .call (by simpa using .datum rfl) hlegibly h
  have hwrapped (datum : Value) : (calculus.algebra 2).Built (wrapped datum) :=
    Algebra.BuiltBy.call (by simpa using .datum rfl) trivial
      (show ((calculus.algebra 2).invoke "wrap" [.tuple [datum]] none).result =
        .ok (wrapped datum) by cbv)
  have htagged : (calculus.algebra 2).Built tagged :=
    Algebra.BuiltBy.call (by simpa using ⟨.datum rfl, .datum rfl⟩) trivial
      (show ((calculus.algebra 2).invoke "Tag" [.str "v", undefined] none).result = .ok tagged
        by cbv)
  exact ⟨primitive_kinds,
    ⟨hgenerator "Ob" (by cbv), hgenerator "Pt" (by cbv), by decide, by decide,
      by decide, by decide⟩,
    ⟨hwrapped, by decide, by decide⟩, htagged, by decide, rfl, by decide⟩

end Example

end Calculus
end TermAlgebra
