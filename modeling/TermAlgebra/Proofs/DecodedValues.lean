import Mathlib
import TermAlgebra.Proofs.RebuiltValues
import TermAlgebra.Proofs.StandardExpressions
import TermAlgebra.SExpr.Decode

/-!
Decoding what was encoded. Where the data of a value are those that S-expressions carry, the
decoder tells raw data, nested expressions and references apart by place: a generator's list begins
with a raw datum because the list's head is a type constructor with one parameter less than there
are arguments, and no other head is a type constructor at all. Each list is then rebuilt by the
constructor that built the expression.
-/
namespace TermAlgebra.SExpr

open Outcome Value Calculus

/-- The node is the expression itself or stands among its arguments at some depth. -/
inductive Occurs (node : Value) : Value → Prop
  | here : Occurs node node
  | within {head args typeArgs sort arg} (harg : arg ∈ args) (h : Occurs node arg) :
      Occurs node (.expr head args typeArgs sort)

/-- Generators wrap texts or scalars, and other data are scalars. -/
def CarriedNode (head : String) (args : List Value) : Prop :=
  if head = generatorHead then
    ∃ datum params, args = datum :: params ∧ (isScalar datum = true ∨ datum.isText = true) ∧
      ∀ param ∈ params, param.isExpr = true ∨ isScalar param = true
  else ∀ arg ∈ args, arg.isExpr = true ∨ isScalar arg = true

/-- All data in the value are such as S-expressions carry. -/
def Carried (value : Value) : Prop :=
  ∀ head args typeArgs sort, Occurs (.expr head args typeArgs sort) value → CarriedNode head args

/-- The resolvers all take a text to one expression alike to the generator. -/
def Recalls (resolvers : (Value → Except Failure Value) → Prop) (datum generator : Value) : Prop :=
  ∃ characters symbolic target, datum = .text characters symbolic ∧ Alike generator target ∧
    ∀ resolve, resolvers resolve → resolve (.text characters true) = .ok target

/-- Every generator in the value that is encoded by reference wraps a text by which the resolvers
recall it. -/
def Resolved (byReference : Value → Bool) (resolvers : (Value → Except Failure Value) → Prop)
    (value : Value) : Prop :=
  ∀ datum params typeArgs sort,
    Occurs (.expr generatorHead (datum :: params) typeArgs sort) value →
    byReference datum = true →
    Recalls resolvers datum (.expr generatorHead (datum :: params) typeArgs sort)

section

variable {head : String} {args typeArgs : List Value} {sort : String}

theorem Carried.of_mem (h : Carried (.expr head args typeArgs sort)) {arg : Value}
    (harg : arg ∈ args) : Carried arg :=
  fun _ _ _ _ hoccurs => h _ _ _ _ (.within harg hoccurs)

theorem Carried.datum {value : Value} (h : value.isExpr = false) : Carried value := by
  intro head args typeArgs sort hoccurs
  cases hoccurs with
  | here => cases h
  | within => cases h

theorem Carried.expr (hnode : CarriedNode head args) (hargs : ∀ arg ∈ args, Carried arg) :
    Carried (.expr head args typeArgs sort) := by
  intro head' args' typeArgs' sort' hoccurs
  cases hoccurs with
  | here => exact hnode
  | within harg h => exact hargs _ harg _ _ _ _ h

theorem Carried.compound (hhead : head ≠ generatorHead) (hexpr : ∀ arg ∈ args, arg.isExpr = true)
    (hargs : ∀ arg ∈ args, Carried arg) : Carried (.expr head args typeArgs sort) := by
  refine .expr ?_ hargs
  rw [CarriedNode, if_neg hhead]
  exact fun arg harg => Or.inl (hexpr arg harg)

variable {byReference : Value → Bool} {resolvers : (Value → Except Failure Value) → Prop}

theorem Resolved.of_mem (h : Resolved byReference resolvers (.expr head args typeArgs sort))
    {arg : Value} (harg : arg ∈ args) : Resolved byReference resolvers arg :=
  fun _ _ _ _ hoccurs => h _ _ _ _ (.within harg hoccurs)

theorem Resolved.datum {value : Value} (h : value.isExpr = false) :
    Resolved byReference resolvers value := by
  intro datum params typeArgs sort hoccurs
  cases hoccurs with
  | here => cases h
  | within => cases h

theorem Resolved.compound (hhead : head ≠ generatorHead)
    (hargs : ∀ arg ∈ args, Resolved byReference resolvers arg) :
    Resolved byReference resolvers (.expr head args typeArgs sort) := by
  intro datum params typeArgs' sort' hoccurs
  cases hoccurs with
  | here => exact absurd rfl hhead
  | within harg h => exact hargs _ harg _ _ _ _ h

theorem Resolved.generator {datum : Value} {params : List Value}
    (hdatum : datum.isExpr = false)
    (hrecalls : byReference datum = true →
      Recalls resolvers datum (.expr generatorHead (datum :: params) typeArgs sort))
    (hparams : ∀ param ∈ params, Resolved byReference resolvers param) :
    Resolved byReference resolvers (.expr generatorHead (datum :: params) typeArgs sort) := by
  intro datum' params' typeArgs' sort' hoccurs
  cases hoccurs with
  | here => exact hrecalls
  | within harg h =>
    rcases List.mem_cons.mp harg with rfl | hparam
    · exact Resolved.datum hdatum _ _ _ _ h
    · exact hparams _ hparam _ _ _ _ h

end

theorem encodeReferring_of_scalar {byReference : Value → Bool} {value : Value}
    (h : isScalar value = true) : encodeReferring byReference value = .ok value := by
  cases value <;> simp_all [isScalar, encodeReferring, encodeDatum]

theorem encodeReferring_of_text {byReference : Value → Bool} {value : Value}
    (h : value.isText = true) : encodeReferring byReference value = .ok value := by
  cases value <;> simp_all [isText, encodeReferring, encodeDatum]

theorem encodeReferring_compound {byReference : Value → Bool} {head : String}
    (hhead : head ≠ generatorHead) (args typeArgs : List Value) (sort : String) :
    encodeReferring byReference (.expr head args typeArgs sort) =
      (encodeReferringAll byReference args).map fun items => .list (.str head :: items) := by
  cases args with
  | nil =>
    rw [encodeReferring.eq_1, if_neg hhead]
    rfl
  | cons arg rest =>
    rw [encodeReferring.eq_2, if_neg hhead]
    cases encodeReferringAll byReference (arg :: rest) <;> rfl

variable {calculus : Calculus} {n : Nat} {byReference : Value → Bool}
  {resolvers : (Value → Except Failure Value) → Prop}

/-- The encoding decodes to an expression alike to the value, whichever resolver is used. -/
def Recovers (calculus : Calculus) (n : Nat) (byReference : Value → Bool)
    (resolvers : (Value → Except Failure Value) → Prop) (value : Value) : Prop :=
  ∃ sexpr decoded, encodeReferring byReference value = .ok sexpr ∧ isScalar sexpr = false ∧
    Alike value decoded ∧ ∀ resolve, resolvers resolve →
      decode (calculus.algebra n) { reference := resolve } sexpr = .ok decoded

/-- Arguments after the first are raw data exactly where they were so. -/
theorem decodeAll_encodeReferringAll {args : List Value}
    (hargs : ∀ arg ∈ args, isScalar arg = true ∨ Recovers calculus n byReference resolvers arg) :
    ∃ items values, encodeReferringAll byReference args = .ok items ∧
      items.length = args.length ∧ List.Forall₂ Alike args values ∧
      ∀ resolve, resolvers resolve →
        decodeAll (calculus.algebra n) { reference := resolve } false items = .ok values := by
  induction args with
  | nil => exact ⟨[], [], rfl, rfl, .nil, fun _ _ => rfl⟩
  | cons arg rest ih =>
    obtain ⟨items, values, hencode, hlength, halike, hdecode⟩ :=
      ih fun arg harg => hargs arg (List.mem_cons_of_mem _ harg)
    rcases hargs arg List.mem_cons_self with hscalar | ⟨sexpr, decoded, hsexpr, hraw, hlike, hdec⟩
    · refine ⟨arg :: items, arg :: values, ?_, by simp [hlength], .cons (.refl arg) halike, ?_⟩
      · rw [encodeReferringAll, encodeReferring_of_scalar hscalar, hencode]
        rfl
      · intro resolve hresolve
        have hdatum : Reading.rawDatum { reference := resolve } arg = arg := by
          cases arg <;> simp_all [isScalar, Reading.rawDatum, Reading.symbol]
        simp only [decodeAll, hscalar, Bool.or_true, if_true, hdatum, hdecode resolve hresolve]
        rfl
    · refine ⟨sexpr :: items, decoded :: values, ?_, by simp [hlength], .cons hlike halike, ?_⟩
      · rw [encodeReferringAll, hsexpr, hencode]
        rfl
      · intro resolve hresolve
        simp only [decodeAll, hraw, Bool.or_false, Bool.false_eq_true, if_false,
          hdec resolve hresolve, hdecode resolve hresolve]
        rfl

mutual

/-- Where nothing is encoded by reference, the encoding is the plain one. -/
theorem encode_of_encodeReferring (value : Value) {sexpr : Value}
    (h : encodeReferring (fun _ => false) value = .ok sexpr) : encode value = sexpr := by
  match value with
  | .expr head [] typeArgs sort =>
    by_cases hhead : head = generatorHead
    · simp [encodeReferring, hhead] at h
    · rw [encodeReferring_compound hhead] at h
      cases h
      simp [encode, constructorName, hhead, encodeAll]
  | .expr head (first :: rest) typeArgs sort =>
    by_cases hhead : head = generatorHead
    · rw [encodeReferring.eq_2, if_pos hhead] at h
      simp only [Bool.false_eq_true, if_false] at h
      cases hfirst : encodeReferring (fun _ => false) first with
      | error failure => rw [hfirst] at h; cases h
      | ok item =>
        cases hrest : encodeReferringAll (fun _ => false) rest with
        | error failure => rw [hfirst, hrest] at h; cases h
        | ok items =>
          rw [hfirst, hrest] at h
          cases h
          rw [encode, encodeAll, encode_of_encodeReferring first hfirst,
            encodeAll_of_encodeReferringAll rest hrest, constructorName, if_pos hhead]
    · rw [encodeReferring_compound hhead] at h
      cases hall : encodeReferringAll (fun _ => false) (first :: rest) with
      | error failure => rw [hall] at h; cases h
      | ok items =>
        rw [hall] at h
        cases h
        rw [encode, encodeAll_of_encodeReferringAll (first :: rest) hall, constructorName,
          if_neg hhead]
  | .null | .bool _ | .int _ | .float _ | .text _ _ | .list _ | .tuple _ | .dict _ | .fin _ _ =>
    cases h
    rfl

theorem encodeAll_of_encodeReferringAll (values : List Value) {items : List Value}
    (h : encodeReferringAll (fun _ => false) values = .ok items) : encodeAll values = items := by
  match values with
  | [] =>
    cases h
    rfl
  | value :: rest =>
    rw [encodeReferringAll] at h
    cases hvalue : encodeReferring (fun _ => false) value with
    | error failure => rw [hvalue] at h; cases h
    | ok item =>
      cases hrest : encodeReferringAll (fun _ => false) rest with
      | error failure => rw [hvalue, hrest] at h; cases h
      | ok items' =>
        rw [hvalue, hrest] at h
        cases h
        rw [encodeAll, encode_of_encodeReferring value hvalue,
          encodeAll_of_encodeReferringAll rest hrest]

end

theorem theory_algebra (calculus : Calculus) (n : Nat) :
    (calculus.algebra n).theory = calculus.theory := by
  cases n <;> rfl

/-- The list of a head and encoded arguments decodes to what the head gives on the arguments. -/
theorem decode_list {reading : Reading} {head : String} {items values : List Value}
    {decoded : Value} (hhead : reading.head head = head)
    (hitems : decodeAll (calculus.algebra n) reading
      (wrapsDatum calculus.theory head items.length) items = .ok values)
    (hcall : (calculus.algebra n).call head values = .ok decoded) :
    decode (calculus.algebra n) reading (.list (.str head :: items)) = .ok decoded := by
  have hshown : (Value.str head).shown = .ok head := rfl
  rw [decode, hshown, bind_eq, ofExcept_ok_bind]
  dsimp only
  rw [hhead, theory_algebra, bind_eq, hitems, ok_bind, hcall]

theorem rawDatum_alike (resolve : Value → Except Failure Value) {datum : Value}
    (h : isScalar datum = true ∨ datum.isText = true) :
    Alike datum (Reading.rawDatum { reference := resolve } datum) := by
  cases datum with
  | text characters symbolic => exact .text characters symbolic _
  | _ => simp_all [isScalar, isText, Reading.rawDatum, Reading.symbol, Alike.refl]

theorem recovers_compound (plain : calculus.Plain) {m : Nat} (hm : m < n)
    {constructor : Constructor} {args typeArgs : List Value}
    (hbuilds : calculus.Builds (calculus.algebra m) constructor args typeArgs)
    (hhead : constructor.head ≠ generatorHead) (hname : constructor.name = constructor.head)
    (harity : calculus.theory.arity? constructor.name = none)
    (hargs : ∀ arg ∈ args, isScalar arg = true ∨ Recovers calculus n byReference resolvers arg) :
    Recovers calculus n byReference resolvers
      (.expr constructor.head args typeArgs constructor.sort) := by
  obtain ⟨items, values, hencode, hlength, halike, hdecode⟩ := decodeAll_encodeReferringAll hargs
  obtain ⟨decoded, hcall, hlike⟩ := plain.call_of_builds hm hbuilds halike
  refine ⟨.list (.str constructor.head :: items), decoded, ?_, rfl, hlike, ?_⟩
  · rw [encodeReferring_compound hhead, hencode]
    rfl
  · intro resolve hresolve
    refine decode_list rfl ?_ (hname ▸ hcall)
    have hwraps : wrapsDatum calculus.theory constructor.head items.length = false := by
      rw [wrapsDatum, ← hname, harity]
    rw [hwraps]
    exact hdecode resolve hresolve

theorem recovers_generator (plain : calculus.Plain) {m : Nat} (hm : m < n) {t : TypeConstructor}
    {datum : Value} {params typeArgs : List Value}
    (hbuilds : calculus.Builds (calculus.algebra m) ⟨t.generator, .generator⟩ (datum :: params)
      typeArgs) (harity : calculus.theory.arity? t.name = some t.arity)
    (hlength : (datum :: params).length = t.arity + 1)
    (hdatum : isScalar datum = true ∨ datum.isText = true)
    (hparams : ∀ param ∈ params,
      isScalar param = true ∨ Recovers calculus n byReference resolvers param)
    (hreference : byReference datum = false) :
    Recovers calculus n byReference resolvers
      (.expr generatorHead (datum :: params) typeArgs t.name) := by
  obtain ⟨items, values, hencode, hitems, halike, hdecode⟩ := decodeAll_encodeReferringAll hparams
  have hraw : encodeReferring byReference datum = .ok datum := by
    rcases hdatum with h | h
    · exact encodeReferring_of_scalar h
    · exact encodeReferring_of_text h
  have hvalue (resolve : Value → Except Failure Value) :
      Reading.rawDatum { reference := resolve } datum =
        Reading.rawDatum { reference := fun _ => .error .badCall } datum := rfl
  obtain ⟨decoded, hcall, hlike⟩ := plain.call_of_builds hm hbuilds
    (.cons (rawDatum_alike (fun _ => .error .badCall) hdatum) halike)
  refine ⟨.list (.str t.name :: datum :: items), decoded, ?_, rfl, hlike, ?_⟩
  · rw [encodeReferring.eq_2, if_pos rfl]
    simp only [hreference, Bool.false_eq_true, if_false, hraw, hencode]
    rfl
  · intro resolve hresolve
    refine decode_list rfl ?_ hcall
    have hwraps : wrapsDatum calculus.theory t.name (datum :: items).length = true := by
      rw [wrapsDatum, harity]
      simp only [List.length_cons] at hlength ⊢
      exact decide_eq_true (by omega)
    simp only [hwraps, decodeAll, Bool.true_or, if_true, hvalue resolve,
      hdecode resolve hresolve]
    rfl

/-- A generator by reference is its text alone, and the resolvers know the text. -/
theorem recovers_reference {datum : Value} {params typeArgs : List Value} {sort : String}
    (hreference : byReference datum = true)
    (h : Resolved byReference resolvers (.expr generatorHead (datum :: params) typeArgs sort)) :
    Recovers calculus n byReference resolvers
      (.expr generatorHead (datum :: params) typeArgs sort) := by
  obtain ⟨characters, symbolic, target, rfl, halike, hresolve⟩ := h _ _ _ _ .here hreference
  refine ⟨.text characters symbolic, target, ?_, rfl, halike, ?_⟩
  · rw [encodeReferring.eq_2, if_pos rfl]
    simp only [hreference, if_true]
    rfl
  · intro resolve hmem
    rw [decode, ofExcept_eq_ok_iff]
    simp only [Reading.symbol, Bool.or_true]
    exact hresolve resolve hmem

/-- Every expression that a plain calculus builds from carried data is recovered. -/
theorem recovers_of_genuine (plain : calculus.Plain) {value : Value}
    (h : calculus.Genuine n value) (hexpr : value.isExpr = true) (hcarried : Carried value)
    (hresolved : Resolved byReference resolvers value) :
    Recovers calculus n byReference resolvers value := by
  induction h with
  | datum h => rw [h] at hexpr; cases hexpr
  | @expr m constructor args typeArgs hm hbuilds hargs _ ih _ =>
    have hpart : ∀ arg ∈ args, arg.isExpr = true ∨ isScalar arg = true →
        isScalar arg = true ∨ Recovers calculus n byReference resolvers arg := by
      rintro arg harg (hexpr | hscalar)
      · exact Or.inr (ih arg harg hexpr (hcarried.of_mem harg) (hresolved.of_mem harg))
      · exact Or.inl hscalar
    have hnode := hcarried _ _ _ _ .here
    rcases plain.builds_cases hbuilds with ⟨hhead, hname, harity⟩ |
      ⟨t, -, rfl, -, -, -, harity, hlength⟩
    · rw [CarriedNode, if_neg hhead] at hnode
      exact recovers_compound plain hm hbuilds hhead hname harity
        fun arg harg => hpart arg harg (hnode arg harg)
    · obtain ⟨datum, params, rfl, hdatum, hparams⟩ := hnode
      cases hreference : byReference datum with
      | true => exact recovers_reference hreference hresolved
      | false =>
        exact recovers_generator plain hm hbuilds harity hlength hdatum
          (fun param hparam => hpart param (List.mem_cons_of_mem _ hparam) (hparams param hparam))
          hreference

/-- Decoding undoes encoding. What is encoded by reference comes back through the resolver; without
references the resolver makes no difference, so it is never asked. -/
theorem decode_encode (plain : calculus.Plain) (n : Nat) {value : Value}
    (hbuilt : (calculus.algebra n).Built value) (hexpr : value.isExpr = true)
    (hcarried : Carried value) :
    (∀ byReference resolve, Resolved byReference (· = resolve) value →
      ∃ sexpr decoded, encodeReferring byReference value = .ok sexpr ∧
        decode (calculus.algebra n) { reference := resolve } sexpr = .ok decoded ∧
        equal value decoded = true ∧ Alike value decoded) ∧
    ∃ decoded, equal value decoded = true ∧ Alike value decoded ∧
      ∀ resolve, decode (calculus.algebra n) { reference := resolve } (encode value) =
        .ok decoded := by
  have hgenuine := plain.genuine_of_built hbuilt
  constructor
  · intro byReference resolve hresolved
    obtain ⟨sexpr, decoded, hencode, -, halike, hdecode⟩ :=
      recovers_of_genuine plain hgenuine hexpr hcarried hresolved
    exact ⟨sexpr, decoded, hencode, hdecode resolve rfl, halike.equal hexpr, halike⟩
  · have hresolved : Resolved (fun _ => false) (fun _ => True) value :=
      fun _ _ _ _ _ hreference => absurd hreference Bool.false_ne_true
    obtain ⟨sexpr, decoded, hencode, -, halike, hdecode⟩ :=
      recovers_of_genuine plain hgenuine hexpr hcarried hresolved
    refine ⟨decoded, halike.equal hexpr, halike, fun resolve => ?_⟩
    rw [encode_of_encodeReferring value hencode]
    exact hdecode resolve trivial

section

open Standard

/-- The pair of a loop with itself is a composite of the copy of its object with a product. It comes
back from its encoding when the object is encoded by its name. -/
theorem decode_encode_pair :
    let a := objectOf (.str "A")
    let f := morphismOf (.str "f") a a
    let square := tensorOfObjects a a
    let value := compositeOf (copyOf a) (tensorOfMorphisms f f square square) a square
    let byReference (datum : Value) : Bool := Value.same datum (.str "A")
    let resolve (name : Value) : Except Failure Value :=
      if Value.same name (.str "A") then .ok a else .error .badCall
    ∃ sexpr decoded, encodeReferring byReference value = .ok sexpr ∧
      decode ((calculusOf cartesian).algebra 4) { reference := resolve } sexpr = .ok decoded ∧
      equal value decoded = true ∧ Alike value decoded := by
  intro a f square value byReference resolve
  have hone {P : Value → Prop} {v : Value} (h : P v) : ∀ w ∈ [v], P w := by simpa using h
  have htwo {P : Value → Prop} {v w : Value} (hv : P v) (hw : P w) : ∀ u ∈ [v, w], P u := by
    simpa using ⟨hv, hw⟩
  have ha : ((calculusOf cartesian).algebra 4).Built a :=
    .call (hone (.datum rfl)) ((makes_object monoidal_cartesian.toCategorical _).call rfl)
  have hf : ((calculusOf cartesian).algebra 4).Built f :=
    .call (List.forall_mem_cons.mpr ⟨.datum rfl, htwo ha ha⟩)
      ((makes_morphism monoidal_cartesian.toCategorical _ rfl rfl).call rfl)
  have hbuilt : ((calculusOf cartesian).algebra 4).Built value :=
    Algebra.BuiltBy.call (htwo hf hf) trivial (show (((calculusOf cartesian).algebra 4).invoke
      "pair" [f, f] (some true)).result = .ok value by cbv)
  have hcarried_a : Carried a := .expr ⟨_, _, rfl, by decide⟩ (hone (.datum rfl))
  have hcarried_f : Carried f := .expr ⟨_, _, rfl, by decide⟩
    (List.forall_mem_cons.mpr ⟨.datum rfl, htwo hcarried_a hcarried_a⟩)
  have hcarried : Carried value := .compound (by decide) (htwo rfl rfl)
    (htwo (.compound (by decide) (hone rfl) (hone hcarried_a))
      (.compound (by decide) (htwo rfl rfl) (htwo hcarried_f hcarried_f)))
  have hresolved_a : Resolved byReference (· = resolve) a :=
    .generator rfl (fun _ => ⟨"A", false, a, rfl, .refl a, by rintro _ rfl; rfl⟩) (by simp)
  have hresolved_f : Resolved byReference (· = resolve) f :=
    .generator rfl (fun h => absurd h (by decide)) (htwo hresolved_a hresolved_a)
  have hresolved : Resolved byReference (· = resolve) value :=
    .compound (by decide) (htwo (.compound (by decide) (hone hresolved_a))
      (.compound (by decide) (htwo hresolved_f hresolved_f)))
  exact (decode_encode plain_cartesian 4 hbuilt rfl hcarried).1 byReference resolve hresolved

end

end TermAlgebra.SExpr
