import TermAlgebra.Proofs.DecodedValues
import TermAlgebra.Proofs.EqualTypes

/-!
The decoder accepts encodings only. It takes a list as a call of the list's head on the rest, and
raw data as themselves except that their texts become names; where no list stands in the place of a
generator's datum and no head is an accessor, the call can only have built an expression from these
arguments, whose encoding is the list again. So two S-expressions that decode to one expression
differ at most in which of their texts are names.
-/
namespace TermAlgebra.SExpr

open Outcome Value Calculus

mutual

/-- The S-expression with plain texts for names. -/
def unmarked : Value → Value
  | .text characters _ => .str characters
  | .list items => .list (unmarkedAll items)
  | value => value

def unmarkedAll : List Value → List Value
  | [] => []
  | item :: rest => unmarked item :: unmarkedAll rest

end

theorem unmarkedAll_eq_map (items : List Value) : unmarkedAll items = items.map unmarked := by
  induction items with
  | nil => rfl
  | cons item rest ih => rw [unmarkedAll, ih, List.map_cons]

theorem forall₂_of_map_eq {items items' : List Value}
    (h : items.map unmarked = items'.map unmarked)
    (hsame : ∀ item ∈ items, ∀ item', unmarked item = unmarked item' → Same item item') :
    List.Forall₂ Same items items' := by
  induction items generalizing items' with
  | nil =>
    cases List.map_eq_nil_iff.mp h.symm
    exact .nil
  | cons item rest ih =>
    cases items' with
    | nil => cases h
    | cons item' rest' =>
      obtain ⟨hitem, hrest⟩ := List.cons.inj h
      exact .cons (hsame item List.mem_cons_self item' hitem)
        (ih hrest fun own hown => hsame own (List.mem_cons_of_mem _ hown))

/-- S-expressions that differ only in which texts are names are the same value. -/
theorem same_of_unmarked {a b : Value} (h : unmarked a = unmarked b) : Same a b := by
  induction a using parts_induction generalizing b with
  | text characters symbolic =>
    cases b with
    | text characters' symbolic' =>
      obtain ⟨rfl, -⟩ := Value.text.inj h
      exact same_text_iff.mpr ⟨_, rfl⟩
    | _ => cases h
  | list items ih =>
    cases b with
    | list items' =>
      simp only [unmarked, unmarkedAll_eq_map, Value.list.injEq] at h
      exact same_list_iff.mpr ⟨_, rfl, forall₂_of_map_eq h fun item hitem _ => ih item hitem⟩
    | _ => cases h
  | number a number hnumber =>
    cases a <;> first | (cases hnumber; done) | (cases b <;> cases h; exact same_refl _)
  | _ =>
    cases b <;> cases h
    exact same_refl _

/-- Every list is headed by a text that is no accessor, and under the name of a type constructor
no list stands in the place of the datum. -/
inductive Headed (theory : Theory) : Value → Prop
  | scalar {value} (hscalar : isScalar value = true) (hdefined : value.isUndefined = false) :
      Headed theory value
  | text (characters : String) (symbolic : Bool) : Headed theory (.text characters symbolic)
  | list {head : String} {symbolic : Bool} {items : List Value}
      (hhead : theory.isAccessor head = false)
      (hdatum : head ∈ theory.typeNames → ∀ datum ∈ items.head?,
        isScalar datum = true ∨ datum.isText = true)
      (hitems : ∀ item ∈ items, Headed theory item) :
      Headed theory (.list (.text head symbolic :: items))

theorem mem_typeNames_of_wrapsDatum {theory : Theory} {head : String} {count : Nat}
    (h : wrapsDatum theory head count = true) : head ∈ theory.typeNames := by
  rw [wrapsDatum] at h
  cases harity : theory.arity? head with
  | none => simp [harity] at h
  | some arity =>
    obtain ⟨t, ht, heq⟩ := List.mem_map.mp (mem_of_lastEntry harity)
    obtain ⟨rfl, -⟩ := Prod.mk.inj heq
    exact List.mem_map.mpr ⟨t, ht, rfl⟩

section

variable {algebra : Algebra} {reading : Reading}

mutual

theorem silent_decode (hsilent : algebra.Silent) (sexpr : Value) :
    (decode algebra reading sexpr).Silent := by
  match sexpr with
  | .text characters symbolic => exact silent_ofExcept _
  | .list (head :: args) =>
    rw [decode]
    refine (silent_ofExcept _).bind fun written => ?_
    exact (silent_decodeAll hsilent _ args).bind fun values => hsilent _ _ _
  | .list [] | .null | .bool _ | .int _ | .float _ | .tuple _ | .dict _ | .fin _ _
  | .expr _ _ _ _ => exact silent_fail _

theorem silent_decodeAll (hsilent : algebra.Silent) (rawFirst : Bool) (items : List Value) :
    (decodeAll algebra reading rawFirst items).Silent := by
  match items with
  | [] => exact silent_ok _
  | item :: rest =>
    rw [decodeAll]
    have hrest (value : Value) : ((decodeAll algebra reading false rest).bind fun values =>
        ok (value :: values)).Silent :=
      (silent_decodeAll hsilent false rest).bind fun values => silent_ok _
    split
    · exact hrest _
    · exact (silent_decode hsilent item).bind hrest

end

end

/-- Calls of constructors alone. -/
def Constructs (theory : Theory) (name : String) (_args : List Value) (_strict? : Option Bool) :
    Prop :=
  theory.isAccessor name = false

/-- What a place of the S-expression gave: a legible datum or an expression that constructors built,
which encodes as what stands there. -/
structure ReadBack (calculus : Calculus) (n : Nat) (item value : Value) : Prop where
  built : (calculus.algebra n).BuiltBy (Constructs calculus.theory) value
  legible : Legible value
  unmarked : unmarked (encode value) = unmarked item

variable {calculus : Calculus} {n : Nat}

theorem readBack_rawDatum {item : Value} (hheaded : Headed calculus.theory item)
    (h : isScalar item = true ∨ item.isText = true) :
    ReadBack calculus n item (Reading.rawDatum {} item) := by
  cases hheaded with
  | @scalar value hscalar hdefined =>
    have hraw : Reading.rawDatum {} item = item := by
      cases item <;> simp_all [isScalar, Reading.rawDatum, Reading.symbol]
    have hdatum : item.isExpr = false ∧ encode item = item := by
      cases item <;> simp_all [isScalar, isExpr, encode, encodeDatum]
    rw [hraw]
    exact ⟨.datum hdatum.1, .datum hdatum.1 (by simp [isLegible, hscalar, hdefined]),
      by rw [hdatum.2]⟩
  | text characters symbolic => exact ⟨.datum rfl, .datum rfl rfl, rfl⟩
  | list => simp [isScalar, isText] at h

theorem readBack_of_call (primitive : calculus.Primitive) {head : String}
    {symbolic : Bool} {items values : List Value} {result : Value}
    (hhead : calculus.theory.isAccessor head = false)
    (hvalues : List.Forall₂ (ReadBack calculus n) items values)
    (hcall : (calculus.algebra n).call head values = .ok result) :
    result.isExpr = true ∧
      ReadBack calculus n (.list (.text head symbolic :: items)) result := by
  obtain ⟨m, constructor, typeArgs, -, rfl, hbuilds, rfl⟩ :=
    primitive.builds_of_call hhead hcall
  have hparts : (∀ value ∈ values,
        (calculus.algebra n).BuiltBy (Constructs calculus.theory) value ∧ Legible value) ∧
      unmarkedAll (encodeAll values) = unmarkedAll items := by
    clear hcall hbuilds
    induction hvalues with
    | nil => exact ⟨by simp, rfl⟩
    | cons hvalue _ ih =>
      refine ⟨List.forall_mem_cons.mpr ⟨⟨hvalue.built, hvalue.legible⟩, ih.1⟩, ?_⟩
      rw [encodeAll, unmarkedAll, unmarkedAll, hvalue.unmarked, ih.2]
  refine ⟨rfl, .call (fun value hvalue => (hparts.1 value hvalue).1) hhead
    (congrArg Outcome.result hcall), ?_, ?_⟩
  · exact primitive.toPlain.allData_call (fun value hvalue => (hparts.1 value hvalue).2) hcall
  · rw [encode, primitive.toPlain.constructorName_of_builds hbuilds]
    simp only [unmarked, unmarkedAll, hparts.2]
    rfl

mutual

/-- What an S-expression decodes to encodes as the S-expression. -/
theorem readBack_of_decode (primitive : calculus.Primitive) (sexpr : Value)
    (hheaded : Headed calculus.theory sexpr) {result : Value}
    (h : decode (calculus.algebra n) {} sexpr = .ok result) :
    result.isExpr = true ∧ ReadBack calculus n sexpr result := by
  have hsilent := primitive.toPlain.silent n
  match sexpr with
  | .list (.text head symbolic :: items) =>
    cases hheaded with
    | scalar hscalar => cases hscalar
    | list hhead hdatum hitems =>
      have hshown : (Value.text head symbolic).shown = .ok head := rfl
      rw [decode, hshown, bind_eq, ofExcept_ok_bind] at h
      obtain ⟨values, hvalues, hcall⟩ := (silent_decodeAll hsilent _ items).bind_eq_ok_iff.mp h
      refine readBack_of_call primitive hhead ?_ hcall
      refine readBack_of_decodeAll primitive _ items hitems (fun hwraps => hdatum ?_) hvalues
      rw [theory_algebra] at hwraps
      exact mem_typeNames_of_wrapsDatum hwraps
  | .text characters symbolic => cases (ofExcept_eq_ok_iff _ _).mp h
  | .list [] | .null | .bool _ | .int _ | .float _ | .tuple _ | .dict _ | .fin _ _
  | .expr _ _ _ _ => exact absurd h (fail_ne_ok _ _)
  | .list (.list _ :: _) | .list (.null :: _) | .list (.bool _ :: _) | .list (.int _ :: _)
  | .list (.float _ :: _) | .list (.tuple _ :: _) | .list (.dict _ :: _) | .list (.fin _ _ :: _)
  | .list (.expr _ _ _ _ :: _) =>
    cases hheaded with
    | scalar hscalar => cases hscalar

theorem readBack_of_decodeAll (primitive : calculus.Primitive) (rawFirst : Bool)
    (items : List Value) (hitems : ∀ item ∈ items, Headed calculus.theory item)
    (hdatum : rawFirst = true → ∀ datum ∈ items.head?,
      isScalar datum = true ∨ datum.isText = true) {values : List Value}
    (h : decodeAll (calculus.algebra n) {} rawFirst items = .ok values) :
    List.Forall₂ (ReadBack calculus n) items values := by
  have hsilent := primitive.toPlain.silent n
  match items with
  | [] =>
    cases (ok_eq_ok_iff _ _).mp h
    exact .nil
  | item :: rest =>
    obtain ⟨hitem, hrest⟩ := List.forall_mem_cons.mp hitems
    rw [decodeAll] at h
    by_cases hraw : (rawFirst || isScalar item) = true
    · rw [if_pos hraw, pure_eq, bind_eq, ok_bind] at h
      obtain ⟨values', hvalues', hresult⟩ :=
        (silent_decodeAll hsilent false rest).bind_eq_ok_iff.mp h
      cases (ok_eq_ok_iff _ _).mp hresult
      refine .cons (readBack_rawDatum hitem ?_)
        (readBack_of_decodeAll primitive false rest hrest (by simp) hvalues')
      rcases Bool.or_eq_true_iff.mp hraw with hfirst | hscalar
      · exact hdatum hfirst item rfl
      · exact Or.inl hscalar
    · rw [if_neg hraw] at h
      obtain ⟨value, hvalue, h⟩ := (silent_decode hsilent item).bind_eq_ok_iff.mp h
      obtain ⟨values', hvalues', hresult⟩ :=
        (silent_decodeAll hsilent false rest).bind_eq_ok_iff.mp h
      cases (ok_eq_ok_iff _ _).mp hresult
      exact .cons (readBack_of_decode primitive item hitem hvalue).2
        (readBack_of_decodeAll primitive false rest hrest (by simp) hvalues')

end

theorem ReadBack.equal {sexpr value : Value} (hexpr : value.isExpr = true)
    (h : ReadBack calculus n sexpr value) : equal (encode value) sexpr = true := by
  have hdefined : (encode value).isUndefined = false := by
    cases value with
    | expr => rfl
    | _ => cases hexpr
  have hsame : same (encode value) sexpr = true := same_of_unmarked h.unmarked
  simp [Value.equal, hdefined, hsame]

/-- The decoder accepts exactly the encodings: what it makes of an S-expression was built by
constructors and encodes as the S-expression, scalar by scalar, and alike expressions come from
equal S-expressions. -/
theorem encode_of_decode (primitive : calculus.Primitive) (n : Nat) {sexpr : Value}
    (hheaded : Headed calculus.theory sexpr) {value : Value}
    (h : decode (calculus.algebra n) {} sexpr = .ok value) :
    (value.isExpr = true ∧
      (calculus.algebra n).BuiltBy (Constructs calculus.theory) value ∧
      unmarked (encode value) = unmarked sexpr ∧ equal (encode value) sexpr = true) ∧
    ∀ sexpr' value', Headed calculus.theory sexpr' →
      decode (calculus.algebra n) {} sexpr' = .ok value' →
      (value = value' → unmarked sexpr = unmarked sexpr') ∧
      (Alike value value' → equal sexpr sexpr' = true) := by
  obtain ⟨hexpr, hread⟩ := readBack_of_decode primitive sexpr hheaded h
  refine ⟨⟨hexpr, hread.built, hread.unmarked, hread.equal hexpr⟩, ?_⟩
  intro sexpr' value' hheaded' h'
  obtain ⟨hexpr', hread'⟩ := readBack_of_decode primitive sexpr' hheaded' h'
  constructor
  · rintro rfl
    rw [← hread.unmarked, hread'.unmarked]
  · intro halike
    have hdefined : sexpr.isUndefined = false := by
      cases hheaded with
      | scalar _ hdefined => exact hdefined
      | _ => rfl
    have hencode := same_encode_of_alike hread.legible halike
    have hsame : same sexpr sexpr' = true := by
      refine Same.trans (same_of_unmarked hread.unmarked.symm) (hencode.trans ?_)
      exact same_of_unmarked hread'.unmarked
    simp [Value.equal, hdefined, hsame]

section

open Standard

theorem primitive_category : (calculusOf category).Primitive where
  toPlain := plain_category
  definition? := by
    intro c hc
    simp only [calculusOf, category, List.mem_cons, List.not_mem_nil, or_false] at hc
    rcases hc with rfl | rfl <;> rfl

/-- The identity of an object: the object's name was a text, and is a name once it is read. -/
theorem encode_of_decode_identity :
    let sexpr := Value.list [.str "id", .list [.str "Ob", .str "A"]]
    let value := identityOn (objectOf (.text "A" true))
    Headed category sexpr ∧ decode ((calculusOf category).algebra 4) {} sexpr = .ok value ∧
      unmarked (encode value) = unmarked sexpr := by
  intro sexpr value
  have hheaded : Headed category sexpr := by
    refine .list (by decide) (by decide) (List.forall_mem_singleton.mpr ?_)
    refine .list (by decide) (fun _ datum hdatum => ?_)
      (List.forall_mem_singleton.mpr (.text _ _))
    cases hdatum
    exact Or.inr rfl
  have hname : decodeAll ((calculusOf category).algebra 4) {} true [.str "A"] =
      .ok [.text "A" true] := rfl
  have hobject : decodeAll ((calculusOf category).algebra 4) {} false
      [.list [.str "Ob", .str "A"]] = .ok [objectOf (.text "A" true)] := by
    rw [decodeAll, if_neg (by decide),
      decode_list rfl hname ((makes_object categorical_category _).call rfl)]
    rfl
  have hdecode : decode ((calculusOf category).algebra 4) {} sexpr = .ok value :=
    decode_list rfl hobject ((makes_identity categorical_category rfl).call rfl)
  exact ⟨hheaded, hdecode,
    (encode_of_decode primitive_category 4 hheaded hdecode).1.2.2.1⟩

end

end TermAlgebra.SExpr
