import TermAlgebra.Proofs.WrittenDocuments

/-!
Documents carry expressions. A document is written and read without loss but for the difference
between names and other texts, and the decoder takes every text for a name, so what it makes of the
document is what it makes of the encoding itself. As it accepts encodings only, what it makes is
written as the same document again.
-/
namespace TermAlgebra.SExpr

open Outcome Value Calculus

section

variable {algebra : Algebra} {reading : Reading}

theorem symbol_text (hsymbols : reading.symbols = true) (characters : String)
    (symbolic symbolic' : Bool) :
    reading.symbol (.text characters symbolic) = reading.symbol (.text characters symbolic') := by
  simp [Reading.symbol, hsymbols]

/-- Where texts are taken for names, it makes no difference which of them are. -/
theorem rawDatum_unmarked (hsymbols : reading.symbols = true) {item : Value}
    (h : isScalar item = true ∨ item.isText = true) :
    reading.rawDatum (unmarked item) = reading.rawDatum item := by
  cases item with
  | text characters symbolic =>
    exact congrArg reading.datum (symbol_text hsymbols characters false symbolic)
  | list => simp [isScalar, isText] at h
  | _ => rfl

theorem isScalar_unmarked (item : Value) : isScalar (unmarked item) = isScalar item := by
  cases item <;> rfl

theorem length_unmarkedAll (items : List Value) : (unmarkedAll items).length = items.length := by
  rw [unmarkedAll_eq_map, List.length_map]

mutual

theorem decode_unmarked (hsymbols : reading.symbols = true)
    (hhead : ∀ head, reading.head head = head) (sexpr : Value)
    (hheaded : Headed algebra.theory sexpr) :
    decode algebra reading (unmarked sexpr) = decode algebra reading sexpr := by
  match sexpr with
  | .text characters symbolic =>
    exact congrArg (fun name => Outcome.ofExcept (reading.reference name))
      (symbol_text hsymbols characters false symbolic)
  | .list (.text head symbolic :: items) =>
    cases hheaded with
    | scalar hscalar => cases hscalar
    | list _ hdatum hitems =>
      have hvalues := decodeAll_unmarkedAll hsymbols hhead
        (wrapsDatum algebra.theory head items.length) items hitems
        fun hwraps => hdatum (mem_typeNames_of_wrapsDatum hwraps)
      have hshown (symbolic : Bool) : (Value.text head symbolic).shown = .ok head := rfl
      change decode algebra reading (.list (.text head false :: unmarkedAll items)) = _
      rw [decode, decode, hshown, hshown, bind_eq, bind_eq, ofExcept_ok_bind, ofExcept_ok_bind,
        length_unmarkedAll, hhead]
      exact congrArg (fun values => values >>= algebra.call head) hvalues
  | .list [] | .null | .bool _ | .int _ | .float _ | .tuple _ | .dict _ | .fin _ _
  | .expr _ _ _ _ => rfl
  | .list (.list _ :: _) | .list (.null :: _) | .list (.bool _ :: _) | .list (.int _ :: _)
  | .list (.float _ :: _) | .list (.tuple _ :: _) | .list (.dict _ :: _) | .list (.fin _ _ :: _)
  | .list (.expr _ _ _ _ :: _) =>
    cases hheaded with
    | scalar hscalar => cases hscalar

theorem decodeAll_unmarkedAll (hsymbols : reading.symbols = true)
    (hhead : ∀ head, reading.head head = head) (rawFirst : Bool)
    (items : List Value) (hitems : ∀ item ∈ items, Headed algebra.theory item)
    (hdatum : rawFirst = true → ∀ datum ∈ items.head?,
      isScalar datum = true ∨ datum.isText = true) :
    decodeAll algebra reading rawFirst (unmarkedAll items) =
      decodeAll algebra reading rawFirst items := by
  match items with
  | [] => rfl
  | item :: rest =>
    obtain ⟨hitem, hrest⟩ := List.forall_mem_cons.mp hitems
    rw [unmarkedAll, decodeAll, decodeAll, isScalar_unmarked,
      decodeAll_unmarkedAll hsymbols hhead false rest hrest (by simp),
      decode_unmarked hsymbols hhead item hitem]
    by_cases hraw : (rawFirst || isScalar item) = true
    · have hplace : isScalar item = true ∨ item.isText = true := by
        rcases Bool.or_eq_true_iff.mp hraw with hfirst | hscalar
        · exact hdatum hfirst item rfl
        · exact Or.inl hscalar
      rw [rawDatum_unmarked hsymbols hplace]
    · rw [if_neg hraw, if_neg hraw]

end

end

/-- No number with a fraction stands among the arguments at any depth. -/
def Exact (value : Value) : Prop := ∀ x, ¬Occurs (.float x) value

theorem Exact.of_mem {head sort : String} {args typeArgs : List Value}
    (h : Exact (.expr head args typeArgs sort)) {arg : Value} (harg : arg ∈ args) : Exact arg :=
  fun x hoccurs => h x (.within harg hoccurs)

theorem Exact.expr {head sort : String} {args typeArgs : List Value}
    (hargs : ∀ arg ∈ args, Exact arg) : Exact (.expr head args typeArgs sort) := by
  intro x hoccurs
  cases hoccurs with
  | within harg h => exact hargs _ harg x h

variable {calculus : Calculus} {n : Nat}

/-- Data that are no floats are written and stand where the decoder expects them. -/
theorem headed_datum (theory : Theory) {datum : Value} (hexact : Exact datum)
    (h : isScalar datum = true ∨ datum.isText = true) :
    encode datum = datum ∧ Headed theory datum ∧ Json.Writable datum := by
  cases datum with
  | null => exact ⟨rfl, .scalar rfl rfl, .null⟩
  | bool b => exact ⟨rfl, .scalar rfl rfl, .bool b⟩
  | int n => exact ⟨rfl, .scalar rfl rfl, .int n⟩
  | float x => exact absurd .here (hexact x)
  | text characters symbolic =>
    exact ⟨rfl, .text characters symbolic, .text characters symbolic⟩
  | _ => simp [isScalar, isText] at h

theorem not_mem_typeNames_of_arity? (hconsistent : calculus.theory.Consistent) {name : String}
    (h : calculus.theory.arity? name = none) : name ∉ calculus.theory.typeNames := by
  rw [hconsistent.arity?_eq, Option.map_eq_none_iff] at h
  exact Theory.type?_eq_none_iff.mp h

/-- The encoding of an expression can be written and is headed by constructors. -/
theorem headed_encode (plain : calculus.Plain) {value : Value} (h : calculus.Genuine n value)
    (hexpr : value.isExpr = true) (hcarried : Carried value) (hexact : Exact value) :
    Headed calculus.theory (encode value) ∧ Json.Writable (encode value) := by
  induction h with
  | datum h => rw [h] at hexpr; cases hexpr
  | @expr m constructor args typeArgs hm hbuilds hargs _ ih _ =>
    have hpart : ∀ arg ∈ args, arg.isExpr = true ∨ isScalar arg = true ∨ arg.isText = true →
        Headed calculus.theory (encode arg) ∧ Json.Writable (encode arg) := by
      rintro arg harg (hexpr | hdatum)
      · exact ih arg harg hexpr (hcarried.of_mem harg) (hexact.of_mem harg)
      · obtain ⟨hencode, hparts⟩ := headed_datum calculus.theory (hexact.of_mem harg) hdatum
        rwa [hencode]
    have hnode := hcarried _ _ _ _ .here
    rw [encode, plain.constructorName_of_builds hbuilds, encodeAll_eq_map]
    suffices hparts : (∀ arg ∈ args,
          Headed calculus.theory (encode arg) ∧ Json.Writable (encode arg)) ∧
        (constructor.name ∈ calculus.theory.typeNames → ∀ datum ∈ (args.map encode).head?,
          isScalar datum = true ∨ datum.isText = true) by
      refine ⟨.list hbuilds.not_accessor hparts.2 ?_, .list (List.forall_mem_cons.mpr
        ⟨.text _ _, ?_⟩)⟩
      · exact List.forall_mem_map.mpr fun arg harg => (hparts.1 arg harg).1
      · exact List.forall_mem_map.mpr fun arg harg => (hparts.1 arg harg).2
    rcases plain.builds_cases hbuilds with ⟨hhead, -, harity⟩ | ⟨t, -, rfl, -⟩
    · rw [CarriedNode, if_neg hhead] at hnode
      refine ⟨fun arg harg => hpart arg harg ((hnode arg harg).imp_right Or.inl), fun hname => ?_⟩
      exact absurd hname (not_mem_typeNames_of_arity? plain.accepted.consistent harity)
    · obtain ⟨datum, params, rfl, hdatum, hparams⟩ := hnode
      refine ⟨List.forall_mem_cons.mpr ⟨hpart datum List.mem_cons_self (Or.inr hdatum), ?_⟩, ?_⟩
      · intro param hparam
        exact hpart param (List.mem_cons_of_mem _ hparam) ((hparams param hparam).imp_right Or.inl)
      · rintro - first hfirst
        obtain rfl := Option.some.inj hfirst
        rwa [(headed_datum calculus.theory (hexact.of_mem List.mem_cons_self) hdatum).1]

/-- An expression without fractions comes back from its document, and is written as the same
document again. -/
theorem load_write (primitive : calculus.Primitive) (n : Nat) {value : Value}
    (hbuilt : (calculus.algebra n).Built value) (hexpr : value.isExpr = true)
    (hcarried : Carried value) (hexact : Exact value) :
    ∃ document decoded, write (encode value) = .ok document ∧
      load (calculus.algebra n) {} document = .ok decoded ∧
      equal value decoded = true ∧ Alike value decoded ∧
      write (encode decoded) = .ok document := by
  have hgenuine := primitive.toPlain.genuine_of_built hbuilt
  obtain ⟨hheaded, hwritable⟩ := headed_encode primitive.toPlain hgenuine hexpr hcarried hexact
  obtain ⟨document, hwrite, hread⟩ := hwritable.read_write
  obtain ⟨-, decoded, hequal, halike, hdecode⟩ :=
    decode_encode primitive.toPlain n hbuilt hexpr hcarried
  have hdecoded : decode (calculus.algebra n) {} (encode value) = .ok decoded := hdecode _
  refine ⟨document, decoded, hwrite, ?_, hequal, halike, ?_⟩
  · rw [load, hread]
    rw [← theory_algebra calculus n] at hheaded
    exact (decode_unmarked rfl (fun _ => rfl) _ hheaded).trans hdecoded
  · -- Equal values may be written differently, so this is no consequence of the equality.
    obtain ⟨-, hback⟩ := readBack_of_decode primitive (encode value) hheaded hdecoded
    rw [← Json.write_unmarked, hback.unmarked, Json.write_unmarked, hwrite]

section

open Standard

/-- The name of the object has a quote, a backslash, a control character, an accented letter and a
character beyond U+FFFF. -/
theorem load_write_identity :
    let value := identityOn (objectOf (.str "\"\\\x01é😀"))
    ∃ document decoded, write (encode value) = .ok document ∧
      load ((calculusOf category).algebra 4) {} document = .ok decoded ∧
      equal value decoded = true ∧ Alike value decoded ∧
      write (encode decoded) = .ok document := by
  intro value
  have hbuilt : ((calculusOf category).algebra 4).Built value :=
    (makes_identity categorical_category rfl).built rfl
      (List.forall_mem_singleton.mpr (built_object categorical_category rfl _ 3))
  have hcarried : Carried value :=
    .compound (by decide) (List.forall_mem_singleton.mpr rfl)
      (List.forall_mem_singleton.mpr (.expr ⟨_, [], rfl, Or.inr rfl, by simp⟩
        (List.forall_mem_singleton.mpr (.datum rfl))))
  have hexact : Exact value :=
    .expr (List.forall_mem_singleton.mpr (.expr (List.forall_mem_singleton.mpr nofun)))
  exact load_write primitive_category 4 hbuilt rfl hcarried hexact

end

end TermAlgebra.SExpr
