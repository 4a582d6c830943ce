import TermAlgebra.Proofs.ComposedImages

/-!
What a computation comes to when its calls may nest as deep as they need. With the bound on nesting
raised a call is cut off for a while and then has one result for good, or it is cut off for ever.
Either way its results settle, and so do those of evaluations and of functors, for these are cut off
only where one of their calls is. An operation may look at the time; all this is about values on
which none does, and of which calls make such values again.
-/
namespace TermAlgebra

section Settling

variable {α β : Type}

/-- The first computation was cut off, or the other gives the same. -/
def CutOff (result other : Except Failure α) : Prop := result = .error .exhausted ∨ result = other

theorem CutOff.refl (result : Except Failure α) : CutOff result result := .inr rfl

theorem CutOff.bind {result other : Except Failure α} {next next' : α → Except Failure β}
    (h : CutOff result other) (hnext : ∀ value, other = .ok value →
      CutOff (next value) (next' value)) : CutOff (result.bind next) (other.bind next') := by
  rcases h with rfl | rfl
  · exact .inl rfl
  · cases result with
    | error failure => exact .inr rfl
    | ok value => exact hnext value rfl

/-- Whatever the bound on nesting, the computation is cut off or has the result; and from some bound
on it has the result. -/
structure Settles (results : Nat → Except Failure α) (result : Except Failure α) : Prop where
  cutOff : ∀ n, CutOff (results n) result
  eventually : ∃ bound, ∀ n, bound ≤ n → results n = result

def Stable (results : Nat → Except Failure α) : Prop := ∃ result, Settles results result

variable {results : Nat → Except Failure α}

theorem settles_of_forall {result : Except Failure α} (h : ∀ n, results n = result) :
    Settles results result :=
  ⟨fun n => .inr (h n), 0, fun n _ => h n⟩

theorem settles_const (result : Except Failure α) : Settles (fun _ => result) result :=
  settles_of_forall fun _ => rfl

theorem Settles.unique {result other : Except Failure α} (h : Settles results result)
    (h' : Settles results other) : result = other := by
  obtain ⟨bound, hbound⟩ := h.eventually
  obtain ⟨bound', hbound'⟩ := h'.eventually
  rw [← hbound (max bound bound') (Nat.le_max_left _ _),
    hbound' (max bound bound') (Nat.le_max_right _ _)]

theorem Settles.eq_of_add {result other : Except Failure α} (h : Settles results result) (k : Nat)
    (hother : ∀ n, results (n + k) = other) : result = other := by
  obtain ⟨bound, hbound⟩ := h.eventually
  rw [← hbound (bound + k) (Nat.le_add_right bound k), hother]

/-- Where the computation begins to count does not matter, if no nesting at all cuts it off. -/
theorem settles_succ_iff (hzero : results 0 = .error .exhausted) {result : Except Failure α} :
    Settles (fun n => results (n + 1)) result ↔ Settles results result := by
  constructor
  · rintro ⟨hcut, bound, hbound⟩
    refine ⟨fun n => ?_, bound + 1, fun n hn => ?_⟩
    · cases n with
      | zero => exact .inl hzero
      | succ n => exact hcut n
    · obtain ⟨m, rfl⟩ := Nat.exists_eq_add_of_le' (Nat.le_of_add_left_le hn)
      exact hbound m (by omega)
  · rintro ⟨hcut, bound, hbound⟩
    exact ⟨fun n => hcut (n + 1), bound, fun n hn => hbound (n + 1) (by omega)⟩

section Chains

variable {next : Nat → α → Except Failure β}

theorem Settles.bind {value : α} {result : Except Failure β} (h : Settles results (.ok value))
    (hnext : Settles (fun n => next n value) result) :
    Settles (fun n => (results n).bind (next n)) result := by
  obtain ⟨bound, hbound⟩ := h.eventually
  obtain ⟨bound', hbound'⟩ := hnext.eventually
  refine ⟨fun n => ?_, max bound bound', fun n hn => ?_⟩
  · have hchain : CutOff ((results n).bind (next n)) ((Except.ok value).bind fun _ => result) :=
      (h.cutOff n).bind fun _ hvalue => by
        cases hvalue
        exact hnext.cutOff n
    exact hchain
  · have hle := Nat.max_le.mp hn
    change (results n).bind (next n) = result
    rw [hbound n hle.1]
    exact hbound' n hle.2

theorem Settles.bind_error {failure : Failure} (h : Settles results (.error failure)) :
    Settles (fun n => (results n).bind (next n)) (.error failure) := by
  obtain ⟨bound, hbound⟩ := h.eventually
  refine ⟨fun n => ?_, bound, fun n hn => ?_⟩
  · have hchain : CutOff ((results n).bind (next n)) ((Except.error failure).bind (next n)) :=
      (h.cutOff n).bind fun _ hvalue => nomatch hvalue
    exact hchain
  · rw [hbound n hn]
    rfl

/-- A chain that comes to a value has done so in its steps. -/
theorem Settles.exists_of_bind (h : Stable results)
    (hnext : ∀ value, Settles results (.ok value) → Stable fun n => next n value) {value : β}
    (hbind : Settles (fun n => (results n).bind (next n)) (.ok value)) :
    ∃ first, Settles results (.ok first) ∧ Settles (fun n => next n first) (.ok value) := by
  obtain ⟨failure | first, hresults⟩ := h
  · cases hbind.unique hresults.bind_error
  · obtain ⟨result, hresult⟩ := hnext first hresults
    cases hbind.unique (hresults.bind hresult)
    exact ⟨first, hresults, hresult⟩

/-- Chains from the same result by steps that come to the same come to the same. -/
theorem Settles.exists_bind {results' : Nat → Except Failure α}
    {next' : Nat → α → Except Failure β} {result : Except Failure α} (h : Settles results result)
    (h' : Settles results' result) (hnext : ∀ value, result = .ok value → ∃ final,
      Settles (fun n => next n value) final ∧ Settles (fun n => next' n value) final) :
    ∃ final, Settles (fun n => (results n).bind (next n)) final ∧
      Settles (fun n => (results' n).bind (next' n)) final := by
  cases result with
  | error failure => exact ⟨_, h.bind_error, h'.bind_error⟩
  | ok value =>
    obtain ⟨final, hfinal, hfinal'⟩ := hnext value rfl
    exact ⟨final, h.bind hfinal, h'.bind hfinal'⟩

/-- A chain that collects values has done so from its first computation on. -/
theorem Settles.exists_of_cons {rests : Nat → Except Failure (List α)} (h : Stable results)
    (hrests : Stable rests) {values : List α} (hcons : Settles (fun n =>
      (results n).bind fun value => (rests n).bind fun rest => .ok (value :: rest)) (.ok values)) :
    ∃ value rest, values = value :: rest ∧ Settles results (.ok value) ∧
      Settles rests (.ok rest) := by
  obtain ⟨failure | value, hvalue⟩ := h
  · cases hcons.unique hvalue.bind_error
  · obtain ⟨failure | rest, hrest⟩ := hrests
    · cases hcons.unique (hvalue.bind hrest.bind_error)
    · cases hcons.unique (hvalue.bind (hrest.bind (settles_const _)))
      exact ⟨value, rest, rfl, hvalue, hrest⟩

end Chains

theorem stable_of_cutOff (h : ∀ n, CutOff (results n) (results (n + 1))) : Stable results := by
  have hlasts {m : Nat} (hm : results m ≠ .error .exhausted) (n : Nat) (hn : m ≤ n) :
      results n = results m := by
    induction n, hn using Nat.le_induction with
    | base => rfl
    | succ n _ ih =>
      rcases h n with hexhausted | hsame
      · exact absurd (ih.symm.trans hexhausted) hm
      · rw [← hsame, ih]
  by_cases hcut : ∀ n, results n = .error .exhausted
  · exact ⟨_, fun n => .inl (hcut n), 0, fun n _ => hcut n⟩
  · obtain ⟨bound, hbound⟩ := not_forall.mp hcut
    refine ⟨results bound, fun n => ?_, bound, hlasts hbound⟩
    by_cases hn : results n = .error .exhausted
    · exact .inl hn
    · rcases Nat.le_total n bound with hle | hle
      · exact .inr (hlasts hn bound hle).symm
      · exact .inr (hlasts hbound n hle)

theorem Stable.settles {value : α} (h : Stable results) {n : Nat} (hn : results n = .ok value) :
    Settles results (.ok value) := by
  obtain ⟨result, hresult⟩ := h
  rcases hresult.cutOff n with hcut | hsame
  · cases hn.symm.trans hcut
  · rw [← hn, hsame]
    exact hresult

end Settling

namespace Outcome

variable {α β : Type} {P : α → Prop} {Q : β → Prop}

/-- The result does not depend on when the operation starts, and a value has the property. -/
structure Keeps (P : α → Prop) (outcome : Outcome α) : Prop where
  timeless : outcome.Timeless
  value : ∀ value, outcome.result = .ok value → P value

theorem keeps_ok {value : α} (h : P value) : (ok value).Keeps P where
  timeless := (silent_ok value).timeless
  value := by
    rintro _ ⟨⟩
    exact h

theorem keeps_fail (failure : Failure) : (fail failure : Outcome α).Keeps P where
  timeless := (silent_fail failure).timeless
  value := nofun

/-- The result of a chain is that of its steps in turn. -/
theorem Keeps.bind_run {outcome : Outcome α} {next : α → Outcome β} (h : outcome.Keeps P)
    (hnext : ∀ value, P value → (next value).Timeless) (stamp : Nat) :
    ((outcome.bind next).run stamp).result =
      outcome.result.bind fun value => (next value).result := by
  have hstamp := h.timeless stamp firstStamp
  cases hresult : outcome.result with
  | error failure =>
    rw [← result, hresult] at hstamp
    simp only [Outcome.bind, hstamp]
    rfl
  | ok value =>
    rw [← result, hresult] at hstamp
    simp only [Outcome.bind, hstamp]
    exact hnext value (h.value value hresult) _ _

theorem Keeps.bind_result {outcome : Outcome α} {next : α → Outcome β} (h : outcome.Keeps P)
    (hnext : ∀ value, P value → (next value).Timeless) :
    (outcome.bind next).result = outcome.result.bind fun value => (next value).result :=
  h.bind_run hnext firstStamp

theorem Keeps.bind {outcome : Outcome α} {next : α → Outcome β} (h : outcome.Keeps P)
    (hnext : ∀ value, P value → (next value).Keeps Q) : (outcome.bind next).Keeps Q := by
  have htimeless (value : α) (hvalue : P value) := (hnext value hvalue).timeless
  refine ⟨fun stamp stamp' => ?_, fun value hvalue => ?_⟩
  · rw [h.bind_run htimeless, h.bind_run htimeless]
  · rw [h.bind_result htimeless] at hvalue
    cases hresult : outcome.result with
    | error failure => rw [hresult] at hvalue; cases hvalue
    | ok first =>
      rw [hresult] at hvalue
      exact (hnext first (h.value first hresult)).value value hvalue

theorem Keeps.cons {rest : Outcome (List α)}
    (h : rest.Keeps fun values => ∀ value ∈ values, P value) {value : α} (hvalue : P value) :
    (rest.bind fun values => ok (value :: values)).Keeps fun values => ∀ value ∈ values, P value :=
  h.bind fun _ hvalues => keeps_ok (List.forall_mem_cons.mpr ⟨hvalue, hvalues⟩)

theorem Keeps.cons_result {first : Outcome α} {rest : Outcome (List α)} (hfirst : first.Keeps P)
    (hrest : rest.Keeps fun values => ∀ value ∈ values, P value) :
    (first.bind fun value => rest.bind fun values => ok (value :: values)).result =
      first.result.bind fun value => rest.result.bind fun values => .ok (value :: values) := by
  rw [hfirst.bind_result fun _ hvalue => (hrest.cons hvalue).timeless]
  congr 1
  funext value
  exact hrest.bind_result fun values _ => (silent_ok (value :: values)).timeless

/-- The first operation is cut off or has the result of the second, and both keep to the
property. -/
structure Approaches (P : α → Prop) (outcome other : Outcome α) : Prop where
  keeps : outcome.Keeps P
  keeps_other : other.Keeps P
  cutOff : CutOff outcome.result other.result

theorem Keeps.approaches {outcome : Outcome α} (h : outcome.Keeps P) :
    outcome.Approaches P outcome := ⟨h, h, .refl _⟩

theorem Approaches.bind {outcome other : Outcome α} {next next' : α → Outcome β}
    (h : outcome.Approaches P other)
    (hnext : ∀ value, P value → (next value).Approaches Q (next' value)) :
    (outcome.bind next).Approaches Q (other.bind next') where
  keeps := h.keeps.bind fun value hvalue => (hnext value hvalue).keeps
  keeps_other := h.keeps_other.bind fun value hvalue => (hnext value hvalue).keeps_other
  cutOff := by
    rw [h.keeps.bind_result fun value hvalue => (hnext value hvalue).keeps.timeless,
      h.keeps_other.bind_result fun value hvalue => (hnext value hvalue).keeps_other.timeless]
    exact h.cutOff.bind fun value hvalue =>
      (hnext value (h.keeps_other.value value hvalue)).cutOff

end Outcome

namespace Algebra

open Outcome

variable {algebra other : Algebra} {viaMembers : Bool} {env : Environment}

/-- On values with the property, calls of the first algebra are cut off or have the results that
they have in the other. -/
structure Approximates (P : Value → Prop) (algebra other : Algebra) : Prop where
  member : algebra.member = other.member
  call : ∀ name args, (∀ arg ∈ args, P arg) →
    (algebra.call name args).Approaches P (other.call name args)

variable {P : Value → Prop}

theorem Approximates.found (h : algebra.Approximates P other) (viaMembers : Bool)
    (head : String) :
    (algebra.found viaMembers head).Approaches (fun _ => True) (other.found viaMembers head) := by
  rw [Algebra.found, Algebra.found, h.member]
  have hsilent : (other.found viaMembers head).Silent := silent_found head
  exact Keeps.approaches ⟨hsilent.timeless, fun _ _ => trivial⟩

theorem keeps_variableValue (henv : ∀ name value, env name = some value → P value)
    (name : String) : (variableValue env name).Keeps P := by
  unfold variableValue
  cases hvalue : env name with
  | none => exact keeps_fail _
  | some value => exact keeps_ok (henv name value hvalue)

mutual

theorem Approximates.evaluateVia (h : algebra.Approximates P other)
    (henv : ∀ name value, env name = some value → P value) (term : Term) :
    (algebra.evaluateVia viaMembers env term).Approaches P
      (other.evaluateVia viaMembers env term) := by
  match term with
  | .var name =>
    rw [evaluateVia_var, evaluateVia_var]
    exact (keeps_variableValue henv name).approaches
  | .app head args =>
    rw [evaluateVia_app, evaluateVia_app]
    exact (h.found viaMembers head).bind fun _ _ =>
      (Approximates.evaluateAllVia h henv args).bind fun values hvalues =>
        h.call head values hvalues

theorem Approximates.evaluateAllVia (h : algebra.Approximates P other)
    (henv : ∀ name value, env name = some value → P value) (terms : List Term) :
    (algebra.evaluateAllVia viaMembers env terms).Approaches
      (fun values => ∀ value ∈ values, P value) (other.evaluateAllVia viaMembers env terms) := by
  match terms with
  | [] =>
    rw [evaluateAllVia_nil, evaluateAllVia_nil]
    exact (keeps_ok (by simp)).approaches
  | term :: rest =>
    rw [evaluateAllVia_cons, evaluateAllVia_cons]
    exact (Approximates.evaluateVia h henv term).bind fun value hvalue =>
      (Approximates.evaluateAllVia h henv rest).bind fun values hvalues =>
        (keeps_ok (List.forall_mem_cons.mpr ⟨hvalue, hvalues⟩)).approaches

end

theorem Approximates.evaluateVia_result (h : algebra.Approximates P other)
    (henv : ∀ name value, env name = some value → P value) {head : String}
    (hfound : algebra.found viaMembers head = .ok ()) (args : List Term) :
    (algebra.evaluateVia viaMembers env (.app head args)).result =
      (algebra.evaluateAllVia viaMembers env args).result.bind fun values =>
        (algebra.call head values).result := by
  rw [evaluateVia_app, hfound, ok_bind]
  exact (h.evaluateAllVia henv args).keeps.bind_result fun values hvalues =>
    (h.call head values hvalues).keeps.timeless

theorem Approximates.evaluateAllVia_result (h : algebra.Approximates P other)
    (henv : ∀ name value, env name = some value → P value) (term : Term) (rest : List Term) :
    (algebra.evaluateAllVia viaMembers env (term :: rest)).result =
      (algebra.evaluateVia viaMembers env term).result.bind fun value =>
        (algebra.evaluateAllVia viaMembers env rest).result.bind fun values =>
          .ok (value :: values) := by
  rw [evaluateAllVia_cons]
  exact (h.evaluateVia henv term).keeps.cons_result (h.evaluateAllVia henv rest).keeps

section Functors

variable {images : Images}

mutual

theorem Approximates.functor (h : algebra.Approximates P other)
    (himages : ∀ entry ∈ images, P entry.2) (value : Value) (hdata : value.AllData P) :
    (algebra.functor images .empty value).Approaches P
      (other.functor images .empty value) := by
  match value with
  | .expr head args typeArgs sort =>
    cases htabled : tabledImage? images (.expr head args typeArgs sort) with
    | some image =>
      obtain ⟨key, hmem, -⟩ := mem_of_tabledImage? htabled
      rw [functor_tabled htabled, functor_tabled htabled]
      exact (keeps_ok (himages _ hmem)).approaches
    | none =>
      rw [functor_untabled htabled, functor_untabled htabled]
      exact (Approximates.functorAll h himages args hdata.parts.1).bind fun values hvalues =>
        h.call _ values hvalues
  | .null | .bool _ | .int _ | .float _ | .text _ _ | .list _ | .tuple _ | .dict _ | .fin _ _ =>
    exact (keeps_fail _).approaches

theorem Approximates.functorAll (h : algebra.Approximates P other)
    (himages : ∀ entry ∈ images, P entry.2) (values : List Value)
    (hdata : ∀ value ∈ values, value.AllData P) :
    (algebra.functorAll images .empty values).Approaches (fun values => ∀ value ∈ values, P value)
      (other.functorAll images .empty values) := by
  match values with
  | [] => exact (keeps_ok (by simp)).approaches
  | value :: rest =>
    rw [List.forall_mem_cons] at hdata
    have hvalue : (algebra.mapped images value).Approaches P (other.mapped images value) := by
      rw [mapped, mapped]
      split
      · exact Approximates.functor h himages value hdata.1
      · rename_i hexpr
        exact (keeps_ok (hdata.1.of_datum (by simpa using hexpr))).approaches
    rw [functorAll_mapped, functorAll_mapped]
    exact hvalue.bind fun image himage =>
      (Approximates.functorAll h himages rest hdata.2).bind fun images himages =>
        (keeps_ok (List.forall_mem_cons.mpr ⟨himage, himages⟩)).approaches

end

variable (himages : ∀ entry ∈ images, P entry.2)

include himages

theorem Approximates.mapped (h : algebra.Approximates P other) {value : Value}
    (hdata : value.AllData P) :
    (algebra.mapped images value).Approaches P (other.mapped images value) := by
  rw [Algebra.mapped, Algebra.mapped]
  split
  · exact h.functor himages value hdata
  · rename_i hexpr
    exact (keeps_ok (hdata.of_datum (by simpa using hexpr))).approaches

theorem Approximates.functor_result (h : algebra.Approximates P other) {head sort : String}
    {args typeArgs : List Value} (hdata : ∀ arg ∈ args, arg.AllData P)
    (hopen : tabledImage? images (.expr head args typeArgs sort) = none) :
    (algebra.functor images .empty (.expr head args typeArgs sort)).result =
      (algebra.functorAll images .empty args).result.bind fun values =>
        (algebra.call (constructorName head sort) values).result := by
  rw [functor_untabled hopen]
  exact (h.functorAll himages args hdata).keeps.bind_result fun values hvalues =>
    (h.call _ values hvalues).keeps.timeless

theorem Approximates.functorAll_result (h : algebra.Approximates P other) {value : Value}
    {rest : List Value} (hdata : ∀ own ∈ value :: rest, own.AllData P) :
    (algebra.functorAll images .empty (value :: rest)).result =
      (algebra.mapped images value).result.bind fun image =>
        (algebra.functorAll images .empty rest).result.bind fun images =>
          .ok (image :: images) := by
  rw [List.forall_mem_cons] at hdata
  rw [functorAll_mapped]
  exact (h.mapped himages hdata.1).keeps.cons_result (h.functorAll himages rest hdata.2).keeps

end Functors

end Algebra
end TermAlgebra
