import TermAlgebra.Proofs.PlainCalculus

/-!
The values that can be built by calls of an algebra, and what all of them have in common. A plain
calculus tells values apart by their sorts and reads their type arguments, nothing else: calls on
arguments that agree so far succeed alike. Along any relation that keeps sorts and type arguments,
and that expressions built from related parts bear to each other, the calculus simulates itself; so
a property that built expressions have whenever their parts do holds of all values, and a call that
succeeds within some bound on nesting has the same result within every larger one.
-/
namespace TermAlgebra

namespace Algebra

/-- The values made from data by calls of the algebra that keep to a discipline. -/
inductive BuiltBy (algebra : Algebra)
    (permits : (name : String) → (args : List Value) → (strict? : Option Bool) → Prop) :
    Value → Prop
  | datum {value} (h : value.isExpr = false) : BuiltBy algebra permits value
  | call {name args strict? result} (hargs : ∀ arg ∈ args, BuiltBy algebra permits arg)
      (hpermits : permits name args strict?)
      (h : (algebra.invoke name args strict?).result = .ok result) :
      BuiltBy algebra permits result

/-- The values made from data by any calls of the algebra. -/
def Built (algebra : Algebra) (value : Value) : Prop :=
  algebra.BuiltBy (fun _ _ _ => True) value

theorem BuiltBy.built {algebra : Algebra}
    {permits : (name : String) → (args : List Value) → (strict? : Option Bool) → Prop}
    {value : Value} (h : algebra.BuiltBy permits value) : algebra.Built value := by
  induction h with
  | datum h => exact .datum h
  | call _ _ h ih => exact .call ih trivial h

theorem Built.call {algebra : Algebra} {name : String} {args : List Value} {result : Value}
    (hargs : ∀ arg ∈ args, algebra.Built arg) (h : algebra.call name args = .ok result) :
    algebra.Built result :=
  BuiltBy.call hargs trivial (congrArg Outcome.result h)

end Algebra

/-- Related values have the same sort and related type arguments. -/
structure Respectful (R : Value → Value → Prop) : Prop where
  hasSort : ∀ {a b}, R a b → ∀ sort, a.hasSort sort = b.hasSort sort
  typeArgs : ∀ {a b}, R a b → List.Forall₂ R a.typeArgs b.typeArgs

theorem respectful_eq : Respectful Eq where
  hasSort h _ := by rw [h]
  typeArgs h := by
    rw [h]
    exact List.forall₂_refl _

theorem forall₂_getElem? {α β : Type} {R : α → β → Prop} {as : List α} {bs : List β}
    (h : List.Forall₂ R as bs) {i : Nat} {a : α} (hget : as[i]? = some a) :
    ∃ b, bs[i]? = some b ∧ R a b := by
  induction h generalizing i with
  | nil => simp at hget
  | cons hhead _ ih =>
    cases i with
    | zero =>
      cases hget
      exact ⟨_, rfl, hhead⟩
    | succ i => exact ih hget

theorem forall₂_eq_and_iff {P : Value → Prop} {as bs : List Value} :
    List.Forall₂ (fun a b => a = b ∧ P a) as bs ↔ as = bs ∧ ∀ a ∈ as, P a := by
  constructor
  · intro h
    induction h with
    | nil => simp
    | cons hhead _ ih =>
      obtain ⟨rfl, hP⟩ := hhead
      obtain ⟨rfl, hrest⟩ := ih
      exact ⟨rfl, List.forall_mem_cons.mpr ⟨hP, hrest⟩⟩
  · rintro ⟨rfl, h⟩
    exact List.forall₂_same.mpr fun a ha => ⟨rfl, h a ha⟩

theorem respectful_eq_and {P : Value → Prop}
    (h : ∀ value, P value → ∀ typeArg ∈ value.typeArgs, P typeArg) :
    Respectful fun a b => a = b ∧ P a where
  hasSort hab _ := by rw [hab.1]
  typeArgs hab := forall₂_eq_and_iff.mpr ⟨by rw [hab.1], h _ hab.2⟩

namespace Value

variable {P : Value → Prop}

/-- All data in the value, also in its type arguments, have the property. -/
inductive AllData (P : Value → Prop) : Value → Prop
  | datum {value} (hdatum : value.isExpr = false) (h : P value) : AllData P value
  | expr {head args typeArgs sort} (hargs : ∀ arg ∈ args, AllData P arg)
      (htypes : ∀ typeArg ∈ typeArgs, AllData P typeArg) :
      AllData P (.expr head args typeArgs sort)

theorem AllData.parts {head sort : String} {args typeArgs : List Value}
    (h : AllData P (.expr head args typeArgs sort)) :
    (∀ arg ∈ args, AllData P arg) ∧ ∀ typeArg ∈ typeArgs, AllData P typeArg := by
  cases h with
  | datum hdatum => cases hdatum
  | expr hargs htypes => exact ⟨hargs, htypes⟩

theorem AllData.of_datum {value : Value} (h : AllData P value) (hdatum : value.isExpr = false) :
    P value := by
  cases h with
  | datum _ h => exact h
  | expr => cases hdatum

theorem AllData.typeArgs {value : Value} (h : AllData P value) :
    ∀ typeArg ∈ value.typeArgs, AllData P typeArg := by
  cases h with
  | datum hdatum =>
    cases value with
    | expr => cases hdatum
    | _ => intro typeArg hmem; cases hmem
  | expr _ htypes => exact htypes

end Value

namespace Constructor

variable {R : Value → Value → Prop}

theorem fits_related (hR : Respectful R) {a b : Value} (h : R a b) (sort : String) :
    fits sort a = fits sort b := by
  rw [fits, fits, hR.hasSort h]

theorem accepts_related (hR : Respectful R) {args args' : List Value}
    (h : List.Forall₂ R args args') (constructor : Constructor) :
    constructor.accepts args = constructor.accepts args' := by
  have hall : ∀ sorts : List String,
      (∀ entry ∈ sorts.zip args, fits entry.1 entry.2 = true) ↔
        ∀ entry ∈ sorts.zip args', fits entry.1 entry.2 = true := by
    induction h with
    | nil => exact fun _ => Iff.rfl
    | cons hhead _ ih =>
      intro sorts
      cases sorts with
      | nil => simp
      | cons sort sorts =>
        simp only [List.zip_cons_cons, List.forall_mem_cons, ih, fits_related hR hhead]
  rw [Bool.eq_iff_iff, accepts_iff, accepts_iff, h.length_eq, hall]

end Constructor

namespace Calculus

open TermAlgebra.Algebra

variable {calculus : Calculus} {R : Value → Value → Prop}

theorem resolve_related (hR : Respectful R) {args args' : List Value}
    (h : List.Forall₂ R args args') {name : String} {constructor : Constructor}
    (hresolve : calculus.resolve name args = .ok constructor) :
    calculus.resolve name args' = .ok constructor := by
  have hsame : (fun c : Constructor => c.accepts args) = fun c => c.accepts args' :=
    funext fun c => Constructor.accepts_related hR h c
  unfold resolve at hresolve ⊢
  split at hresolve
  · cases hresolve
  · split at hresolve
    · rename_i overloads _ found hfind
      cases hresolve
      rw [hsame] at hfind
      simp only [hfind]
    · cases hresolve

/-- An accessor reads the type argument at its place in the sort of the value. -/
theorem access_eq_ok_iff {name : String} {value result : Value} :
    calculus.access name value = .ok result ↔ ∃ owner, value.hasSort owner.1 = true ∧
      (calculus.theory.accessorOwners name).find? (fun o => value.hasSort o.1) = some owner ∧
      value.typeArgs[owner.2]? = some result := by
  unfold access
  split
  · rename_i hnil
    simp [hnil]
  · split
    · rename_i head args typeArgs sort
      have hsame : (fun o : String × Nat => (Value.expr head args typeArgs sort).hasSort o.1) =
          fun o => decide (o.1 = sort) := by
        funext o
        simp [Value.hasSort, eq_comm]
      rw [hsame]
      split
      · rename_i owner index hfind
        have howner := List.find?_some hfind
        simp only [decide_eq_true_eq] at howner
        subst howner
        simp only [hfind, Option.some.injEq, Value.typeArgs]
        split
        · rename_i hget
          simp [Value.hasSort, hget]
        · rename_i hget
          simp [hget]
      · rename_i hfind
        simp [hfind]
    · rename_i hexpr
      cases value with
      | expr head args typeArgs sort => exact absurd rfl (hexpr head args typeArgs sort)
      | _ => simp [Value.hasSort]

theorem access_related (hR : Respectful R) {name : String} {a b result : Value} (h : R a b)
    (haccess : calculus.access name a = .ok result) :
    ∃ result', calculus.access name b = .ok result' ∧ R result result' := by
  obtain ⟨owner, hsort, hfind, hget⟩ := access_eq_ok_iff.mp haccess
  have hsame : (fun o : String × Nat => a.hasSort o.1) = fun o => b.hasSort o.1 :=
    funext fun o => hR.hasSort h o.1
  have htypes := hR.typeArgs h
  obtain ⟨result', hget', hresult⟩ := forall₂_getElem? htypes hget
  refine ⟨result', access_eq_ok_iff.mpr ⟨owner, ?_, ?_, hget'⟩, hresult⟩
  · rw [← hR.hasSort h]
    exact hsort
  · rw [← hsame]
    exact hfind

/-- One level of nesting: if the inner calls of two bounds keep the relation, and built
expressions bear it whenever their parts do, then the calls themselves keep it. -/
theorem Plain.simulates_succ (plain : calculus.Plain) (hR : Respectful R) {m n : Nat}
    (hnode : ∀ {constructor args args' typeArgs typeArgs'},
      calculus.Builds (calculus.algebra m) constructor args typeArgs →
      List.Forall₂ R args args' → List.Forall₂ R typeArgs typeArgs' →
      R (.expr constructor.head args typeArgs constructor.sort)
        (.expr constructor.head args' typeArgs' constructor.sort))
    (sim : Simulates R (calculus.algebra m) (calculus.algebra n)) :
    Simulates R (calculus.algebra (m + 1)) (calculus.algebra (n + 1)) where
  silent := plain.silent (m + 1)
  member h := h
  call := by
    intro name args args' result hargs hcall
    cases plain.yields_of_invoke hcall with
    | access haccessor hresult =>
      cases hargs with
      | cons hvalue hnil =>
        cases hnil
        obtain ⟨result', hresult', hR'⟩ := access_related hR hvalue hresult
        exact ⟨result', plain.call_of_yields (.access haccessor hresult'), hR'⟩
    | define haccessor hresolve hdefinition hresult =>
      obtain ⟨result', hresult', hR'⟩ := sim.applyDefinition _ _ hargs hresult
      exact ⟨result', plain.call_of_yields
        (.define haccessor (resolve_related hR hargs hresolve) hdefinition hresult'), hR'⟩
    | build h =>
      obtain ⟨head, types, hexpanded, htypes⟩ := h.typeArgs
      obtain ⟨typeArgs', htypes', hR'⟩ :=
        sim.evaluateAll (Environment.related_ofArgs hargs _) types htypes
      exact ⟨_, plain.call_of_yields (.build ⟨h.not_accessor,
        resolve_related hR hargs h.resolve, h.definition?, head, types, hexpanded, htypes'⟩),
        hnode h hargs hR'⟩

/-- The relation is kept by all calls that nest up to the bound. -/
theorem Plain.simulates (plain : calculus.Plain) (hR : Respectful R) (bound k : Nat)
    (hnode : ∀ {m constructor args args' typeArgs typeArgs'}, m < bound →
      calculus.Builds (calculus.algebra m) constructor args typeArgs →
      List.Forall₂ R args args' → List.Forall₂ R typeArgs typeArgs' →
      R (.expr constructor.head args typeArgs constructor.sort)
        (.expr constructor.head args' typeArgs' constructor.sort)) :
    ∀ n ≤ bound, Simulates R (calculus.algebra n) (calculus.algebra (n + k)) := by
  intro n
  induction n with
  | zero =>
    intro _
    refine ⟨plain.silent 0, fun _ hcall => absurd hcall invoke_zero_ne_ok, ?_⟩
    intro name h
    cases k <;> exact h
  | succ n ih =>
    intro hn
    rw [Nat.succ_add]
    exact plain.simulates_succ hR (fun h hargs htypes => hnode hn h hargs htypes)
      (ih (Nat.le_of_succ_le hn))

/-- What a call gives within some bound on nesting it gives within every larger one. -/
theorem Plain.simulates_of_le (plain : calculus.Plain) {m n : Nat} (hle : m ≤ n) :
    Simulates Eq (calculus.algebra m) (calculus.algebra n) := by
  obtain ⟨k, rfl⟩ := Nat.exists_eq_add_of_le hle
  refine plain.simulates respectful_eq m k ?_ m (Nat.le_refl m)
  intro _ _ _ _ _ _ _ _ hargs htypes
  rw [List.forall₂_eq_eq_eq] at hargs htypes
  rw [hargs, htypes]

theorem Plain.call_mono (plain : calculus.Plain) {m n : Nat} (hle : m ≤ n) {name : String}
    {args : List Value} {result : Value} (h : (calculus.algebra m).call name args = .ok result) :
    (calculus.algebra n).call name args = .ok result := by
  obtain ⟨result', hresult', rfl⟩ :=
    (plain.simulates_of_le hle).call (List.forall₂_refl args) h
  exact hresult'

section Invariants

variable {P : Value → Prop} {bound : Nat}

/-- A property that passes to type arguments, and that a built expression has whenever its parts
have it, holds of the result of a call if it holds of the arguments. -/
theorem Plain.invariant_call (plain : calculus.Plain)
    (htypeArgs : ∀ value, P value → ∀ typeArg ∈ value.typeArgs, P typeArg)
    (hnode : ∀ {m constructor args typeArgs}, m < bound →
      calculus.Builds (calculus.algebra m) constructor args typeArgs →
      (∀ arg ∈ args, P arg) → (∀ typeArg ∈ typeArgs, P typeArg) →
      P (.expr constructor.head args typeArgs constructor.sort))
    {n : Nat} (hn : n ≤ bound) {name : String} {args : List Value} {strict? : Option Bool}
    {result : Value} (hargs : ∀ arg ∈ args, P arg)
    (h : (calculus.algebra n).invoke name args strict? = .ok result) : P result := by
  have hsim := plain.simulates (respectful_eq_and htypeArgs) bound 0
    (by
      intro m constructor args args' typeArgs typeArgs' hm hbuilds hargs htypes
      obtain ⟨rfl, hPargs⟩ := forall₂_eq_and_iff.mp hargs
      obtain ⟨rfl, hPtypes⟩ := forall₂_eq_and_iff.mp htypes
      exact ⟨rfl, hnode hm hbuilds hPargs hPtypes⟩) n hn
  cases n with
  | zero => exact absurd h invoke_zero_ne_ok
  | succ n =>
    have hcall := plain.call_of_yields (plain.yields_of_invoke h)
    obtain ⟨result', -, -, hP⟩ := hsim.call (forall₂_eq_and_iff.mpr ⟨rfl, hargs⟩) hcall
    exact hP

/-- The same of all values that can be built, if it holds of data. -/
theorem Plain.invariant_built (plain : calculus.Plain)
    (hdatum : ∀ value, value.isExpr = false → P value)
    (htypeArgs : ∀ value, P value → ∀ typeArg ∈ value.typeArgs, P typeArg)
    (hnode : ∀ {m constructor args typeArgs}, m < bound →
      calculus.Builds (calculus.algebra m) constructor args typeArgs →
      (∀ arg ∈ args, P arg) → (∀ typeArg ∈ typeArgs, P typeArg) →
      P (.expr constructor.head args typeArgs constructor.sort))
    {value : Value} (h : (calculus.algebra bound).Built value) : P value := by
  induction h with
  | datum h => exact hdatum _ h
  | call _ _ h ih =>
    exact plain.invariant_call htypeArgs hnode (Nat.le_refl bound) ih
      ((plain.silent bound _ _ _).eq_ok h)

/-- Calls bring in no data of their own. -/
theorem Plain.allData_call (plain : calculus.Plain) {n : Nat} {name : String} {args : List Value}
    {strict? : Option Bool} {result : Value} (hargs : ∀ arg ∈ args, arg.AllData P)
    (h : (calculus.algebra n).invoke name args strict? = .ok result) : result.AllData P :=
  plain.invariant_call (fun _ hvalue => hvalue.typeArgs)
    (fun _ _ hargs htypes => .expr hargs htypes) (Nat.le_refl n) hargs h

end Invariants

end Calculus
end TermAlgebra
