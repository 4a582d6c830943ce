import TermAlgebra.Proofs.BuiltValues
import TermAlgebra.Proofs.EqualValues

/-!
Alike values: equal values whose expressions have the same sorts, at every node and in every type
argument. Equality alone does not look at sorts. A plain calculus cannot tell alike values apart, so
that calls on alike arguments give alike results.
-/
namespace TermAlgebra

namespace Value

inductive Alike : Value → Value → Prop
  | datum {a b} (ha : a.isExpr = false) (hb : b.isExpr = false) (h : Same a b) : Alike a b
  | expr {head args args' typeArgs typeArgs' sort} (hargs : List.Forall₂ Alike args args')
      (htypes : List.Forall₂ Alike typeArgs typeArgs') :
      Alike (.expr head args typeArgs sort) (.expr head args' typeArgs' sort)

mutual

theorem Alike.same {a b : Value} (h : Alike a b) : same a b = true := by
  match h with
  | .datum _ _ h => exact h
  | .expr hargs htypes =>
    rw [Value.same, Alike.sameAll hargs, Alike.sameAll htypes]
    simp

theorem Alike.sameAll {as bs : List Value} (h : List.Forall₂ Alike as bs) :
    sameAll as bs = true := by
  match h with
  | .nil => rfl
  | .cons hhead hrest =>
    rw [Value.sameAll, Alike.same hhead, Alike.sameAll hrest]
    rfl

end

theorem Alike.of_datum {value : Value} (h : value.isExpr = false) : Alike value value :=
  .datum h h (same_refl value)

mutual

theorem Alike.refl (value : Value) : Alike value value := by
  match value with
  | .expr head args typeArgs sort => exact .expr (Alike.reflAll args) (Alike.reflAll typeArgs)
  | .null | .bool _ | .int _ | .float _ | .text _ _ | .list _ | .tuple _ | .dict _ | .fin _ _ =>
    exact .of_datum rfl

theorem Alike.reflAll (values : List Value) : List.Forall₂ Alike values values := by
  match values with
  | [] => exact .nil
  | value :: rest => exact .cons (Alike.refl value) (Alike.reflAll rest)

end

mutual

theorem Alike.trans {a b c : Value} (hab : Alike a b) (hbc : Alike b c) : Alike a c := by
  match hab with
  | .datum ha hb h =>
    cases hbc with
    | datum _ hc h' => exact .datum ha hc (Same.trans h h')
    | expr => cases hb
  | .expr hargs htypes =>
    cases hbc with
    | datum hb => cases hb
    | expr hargs' htypes' =>
      exact .expr (Alike.transAll hargs hargs') (Alike.transAll htypes htypes')

theorem Alike.transAll {as bs cs : List Value} (hab : List.Forall₂ Alike as bs)
    (hbc : List.Forall₂ Alike bs cs) : List.Forall₂ Alike as cs := by
  match hab with
  | .nil =>
    cases hbc
    exact .nil
  | .cons hhead hrest =>
    cases hbc with
    | cons hhead' hrest' =>
      exact .cons (Alike.trans hhead hhead') (Alike.transAll hrest hrest')

end

/-- A text is alike to the symbolic name of the same characters. -/
theorem Alike.text (characters : String) (symbolic symbolic' : Bool) :
    Alike (.text characters symbolic) (.text characters symbolic') :=
  .datum rfl rfl (by simp [Same, Value.same])

/-- Alike expressions are equal as values. -/
theorem Alike.equal {a b : Value} (h : Alike a b) (hexpr : a.isExpr = true) :
    equal a b = true := by
  cases h with
  | datum ha => rw [ha] at hexpr; cases hexpr
  | expr hargs htypes => simp [Value.equal, isUndefined, Alike.same (.expr hargs htypes)]

theorem hasSort_of_not_expr {value : Value} (h : value.isExpr = false) (sort : String) :
    value.hasSort sort = false := by
  cases value <;> simp_all [isExpr, hasSort]

theorem typeArgs_of_not_expr {value : Value} (h : value.isExpr = false) :
    value.typeArgs = [] := by
  cases value <;> simp_all [isExpr, typeArgs]

theorem respectful_alike : Respectful Alike where
  hasSort := by
    intro a b h sort
    cases h with
    | datum ha hb => rw [hasSort_of_not_expr ha, hasSort_of_not_expr hb]
    | expr => rfl
  typeArgs := by
    intro a b h
    cases h with
    | datum ha hb =>
      rw [typeArgs_of_not_expr ha, typeArgs_of_not_expr hb]
      exact .nil
    | expr _ htypes => exact htypes

end Value

/-- Calls on alike arguments give alike results. -/
theorem Calculus.Plain.simulates_alike {calculus : Calculus} (plain : calculus.Plain) (n : Nat) :
    Algebra.Simulates Value.Alike (calculus.algebra n) (calculus.algebra n) :=
  plain.simulates Value.respectful_alike n 0
    (fun _ _ hargs htypes => .expr hargs htypes) n (Nat.le_refl n)

end TermAlgebra
