import TermAlgebra.Proofs.AlikeValues
import TermAlgebra.Value.Parts

/-!
Rebuilding a value of a plain calculus. Every expression in such a value, also in its type
arguments, was built by a constructor without a default implementation, from parts of the value
itself. Calling the constructor's name on the arguments of the expression picks the same overload
and computes the same type: the call returns the expression, and on alike arguments an alike one.
-/
namespace TermAlgebra

namespace Calculus

open Value

variable {calculus : Calculus}

/-- Every expression in the value is what a constructor builds from its arguments, where calls nest
to less than the bound. -/
inductive Genuine (calculus : Calculus) (bound : Nat) : Value → Prop
  | datum {value} (h : value.isExpr = false) : Genuine calculus bound value
  | expr {m constructor args typeArgs} (hm : m < bound)
      (hbuilds : calculus.Builds (calculus.algebra m) constructor args typeArgs)
      (hargs : ∀ arg ∈ args, Genuine calculus bound arg)
      (htypes : ∀ typeArg ∈ typeArgs, Genuine calculus bound typeArg) :
      Genuine calculus bound (.expr constructor.head args typeArgs constructor.sort)

theorem Genuine.typeArgs {bound : Nat} {value : Value} (h : calculus.Genuine bound value) :
    ∀ typeArg ∈ value.typeArgs, calculus.Genuine bound typeArg := by
  cases h with
  | datum h => simp [typeArgs_of_not_expr h]
  | expr _ _ _ htypes => exact htypes

theorem Plain.genuine_of_built (plain : calculus.Plain) {n : Nat} {value : Value}
    (h : (calculus.algebra n).Built value) : calculus.Genuine n value :=
  plain.invariant_built (fun _ h => .datum h) (fun _ hvalue => hvalue.typeArgs)
    (fun hm hbuilds hargs htypes => .expr hm hbuilds hargs htypes) h

theorem Plain.built_of_genuine (plain : calculus.Plain) {n : Nat} {value : Value}
    (h : calculus.Genuine n value) : (calculus.algebra n).Built value := by
  induction h with
  | datum h => exact .datum h
  | expr hm hbuilds _ _ hargs _ =>
    have hcall := plain.call_mono (Nat.succ_le_of_lt hm) (plain.call_of_yields (.build hbuilds))
    exact .call hargs hcall

/-- What builds an expression is a term constructor, whose name is no type's and heads the
expression, or the generator of a type constructor, which is the sort of the expression. -/
theorem Plain.builds_cases (plain : calculus.Plain) {algebra : Algebra}
    {constructor : Constructor} {args typeArgs : List Value}
    (h : calculus.Builds algebra constructor args typeArgs) :
    (constructor.head ≠ generatorHead ∧ constructor.name = constructor.head ∧
      calculus.theory.arity? constructor.name = none) ∨
    ∃ t ∈ calculus.theory.types, constructor = ⟨t.generator, .generator⟩ ∧
      constructor.head = generatorHead ∧ constructor.name = t.name ∧ constructor.sort = t.name ∧
      calculus.theory.arity? t.name = some t.arity ∧ args.length = t.arity + 1 := by
  have hconsistent := plain.accepted.consistent
  obtain ⟨hmem, haccepts⟩ := resolve_eq_ok h.resolve
  rcases mem_overloads.mp hmem with ⟨c, hc, -, rfl⟩ | ⟨t, ht, -, rfl⟩
  · refine Or.inl ⟨hconsistent.term_ne_generator c hc, rfl, ?_⟩
    change calculus.theory.arity? c.name = none
    rw [hconsistent.arity?_eq, Theory.type?_eq_none_iff.mpr (hconsistent.term_not_type c hc)]
    rfl
  · refine Or.inr ⟨t, ht, rfl, rfl, rfl, rfl, ?_, ?_⟩
    · rw [hconsistent.arity?_eq, hconsistent.type?_of_mem ht]
      rfl
    · exact ((Constructor.accepts_iff _ _).mp haccepts).1

/-- The name of a constructor, called on arguments alike to those of an expression that it built,
gives an expression alike to it. -/
theorem Plain.call_of_builds (plain : calculus.Plain) {m n : Nat} (hm : m < n)
    {constructor : Constructor} {args args' typeArgs : List Value}
    (h : calculus.Builds (calculus.algebra m) constructor args typeArgs)
    (hargs : List.Forall₂ Alike args args') :
    ∃ result, (calculus.algebra n).call constructor.name args' = .ok result ∧
      Alike (.expr constructor.head args typeArgs constructor.sort) result := by
  have hcall := plain.call_mono (Nat.succ_le_of_lt hm) (plain.call_of_yields (.build h))
  obtain ⟨result, hresult, halike⟩ := (plain.simulates_alike n).call hargs hcall
  exact ⟨result, hresult, halike⟩

end Calculus
end TermAlgebra
