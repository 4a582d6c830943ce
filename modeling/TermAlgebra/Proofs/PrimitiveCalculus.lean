import TermAlgebra.Proofs.RebuiltValues

/-!
Calculi of theories that define no constructor by default. A call there reads a type argument or
builds an expression from the arguments, with type arguments computed one level of nesting below;
the name that was called can be read off the expression again.
-/
namespace TermAlgebra.Calculus

open Value

/-- A plain calculus of a theory that defines no constructor by default. -/
structure Primitive (calculus : Calculus) : Prop extends calculus.Plain where
  definition? : ∀ c ∈ calculus.theory.terms, c.definition? = none

variable {calculus : Calculus}

theorem Primitive.definition?_eq_none (primitive : calculus.Primitive) {c : TermConstructor}
    (hc : c ∈ calculus.theory.interface) : c.definition? = none := by
  rcases List.mem_append.mp hc with hterm | hgenerator
  · exact primitive.definition? c hterm
  · obtain ⟨t, -, rfl⟩ := List.mem_map.mp hgenerator
    rfl

/-- A call that succeeds has read a type argument or built its result. -/
theorem Primitive.yields_cases (primitive : calculus.Primitive) {algebra : Algebra} {name : String}
    {args : List Value} {result : Value} (h : calculus.Yields algebra name args result) :
    (∃ value, args = [value] ∧ calculus.theory.isAccessor name = true ∧
      calculus.access name value = .ok result) ∨
    ∃ constructor typeArgs, constructor.name = name ∧
      calculus.Builds algebra constructor args typeArgs ∧
      result = .expr constructor.head args typeArgs constructor.sort := by
  cases h with
  | access haccessor hresult => exact Or.inl ⟨_, rfl, haccessor, hresult⟩
  | define _ hresolve hdefinition _ =>
    have hnone := primitive.definition?_eq_none (mem_constructors_of_resolve hresolve)
    cases hdefinition.symm.trans hnone
  | build h => exact Or.inr ⟨_, _, rfl, h, rfl⟩

theorem Primitive.builds_of_call (primitive : calculus.Primitive) {n : Nat} {name : String}
    {args : List Value} {result : Value} (haccessor : calculus.theory.isAccessor name = false)
    (h : (calculus.algebra n).call name args = .ok result) : ∃ m constructor typeArgs,
      m < n ∧ constructor.name = name ∧
        calculus.Builds (calculus.algebra m) constructor args typeArgs ∧
        result = .expr constructor.head args typeArgs constructor.sort := by
  cases n with
  | zero => exact absurd h invoke_zero_ne_ok
  | succ m =>
    rcases primitive.yields_cases (primitive.yields_of_invoke h) with
      ⟨value, -, hname, -⟩ | ⟨constructor, typeArgs, hname, hbuilds, hresult⟩
    · rw [haccessor] at hname
      cases hname
    · exact ⟨m, constructor, typeArgs, Nat.lt_succ_self m, hname, hbuilds, hresult⟩

/-- The name under which an expression is rebuilt is the one that built it. -/
theorem Plain.constructorName_of_builds (plain : calculus.Plain) {algebra : Algebra}
    {constructor : Constructor} {args typeArgs : List Value}
    (h : calculus.Builds algebra constructor args typeArgs) :
    constructorName constructor.head constructor.sort = constructor.name := by
  rcases plain.builds_cases h with ⟨hhead, hname, -⟩ | ⟨t, -, -, hhead, hname, hsort, -⟩
  · rw [constructorName, if_neg hhead, hname]
  · rw [constructorName, if_pos hhead, hname, hsort]

end TermAlgebra.Calculus
