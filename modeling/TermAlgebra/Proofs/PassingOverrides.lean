import Mathlib
import TermAlgebra.Algebra.Override
import TermAlgebra.Proofs.StandardExpressions

/-!
Overrides that hand a call on. Such an override answers a call by building the expression of the
name it stands for, as a constructor without a default implementation does by itself. On the way the
overload is looked up a second time, and the types and domains of other constructors call the
override again. The second look finds what the first one found, and the calls on the way nest one
level less deep; so the two calculi are the same algebra within every bound on nesting, by induction
on the bound.
-/
namespace TermAlgebra

namespace Override

/-- Hands on every call of the names. -/
def passing (names : List String) : Table Override :=
  .ofList (names.map fun name => (name, rebuild name))

theorem get?_passing (names : List String) (name : String) :
    (passing names).get? name = if name ∈ names then some (rebuild name) else none := by
  rw [passing, Table.get?_ofList]
  exact lastEntry_map rebuild names name

theorem mem_keys_passing {names : List String} {name : String} :
    name ∈ (passing names).keys ↔ name ∈ names := by
  rw [Table.mem_keys_iff, get?_passing]
  by_cases hname : name ∈ names
  · simp [hname]
  · simp [hname]

end Override

namespace Calculus

variable {passing plain : Calculus}

/-- A calculus that differs from another one in overrides that hand their calls on: each stands for
a name that has no override there and no default implementation. -/
structure HandsOn (passing plain : Calculus) : Prop where
  name : passing.name = plain.name
  theory : passing.theory = plain.theory
  overrides : ∀ name, passing.overrides.get? name = plain.overrides.get? name ∨
    passing.overrides.get? name = some (.rebuild name) ∧ plain.overrides.get? name = none ∧
      ∀ constructor ∈ plain.overloads name, constructor.declaration.definition? = none

namespace HandsOn

variable (h : passing.HandsOn plain) {self : Algebra}

include h

theorem overloads (name : String) : passing.overloads name = plain.overloads name := by
  rw [Calculus.overloads, Calculus.overloads, h.theory]

theorem resolve (name : String) (args : List Value) :
    passing.resolve name args = plain.resolve name args := by
  simp only [Calculus.resolve, noMethod, h.name, h.overloads]

theorem member : passing.member = plain.member := by
  funext name
  rw [Calculus.member, Calculus.member, h.name, h.theory, h.overloads]

theorem callAccessor (name : String) (args : List Value) (strict? : Option Bool) :
    passing.callAccessor name args strict? = plain.callAccessor name args strict? := by
  simp only [Calculus.callAccessor, access, noMethod, h.name, h.theory]

theorem build (constructor : Constructor) (args : List Value) (strict : Bool) :
    passing.build self constructor args strict = plain.build self constructor args strict := by
  simp only [Calculus.build, noMethod, h.name, h.theory]

theorem workshop : passing.workshop self = plain.workshop self := by
  simp only [Calculus.workshop, Workshop.mk.injEq, true_and]
  funext name args strict
  simp only [buildNamed, h.resolve, h.build]

/-- The overload that a call finds acts in the same way, since the override finds it again. -/
theorem apply {name : String} {constructor : Constructor} {args : List Value}
    (hresolve : plain.resolve name args = .ok constructor) (strict : Bool) :
    passing.apply self constructor args strict = plain.apply self constructor args strict := by
  have hname : constructor.name = name := resolve_name hresolve
  rcases h.overrides name with hsame | ⟨hoverride, hnone, hbare⟩
  · simp only [Calculus.apply, hname, hsame, h.workshop, h.theory, h.build]
  · have hdefinition : constructor.declaration.definition? = none :=
      hbare constructor (resolve_eq_ok hresolve).1
    calc passing.apply self constructor args strict
        = plain.buildNamed self name args strict := by
          simp only [Calculus.apply, hname, hoverride, Override.rebuild, h.workshop]
          rfl
      _ = plain.build self constructor args strict := by
          rw [buildNamed, hresolve]
          rfl
      _ = plain.apply self constructor args strict := by
          simp only [Calculus.apply, hname, hnone, hdefinition]

theorem constructWith (name : String) (args : List Value) (strict : Bool) :
    passing.constructWith self name args strict = plain.constructWith self name args strict := by
  rw [Calculus.constructWith, Calculus.constructWith, h.resolve]
  cases hresolve : plain.resolve name args with
  | error failure => rfl
  | ok constructor => exact h.apply hresolve strict

theorem invokeWith (name : String) (args : List Value) (strict? : Option Bool) :
    passing.invokeWith self name args strict? = plain.invokeWith self name args strict? := by
  simp only [Calculus.invokeWith, h.theory, h.callAccessor, h.constructWith]

/-- The calculi are the same algebra, however deep calls may nest. -/
theorem algebra (n : Nat) : passing.algebra n = plain.algebra n := by
  induction n with
  | zero => simp only [Calculus.algebra, h.name, h.theory, h.member]
  | succ n ih => simp only [Calculus.algebra, h.name, h.theory, h.member, ih, h.invokeWith]

end HandsOn

/-- An override that hands its calls on cannot be noticed. Over an accepted theory let any names of
constructors without default implementations have such overrides. Then every call, strict or not, of
every name and within every bound on nesting, has the same outcome as in the calculus without
overrides: the same result and the same events, or the same failure. -/
theorem passing_unnoticed {theory : Theory} (haccepted : theory.Accepted) {names : List String}
    (hnames : ∀ name ∈ names, ∃ constructor ∈ theory.constructors, constructor.name = name)
    (hbare : ∀ constructor ∈ theory.constructors, constructor.name ∈ names →
      constructor.declaration.definition? = none) (name? : Option String) :
    ∃ plain passing, create theory name? .empty = .ok plain ∧
      create theory name? (Override.passing names) = .ok passing ∧
      ∀ (n : Nat) (name : String) (args : List Value),
        (∀ strict?, (passing.algebra n).invoke name args strict? =
          (plain.algebra n).invoke name args strict?) ∧
        ∀ strict, passing.constructWith (passing.algebra n) name args strict =
          plain.constructWith (plain.algebra n) name args strict := by
  have hkeys : ∀ key ∈ (Override.passing names).keys,
      ∃ constructor ∈ theory.constructors, constructor.name = key :=
    fun key hkey => hnames key (Override.mem_keys_passing.mp hkey)
  refine ⟨_, _, create_of_accepted haccepted name? nofun,
    create_of_accepted haccepted name? hkeys, fun n name args => ?_⟩
  generalize (name?.filter (· ≠ "")).getD ("Syntax(" ++ theory.name ++ ")") = made
  have h : HandsOn ⟨made, theory, Override.passing names⟩ ⟨made, theory, .empty⟩ := by
    refine ⟨rfl, rfl, fun name => ?_⟩
    rw [Override.get?_passing]
    by_cases hmem : name ∈ names
    · refine Or.inr ⟨if_pos hmem, rfl, fun constructor hconstructor => ?_⟩
      rw [overloads_eq_filter, List.mem_filter, decide_eq_true_eq] at hconstructor
      obtain ⟨hconstructor, rfl⟩ := hconstructor
      exact hbare constructor hconstructor hmem
    · exact Or.inl (if_neg hmem)
  refine ⟨fun strict? => ?_, fun strict => ?_⟩
  · rw [h.algebra]
  · rw [h.algebra, h.constructWith]

section Example

open Standard

/-- A strict call of the pairing, whose default implementation calls overridden constructors. -/
theorem passing_unnoticed_pair :
    let names := ["Ob", "Hom", "mcopy", "compose", "otimes", "munit"]
    let object (text : String) : Value := objectOf (.str text)
    let f := morphismOf (.str "f") (object "A") (object "B")
    let g := morphismOf (.str "g") (object "A") (object "C")
    let products := tensorOfMorphisms f g (tensorOfObjects (object "A") (object "A"))
      (tensorOfObjects (object "B") (object "C"))
    cartesian.Accepted ∧
      (∀ name ∈ names, ∃ constructor ∈ cartesian.constructors, constructor.name = name) ∧
      (∀ constructor ∈ cartesian.constructors, constructor.name ∈ names →
        constructor.declaration.definition? = none) ∧
      ∃ passing, create cartesian none (Override.passing names) = .ok passing ∧
        (passing.constructWith (passing.algebra 4) "pair" [f, g] true).result =
          .ok (compositeOf (copyOf (object "A")) products (object "A")
            (tensorOfObjects (object "B") (object "C"))) := by
  intro names object f g products
  have haccepted : cartesian.Accepted := plain_cartesian.accepted
  have hnames : ∀ name ∈ names, ∃ constructor ∈ cartesian.constructors,
      constructor.name = name := by decide
  have hbare : ∀ constructor ∈ cartesian.constructors, constructor.name ∈ names →
      constructor.declaration.definition? = none := by decide
  have hcreate : create cartesian none .empty = .ok (calculusOf cartesian) := by cbv
  refine ⟨haccepted, hnames, hbare, ?_⟩
  obtain ⟨plain, passing, hplain, hpassing, hsame⟩ :=
    passing_unnoticed haccepted hnames hbare none
  cases hplain.symm.trans hcreate
  refine ⟨passing, hpassing, ?_⟩
  rw [(hsame 4 "pair" [f, g]).2]
  cbv

end Example

end Calculus
end TermAlgebra
