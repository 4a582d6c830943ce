import TermAlgebra.Proofs.RebuiltExpressions

/-!
The free calculi build only reduced expressions: nowhere inside, not in the type arguments either,
is an identity composed with a morphism or the unit multiplied with an object. The override looks
only at the two arguments of its own call. That this is enough follows from what rebuilding says of
every node: the node is what the name of its head gives for the node's own arguments. So it is the
answer of an override that returned neither argument, and such an answer has no unit among its
arguments.
-/
namespace TermAlgebra

open Outcome Calculus

/-- No composite inside the value has an identity as an argument, and no product of objects the
unit. -/
inductive Value.Reduced : Value → Prop
  | datum {value : Value} (h : value.isExpr = false) : Reduced value
  | expr {head sort : String} {args typeArgs : List Value}
      (hcomposite : head = "compose" → ∀ arg ∈ args, arg.hasHead "id" = false)
      (hproduct : head = "otimes" → sort = "Ob" → ∀ arg ∈ args, arg.hasHead "munit" = false)
      (hargs : ∀ arg ∈ args, Reduced arg) (htypes : ∀ typeArg ∈ typeArgs, Reduced typeArg) :
      Reduced (.expr head args typeArgs sort)

theorem Value.arg_ne_expr {arg : Value} {args : List Value} (h : arg ∈ args)
    (head sort : String) (typeArgs : List Value) : arg ≠ .expr head args typeArgs sort := by
  rintro rfl
  have hsize := List.sizeOf_lt_of_mem h
  simp only [Value.expr.sizeOf_spec] at hsize
  omega

theorem Value.hasHead_of_form {value : Value} {head sort : String}
    (h : value.form = .ok (head, sort)) (name : String) :
    value.hasHead name = decide (head = name) := by
  cases value with
  | expr own args typeArgs ownSort =>
    cases h
    rfl
  | _ => cases h

namespace Free

open Standard

section Choices

variable {f g built result : Value}

/-- A composite that is neither of its parts has no identity among them. -/
theorem noIdentity_of_chooseComposite (h : chooseComposite [f, g] built = .ok result)
    (hf : f ≠ result) (hg : g ≠ result) : ∀ arg ∈ [f, g], arg.hasHead "id" = false := by
  unfold chooseComposite at h
  dsimp only at h
  split at h
  · cases h
  · rename_i first sort hfirst
    split at h
    · exact absurd (Except.ok.inj h) hg
    · rename_i hidentity
      split at h
      · cases h
      · rename_i second sort' hsecond
        split at h
        · exact absurd (Except.ok.inj h) hf
        · rename_i hidentity'
          refine List.forall_mem_cons.mpr ⟨?_, List.forall_mem_singleton.mpr ?_⟩
          · rw [Value.hasHead_of_form hfirst, decide_eq_false hidentity]
          · rw [Value.hasHead_of_form hsecond, decide_eq_false hidentity']

/-- A product of an object that is neither of its factors has no unit among them. -/
theorem noUnit_of_chooseProduct (h : chooseProduct [f, g] built = .ok result)
    (hf : f ≠ result) (hg : g ≠ result) (hobject : f.hasSort "Ob" = true) :
    ∀ arg ∈ [f, g], arg.hasHead "munit" = false := by
  obtain ⟨left, hleft, hheadLeft⟩ := form_of_hasSort hobject
  unfold chooseProduct at h
  simp only [hleft, if_true] at h
  split at h
  · exact absurd (Except.ok.inj h) hg
  · rename_i hunit
    split at h
    · cases h
    · rename_i right sort hright
      split at h
      · exact absurd (Except.ok.inj h) hf
      · rename_i hunit'
        refine List.forall_mem_cons.mpr ⟨?_, List.forall_mem_singleton.mpr ?_⟩
        · rw [hheadLeft, decide_eq_false hunit]
        · rw [Value.hasHead_of_form hright, decide_eq_false hunit']

end Choices

section Overrides

variable {workshop : Workshop} {args typeArgs : List Value} {strict : Bool} {sort : String}

theorem noIdentity_of_composeUnits
    (hsilent : (workshop.build "compose" args strict).Silent)
    (h : composeUnits workshop args strict = .ok (.expr "compose" args typeArgs sort)) :
    ∀ arg ∈ args, arg.hasHead "id" = false := by
  match args with
  | [f, g] =>
    rw [composeUnits_pair, hsilent.bind_eq_ok_iff] at h
    obtain ⟨built, -, hchoice⟩ := h
    rw [ofExcept_eq_ok_iff] at hchoice
    exact noIdentity_of_chooseComposite hchoice (Value.arg_ne_expr (by simp) _ _ _)
      (Value.arg_ne_expr (by simp) _ _ _)
  | [] | [_] | _ :: _ :: _ :: _ => cases fail_ne_ok _ _ h

/-- The product is one of objects, for it has been built as such. -/
theorem noUnit_of_tensorUnits (hsilent : (workshop.build "otimes" args strict).Silent)
    (hobjects : ∀ built, workshop.build "otimes" args strict = .ok built →
      built.hasSort "Ob" = true → ∀ arg ∈ args, arg.hasSort "Ob" = true)
    (h : tensorUnits workshop args strict = .ok (.expr "otimes" args typeArgs "Ob")) :
    ∀ arg ∈ args, arg.hasHead "munit" = false := by
  match args with
  | [a, b] =>
    rw [tensorUnits_pair, hsilent.bind_eq_ok_iff] at h
    obtain ⟨built, hbuilt, hchoice⟩ := h
    rw [ofExcept_eq_ok_iff] at hchoice
    have hargs : ∀ arg ∈ [a, b], arg ≠ .expr "otimes" [a, b] typeArgs "Ob" :=
      fun arg harg => Value.arg_ne_expr harg _ _ _
    have hresult : built = .expr "otimes" [a, b] typeArgs "Ob" := by
      rcases chooseProduct_cases hchoice with heq | hmem
      · exact heq.symm
      · exact absurd rfl (hargs _ hmem)
    exact noUnit_of_chooseProduct hchoice (hargs a (by simp)) (hargs b (by simp))
      (hobjects built hbuilt (hresult ▸ rfl) a (by simp))
  | [] | [_] | _ :: _ :: _ :: _ => cases fail_ne_ok _ _ h

end Overrides

section Nodes

variable {free : Calculus} {n : Nat} {args typeArgs : List Value} {sort : String}

/-- A call of an overridden name is answered by the override. -/
theorem override_of_call {name : String} {override : Override} {result : Value}
    (haccessor : free.theory.isAccessor name = false)
    (hoverride : free.overrides.get? name = some override)
    (h : (free.algebra (n + 1)).call name args = .ok result) :
    override (free.workshop (free.algebra n)) args false = .ok result := by
  change free.invokeWith (free.algebra n) name args none = .ok result at h
  rw [invokeWith, haccessor, if_neg Bool.false_ne_true, constructWith_eq_ok_iff] at h
  obtain ⟨constructor, hresolve, happly⟩ := h
  rw [Calculus.apply, resolve_name hresolve, hoverride] at happly
  exact happly

/-- What is built as a product is one of objects only if its factors are objects. -/
theorem objects_of_buildNamed {self : Algebra} (hself : self.Silent)
    (hmonoidal : Monoidal free.theory) {built : Value}
    (h : free.buildNamed self "otimes" args false = .ok built)
    (hsort : built.hasSort "Ob" = true) : ∀ arg ∈ args, arg.hasSort "Ob" = true := by
  obtain ⟨constructor, hresolve, hbuild⟩ := buildNamed_eq_ok_iff.mp h
  obtain ⟨haccepts, _, _, _, -, -, rfl⟩ := (build_eq_ok_iff hself).mp hbuild
  have hmem := (resolve_eq_ok hresolve).1
  rw [overloads_tensor hmonoidal] at hmem
  simp only [List.mem_cons, List.not_mem_nil, or_false] at hmem
  rcases hmem with rfl | rfl
  · obtain ⟨left, right, rfl⟩ :=
      List.length_eq_two.mp ((Constructor.accepts_iff _ _).mp haccepts).1
    rw [accepts_objectTensor, Bool.and_eq_true] at haccepts
    exact List.forall_mem_cons.mpr ⟨haccepts.1, List.forall_mem_singleton.mpr haccepts.2⟩
  · cases hsort

variable (hfree : Systematic free)

include hfree

theorem Systematic.exists_overload_of_call {name : String} {result : Value} (hdom : name ≠ "dom")
    (hcodom : name ≠ "codom") (h : (free.algebra n).call name args = .ok result) :
    ∃ constructor, constructor ∈ free.overloads name := by
  cases n with
  | zero => exact absurd h invoke_zero_ne_ok
  | succ n =>
    change free.invokeWith (free.algebra n) name args none = .ok result at h
    rw [invokeWith, hfree.categorical.not_accessor hdom hcodom, if_neg Bool.false_ne_true,
      constructWith_eq_ok_iff] at h
    obtain ⟨constructor, hresolve, -⟩ := h
    exact ⟨constructor, (resolve_eq_ok hresolve).1⟩

theorem Systematic.noIdentity_of_call
    (h : (free.algebra n).call "compose" args = .ok (.expr "compose" args typeArgs sort)) :
    ∀ arg ∈ args, arg.hasHead "id" = false := by
  cases n with
  | zero => exact absurd h invoke_zero_ne_ok
  | succ n =>
    have haccessor : free.theory.isAccessor "compose" = false :=
      hfree.categorical.not_accessor (by decide) (by decide)
    exact noIdentity_of_composeUnits
      (silent_buildNamed (hfree.simplifying.silent n) "compose" args false)
      (override_of_call haccessor hfree.compose h)

theorem Systematic.noUnit_of_call (hmonoidal : Monoidal free.theory)
    (h : (free.algebra n).call "otimes" args = .ok (.expr "otimes" args typeArgs "Ob")) :
    ∀ arg ∈ args, arg.hasHead "munit" = false := by
  cases n with
  | zero => exact absurd h invoke_zero_ne_ok
  | succ n =>
    have hsilent := hfree.simplifying.silent n
    have haccessor : free.theory.isAccessor "otimes" = false :=
      hfree.categorical.not_accessor (by decide) (by decide)
    exact noUnit_of_tensorUnits (silent_buildNamed hsilent "otimes" args false)
      (fun built hbuilt hsort => objects_of_buildNamed hsilent hmonoidal hbuilt hsort)
      (override_of_call haccessor (hfree.tensor hmonoidal) h)

end Nodes

section Results

variable {free : Calculus} {n : Nat} {value : Value}

theorem Systematic.reduced_of_fixed (hfree : Systematic free)
    (hproducts : Monoidal free.theory ∨ free.overloads "otimes" = [])
    (h : (free.algebra n).Fixed value) : value.Reduced := by
  induction h with
  | datum h => exact .datum h
  | @expr head args typeArgs sort hcall _ _ ihargs ihtypes =>
    refine .expr ?_ ?_ ihargs ihtypes
    · rintro rfl
      exact hfree.noIdentity_of_call hcall
    · rintro rfl rfl
      rcases hproducts with hmonoidal | hnone
      · exact hfree.noUnit_of_call hmonoidal hcall
      · obtain ⟨constructor, hmem⟩ := hfree.exists_overload_of_call (by decide) (by decide) hcall
        have hmem' : constructor ∈ free.overloads "otimes" := hmem
        rw [hnone] at hmem'
        cases hmem'

theorem products_of_mem (h : free ∈ [category, monoidal, cartesian]) :
    Monoidal free.theory ∨ free.overloads "otimes" = [] := by
  simp only [List.mem_cons, List.not_mem_nil, or_false] at h
  rcases h with rfl | rfl | rfl
  · exact .inr rfl
  · exact .inl monoidal_monoidal
  · exact .inl monoidal_cartesian

theorem reduced_of_built (hmem : free ∈ [category, monoidal, cartesian])
    (h : (free.algebra n).Built value) : value.Reduced := by
  have hfree := (systematic_of_mem hmem).1
  exact hfree.reduced_of_fixed (products_of_mem hmem) (hfree.simplifying.fixed_of_built h)

/-- Whatever a free calculus builds is reduced, and so is its image of an expression that was built
without simplification. -/
theorem builds_reduced : ∀ free ∈ [category, monoidal, cartesian],
    (∀ (n : Nat) (value : Value), (free.algebra n).Built value → value.Reduced) ∧
    ∀ (m n : Nat) (value : Value), ((calculusOf free.theory).algebra m).Built value →
      value.isExpr = true →
      ∃ image, (free.algebra (n + 2)).functor [] .empty value = .ok image ∧ image.Reduced := by
  intro free hmem
  refine ⟨fun n value hbuilt => reduced_of_built hmem hbuilt, fun m n value hbuilt hexpr => ?_⟩
  obtain ⟨hfree, plain⟩ := systematic_of_mem hmem
  obtain ⟨image, himage⟩ := hfree.exists_reduct n (plain.genuine_of_built hbuilt)
  refine ⟨image, ?_, reduced_of_built hmem himage.built⟩
  rw [← Algebra.mapped_expr hexpr]
  exact himage.mapped

/-- The identity on the product of the unit with an object. -/
theorem builds_reduced_identity :
    let object := objectOf (.str "A")
    let product := tensorOfObjects unitObject object
    object.Reduced ∧ ∃ image,
      (monoidal.algebra 2).functor [] .empty (identityOn product) = .ok image ∧ image.Reduced := by
  intro object product
  obtain ⟨hbuilds, himages⟩ := builds_reduced monoidal (by simp)
  have hfreeObject : (monoidal.algebra 1).Built object :=
    built_object monoidal_monoidal.toCategorical rfl "A" 0
  have hobject : ((calculusOf Standard.monoidal).algebra 1).Built object :=
    built_object monoidal_monoidal.toCategorical rfl "A" 0
  have hunit : ((calculusOf Standard.monoidal).algebra 1).Built unitObject :=
    (makes_monoidalUnit monoidal_monoidal).built rfl (List.forall_mem_nil _)
  have hproduct : ((calculusOf Standard.monoidal).algebra 1).Built product :=
    (makes_objectTensor monoidal_monoidal rfl rfl).built rfl
      (List.forall_mem_cons.mpr ⟨hunit, List.forall_mem_singleton.mpr hobject⟩)
  have hidentity : ((calculusOf Standard.monoidal).algebra 1).Built (identityOn product) :=
    (makes_identity monoidal_monoidal.toCategorical rfl).built rfl
      (List.forall_mem_singleton.mpr hproduct)
  exact ⟨hbuilds 1 object hfreeObject, himages 1 0 _ hidentity rfl⟩

end Results

end Free
end TermAlgebra
