import Mathlib.Data.List.Forall2
import TermAlgebra.Algebra.Functor
import TermAlgebra.Algebra.Model
import TermAlgebra.Proofs.SilentOutcomes

/-!
The values that a functor gives expressions, when it is determined by its target alone: no images of
generators, no actions on nodes. An algebra may answer the same call differently at different times,
for a call may take a stamp. An expression has a value if each call on the way answers the same at
all times; then the functor gives that value whenever it is applied.
-/
namespace TermAlgebra

namespace Outcome

variable {α β : Type}

/-- The result is the value whenever the operation starts. -/
def Always (outcome : Outcome α) (value : α) : Prop :=
  ∀ stamp, (outcome.run stamp).result = .ok value

theorem always_ok (value : α) : (ok value).Always value := fun _ => rfl

theorem Always.unique {outcome : Outcome α} {a b : α} (ha : outcome.Always a)
    (hb : outcome.Always b) : a = b :=
  Except.ok.inj ((ha firstStamp).symm.trans (hb firstStamp))

theorem Always.bind {outcome : Outcome α} {next : α → Outcome β} {a : α} {b : β}
    (h : outcome.Always a) (hnext : (next a).Always b) : (outcome.bind next).Always b := by
  intro stamp
  simp only [Outcome.bind, h stamp]
  exact hnext _

/-- A chain that succeeds does so because its steps succeed in turn. -/
theorem exists_of_run_bind {outcome : Outcome α} {next : α → Outcome β} {stamp : Nat} {b : β}
    (h : ((outcome.bind next).run stamp).result = .ok b) :
    ∃ a stamp', (outcome.run stamp).result = .ok a ∧ ((next a).run stamp').result = .ok b := by
  simp only [Outcome.bind] at h
  split at h
  · cases h
  · rename_i a ha
    exact ⟨a, _, ha, h⟩

end Outcome

/-- The image that a table has for a node. Only generators have one. -/
def tabledImage? (images : Images) : Value → Option Value
  | .expr head args typeArgs sort =>
      if head = generatorHead then generatorImage? images (.expr head args typeArgs sort) else none
  | _ => none

namespace Algebra

open Outcome

variable (target : Algebra)

/-- The call gives the result whenever it is made. -/
def Gives (name : String) (args : List Value) (result : Value) : Prop :=
  (target.call name args).Always result

mutual

/-- The value of an expression in the algebra. Data stand for themselves. -/
def Denotes : Value → Value → Prop
  | .expr head args _ sort, result =>
      ∃ values, DenotesAll args values ∧ target.Gives (constructorName head sort) values result
  | value, result => result = value

def DenotesAll : List Value → List Value → Prop
  | [], values => values = []
  | value :: rest, values =>
      ∃ image images, Denotes value image ∧ DenotesAll rest images ∧ values = image :: images

end

/-- The calls of the algebra do not look at the time. -/
def Timeless : Prop :=
  ∀ name args stamp stamp',
    ((target.call name args).run stamp).result = ((target.call name args).run stamp').result

variable {target}

theorem denotes_datum {value result : Value} (h : value.isExpr = false) :
    target.Denotes value result ↔ result = value := by
  cases value with
  | expr => cases h
  | _ => exact Iff.rfl

theorem Gives.unique {name : String} {args : List Value} {a b : Value}
    (ha : target.Gives name args a) (hb : target.Gives name args b) : a = b :=
  Always.unique ha hb

theorem denotes_nullary {head sort : String} {typeArgs : List Value} {result : Value} :
    target.Denotes (.expr head [] typeArgs sort) result ↔
      target.Gives (constructorName head sort) [] result := by
  simp [Denotes, DenotesAll]

theorem denotes_unary {head sort : String} {typeArgs : List Value} {x result : Value} :
    target.Denotes (.expr head [x] typeArgs sort) result ↔
      ∃ a, target.Denotes x a ∧ target.Gives (constructorName head sort) [a] result := by
  simp [Denotes, DenotesAll]

theorem denotes_binary {head sort : String} {typeArgs : List Value} {x y result : Value} :
    target.Denotes (.expr head [x, y] typeArgs sort) result ↔
      ∃ a b, target.Denotes x a ∧ target.Denotes y b ∧
        target.Gives (constructorName head sort) [a, b] result := by
  simp [Denotes, DenotesAll, and_assoc]

/-- Whatever value the first has, the second has it too. -/
def Refines (target : Algebra) (value value' : Value) : Prop :=
  ∀ result, target.Denotes value result → target.Denotes value' result

theorem refines_refl (value : Value) : target.Refines value value := fun _ h => h

theorem denotesAll_refines {args args' values : List Value}
    (hargs : List.Forall₂ target.Refines args args') (h : target.DenotesAll args values) :
    target.DenotesAll args' values := by
  induction hargs generalizing values with
  | nil => exact h
  | cons hhead _ ih =>
    rw [DenotesAll] at h ⊢
    obtain ⟨image, images, himage, himages, rfl⟩ := h
    exact ⟨image, images, hhead image himage, ih himages, rfl⟩

/-- The value of a node depends on the values of its arguments, and not on its type arguments. -/
theorem refines_expr {head sort : String} {args args' : List Value}
    (hargs : List.Forall₂ target.Refines args args') (typeArgs typeArgs' : List Value) :
    target.Refines (.expr head args typeArgs sort) (.expr head args' typeArgs' sort) := by
  intro result h
  rw [Denotes] at h ⊢
  obtain ⟨values, hvalues, hcall⟩ := h
  exact ⟨values, denotesAll_refines hargs hvalues, hcall⟩

section Tables

variable {images : Images}

/-- What becomes of an argument: data stay as they are. -/
def mapped (target : Algebra) (images : Images) (value : Value) : Outcome Value :=
  if value.isExpr then target.functor images .empty value else .ok value

theorem mapped_expr {value : Value} (h : value.isExpr = true) :
    target.mapped images value = target.functor images .empty value := if_pos h

theorem mapped_datum {value : Value} (h : value.isExpr = false) :
    target.mapped images value = .ok value := by
  rw [mapped, h, if_neg Bool.false_ne_true]

theorem functor_tabled {actions : Table NodeAction} {head sort : String}
    {args typeArgs : List Value} {image : Value}
    (h : tabledImage? images (.expr head args typeArgs sort) = some image) :
    target.functor images actions (.expr head args typeArgs sort) = .ok image := by
  rw [tabledImage?] at h
  rw [functor]
  simp only [h]

/-- A node that has no image goes to its action, if it has one. -/
theorem functor_acted {actions : Table NodeAction} {head sort : String}
    {args typeArgs : List Value} {action : NodeAction}
    (h : tabledImage? images (.expr head args typeArgs sort) = none)
    (haction : actions.get? (constructorName head sort) = some action) :
    target.functor images actions (.expr head args typeArgs sort) =
      action (.expr head args typeArgs sort) := by
  rw [tabledImage?] at h
  rw [functor]
  simp only [h, haction]

theorem functor_called {actions : Table NodeAction} {head sort : String}
    {args typeArgs : List Value}
    (h : tabledImage? images (.expr head args typeArgs sort) = none)
    (haction : actions.get? (constructorName head sort) = none) :
    target.functor images actions (.expr head args typeArgs sort) =
      (target.functorAll images actions args).bind fun values =>
        target.call (constructorName head sort) values := by
  rw [tabledImage?] at h
  rw [functor]
  simp only [h, haction, bind_eq]

theorem functor_untabled {head sort : String} {args typeArgs : List Value}
    (h : tabledImage? images (.expr head args typeArgs sort) = none) :
    target.functor images .empty (.expr head args typeArgs sort) =
      (target.functorAll images .empty args).bind fun values =>
        target.call (constructorName head sort) values := functor_called h rfl

theorem functorAll_acted (actions : Table NodeAction) (value : Value) (rest : List Value) :
    target.functorAll images actions (value :: rest) =
      (if value.isExpr then target.functor images actions value else ok value).bind fun image =>
        (target.functorAll images actions rest).bind fun images => ok (image :: images) := by
  rw [functorAll]
  cases value.isExpr <;> rfl

theorem functorAll_mapped (value : Value) (rest : List Value) :
    target.functorAll images .empty (value :: rest) =
      (target.mapped images value).bind fun image =>
        (target.functorAll images .empty rest).bind fun images => ok (image :: images) :=
  functorAll_acted .empty value rest

theorem functorAll_of_mapped {values results : List Value}
    (h : List.Forall₂ (fun value image => target.mapped images value = .ok image)
      values results) : target.functorAll images .empty values = .ok results := by
  induction h with
  | nil => rfl
  | cons hvalue _ ih => rw [functorAll_mapped, hvalue, ok_bind, ih, ok_bind]

end Tables

theorem functor_expr (head : String) (args typeArgs : List Value) (sort : String) :
    target.functor [] .empty (.expr head args typeArgs sort) =
      (target.functorAll [] .empty args).bind fun values =>
        target.call (constructorName head sort) values := by
  apply functor_untabled
  simp [tabledImage?, generatorImage?, Value.lookup]

theorem functorAll_cons (value : Value) (rest : List Value) :
    target.functorAll [] .empty (value :: rest) =
      (if value.isExpr then target.functor [] .empty value else ok value).bind fun image =>
        (target.functorAll [] .empty rest).bind fun images => ok (image :: images) :=
  functorAll_mapped value rest

theorem functor_of_args {head : String} {args typeArgs values : List Value} {sort : String}
    {result : Value} (hargs : target.functorAll [] .empty args = .ok values)
    (hcall : target.call (constructorName head sort) values = .ok result) :
    target.functor [] .empty (.expr head args typeArgs sort) = .ok result := by
  rw [functor_expr, hargs, ok_bind, hcall]

theorem functorAll_nil : target.functorAll [] .empty [] = .ok [] := rfl

theorem functorAll_datum {value : Value} {rest images : List Value}
    (hvalue : value.isExpr = false) (hrest : target.functorAll [] .empty rest = .ok images) :
    target.functorAll [] .empty (value :: rest) = .ok (value :: images) := by
  rw [functorAll_cons, hvalue, if_neg Bool.false_ne_true, ok_bind, hrest, ok_bind]

theorem functorAll_expr {value image : Value} {rest images : List Value}
    (hexpr : value.isExpr = true) (hvalue : target.functor [] .empty value = .ok image)
    (hrest : target.functorAll [] .empty rest = .ok images) :
    target.functorAll [] .empty (value :: rest) = .ok (image :: images) := by
  rw [functorAll_cons, hexpr, if_pos rfl, hvalue, ok_bind, hrest, ok_bind]

mutual

theorem Denotes.functor {value result : Value} (h : target.Denotes value result)
    (hexpr : value.isExpr = true) : (target.functor [] .empty value).Always result := by
  match value with
  | .expr head args typeArgs sort =>
    rw [Denotes] at h
    obtain ⟨values, hvalues, hcall⟩ := h
    rw [functor_expr]
    exact (DenotesAll.functorAll hvalues).bind hcall

theorem DenotesAll.functorAll {values results : List Value}
    (h : target.DenotesAll values results) :
    (target.functorAll [] .empty values).Always results := by
  match values with
  | [] =>
    rw [DenotesAll] at h
    subst h
    exact always_ok []
  | value :: rest =>
    rw [DenotesAll] at h
    obtain ⟨image, images, himage, himages, rfl⟩ := h
    rw [functorAll_cons]
    have hhead : (if value.isExpr then target.functor [] .empty value else ok value).Always
        image := by
      split
      · rename_i hexpr
        exact Denotes.functor himage hexpr
      · rename_i hexpr
        rw [denotes_datum (by simpa using hexpr)] at himage
        subst himage
        exact always_ok image
    exact hhead.bind ((DenotesAll.functorAll himages).bind (always_ok _))

end

theorem Denotes.unique {value a b : Value} (ha : target.Denotes value a)
    (hb : target.Denotes value b) : a = b := by
  cases hexpr : value.isExpr with
  | true => exact (ha.functor hexpr).unique (hb.functor hexpr)
  | false => exact ((denotes_datum hexpr).mp ha).trans ((denotes_datum hexpr).mp hb).symm

section Timeless

theorem Timeless.gives (htimeless : target.Timeless) {name : String} {args : List Value}
    {stamp : Nat} {result : Value}
    (h : ((target.call name args).run stamp).result = .ok result) :
    target.Gives name args result :=
  fun stamp' => (htimeless name args stamp' stamp).trans h

mutual

theorem Timeless.denotes (htimeless : target.Timeless) {value result : Value} {stamp : Nat}
    (h : ((target.functor [] .empty value).run stamp).result = .ok result) :
    target.Denotes value result := by
  match value with
  | .expr head args typeArgs sort =>
    rw [functor_expr] at h
    obtain ⟨values, _, hvalues, hcall⟩ := exists_of_run_bind h
    rw [Denotes]
    exact ⟨values, Timeless.denotesAll htimeless hvalues, htimeless.gives hcall⟩
  | .null | .bool _ | .int _ | .float _ | .text _ _ | .list _ | .tuple _ | .dict _ | .fin _ _ =>
    cases h

theorem Timeless.denotesAll (htimeless : target.Timeless) {values results : List Value}
    {stamp : Nat} (h : ((target.functorAll [] .empty values).run stamp).result = .ok results) :
    target.DenotesAll values results := by
  match values with
  | [] =>
    cases h
    rw [DenotesAll]
  | value :: rest =>
    rw [functorAll_cons] at h
    obtain ⟨image, _, himage, h⟩ := exists_of_run_bind h
    obtain ⟨images, _, himages, h⟩ := exists_of_run_bind h
    cases h
    rw [DenotesAll]
    refine ⟨image, images, ?_, Timeless.denotesAll htimeless himages, rfl⟩
    split at himage
    · exact Timeless.denotes htimeless himage
    · rename_i hexpr
      cases himage
      exact (denotes_datum (by simpa using hexpr)).mpr rfl

end

/-- Where calls do not look at the time, the value of an expression is what the functor gives. -/
theorem Timeless.denotes_iff (htimeless : target.Timeless) {value result : Value}
    (hexpr : value.isExpr = true) :
    target.Denotes value result ↔ (target.functor [] .empty value).result = .ok result :=
  ⟨fun h => h.functor hexpr firstStamp, fun h => htimeless.denotes h⟩

end Timeless

end Algebra

/-- A model's own operation decides the calls of its name. -/
theorem Model.gives_of_operation {model : Model} {name : String} {operation : Operation}
    {args : List Value} {result : Value} (hname : model.operation? name = some operation)
    (hresult : operation args = .ok result) : model.toAlgebra.Gives name args result := by
  have hcall : model.toAlgebra.call name args = .ok result := by
    change model.invokeWith _ name args none = .ok result
    rw [Model.invokeWith, hname, ← hresult]
    rfl
  rw [Algebra.Gives, hcall]
  exact Outcome.always_ok result

end TermAlgebra
