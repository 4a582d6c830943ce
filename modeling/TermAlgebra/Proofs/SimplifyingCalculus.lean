import TermAlgebra.Algebra.Free
import TermAlgebra.Proofs.BuiltValues
import TermAlgebra.Value.Parts

/-!
Calculi whose overrides simplify. Such an override builds the expression first, and then returns the
expression or one of the arguments; which one may depend on what they are, but not on how the
building was done. So a call either reads a type argument, evaluates a default implementation,
builds an expression that itself returns when it is called again, or hands an argument back, and
what it gives within some bound on nesting it gives within every larger one. A calculus without
overrides is a trivial case.
-/
namespace TermAlgebra

open Outcome TermAlgebra.Algebra

/-- The override builds the expression under the name, and returns it or an argument. -/
structure Selective (name : String) (override : Override) : Prop where
  silent : ∀ {workshop args strict}, (workshop.build name args strict).Silent →
    (override workshop args strict).Silent
  selects : ∀ {workshop args strict result}, (workshop.build name args strict).Silent →
    override workshop args strict = .ok result →
      ∃ built, workshop.build name args strict = .ok built ∧ (result = built ∨ result ∈ args)
  stable : ∀ {workshop workshop' args strict strict' result},
    (workshop.build name args strict).Silent → override workshop args strict = .ok result →
    (∀ built, workshop.build name args strict = .ok built →
      workshop'.build name args strict' = .ok built) →
    override workshop' args strict' = .ok result

/-- Every override of the calculus only simplifies. -/
structure Calculus.Simplifying (calculus : Calculus) : Prop where
  accepted : calculus.theory.Accepted
  selective : ∀ {name override}, calculus.overrides.get? name = some override →
    Selective name override

theorem Calculus.Plain.simplifying {calculus : Calculus} (plain : calculus.Plain) :
    calculus.Simplifying where
  accepted := plain.accepted
  selective h := by cases (plain.bare _).symm.trans h

namespace Free

/-- An override that goes on from the expression that it builds without a further call. -/
theorem selective_of_bind {name : String} {override : Override}
    (choose : List Value → Value → Except Failure Value)
    (hchoose : ∀ {args built result}, choose args built = .ok result →
      result = built ∨ result ∈ args)
    (h : ∀ args, (∃ failure, ∀ workshop strict, override workshop args strict = .fail failure) ∨
      ∀ workshop strict, override workshop args strict =
        (workshop.build name args strict).bind fun built => .ofExcept (choose args built)) :
    Selective name override where
  silent {workshop args strict} hbuild := by
    rcases h args with ⟨failure, hfail⟩ | hbind
    · rw [hfail]
      exact silent_fail failure
    · rw [hbind]
      exact hbuild.bind fun built => silent_ofExcept _
  selects {workshop args strict result} hbuild hresult := by
    rcases h args with ⟨failure, hfail⟩ | hbind
    · cases fail_ne_ok _ _ ((hfail workshop strict).symm.trans hresult)
    · rw [hbind, hbuild.bind_eq_ok_iff] at hresult
      obtain ⟨built, hbuilt, hresult⟩ := hresult
      exact ⟨built, hbuilt, hchoose ((ofExcept_eq_ok_iff _ _).mp hresult)⟩
  stable {workshop workshop' args strict strict' result} hbuild hresult htransfer := by
    rcases h args with ⟨failure, hfail⟩ | hbind
    · cases fail_ne_ok _ _ ((hfail workshop strict).symm.trans hresult)
    · rw [hbind, hbuild.bind_eq_ok_iff] at hresult
      obtain ⟨built, hbuilt, hresult⟩ := hresult
      rw [hbind, htransfer built hbuilt, ok_bind, hresult]

/-- What becomes of a composite once it is built. -/
def chooseComposite : List Value → Value → Except Failure Value
  | [f, g], built =>
      match f.form, g.form with
      | .error failure, _ => .error failure
      | .ok (first, _), second =>
          if first = "id" then .ok g
          else match second with
            | .error failure => .error failure
            | .ok (second, _) => if second = "id" then .ok f else .ok built
  | _, _ => .error .badCall

/-- What becomes of a product once it is built. -/
def chooseProduct : List Value → Value → Except Failure Value
  | [a, b], built =>
      match a.form, b.form with
      | .error failure, _ => .error failure
      | .ok (left, sort), right =>
          if sort = "Ob" then
            if left = "munit" then .ok b
            else match right with
              | .error failure => .error failure
              | .ok (right, _) => if right = "munit" then .ok a else .ok built
          else .ok built
  | _, _ => .error .badCall

theorem chooseComposite_cases {args : List Value} {built result : Value}
    (h : chooseComposite args built = .ok result) : result = built ∨ result ∈ args := by
  unfold chooseComposite at h
  repeat' split at h
  all_goals cases h
  all_goals simp

theorem chooseProduct_cases {args : List Value} {built result : Value}
    (h : chooseProduct args built = .ok result) : result = built ∨ result ∈ args := by
  unfold chooseProduct at h
  repeat' split at h
  all_goals cases h
  all_goals simp

theorem composeUnits_pair (workshop : Workshop) (f g : Value) (strict : Bool) :
    composeUnits workshop [f, g] strict = (workshop.build "compose" [f, g] strict).bind
      fun built => .ofExcept (chooseComposite [f, g] built) := by
  rw [composeUnits, bind_eq]
  congr 1
  funext built
  rw [chooseComposite]
  rcases f.form with failure | ⟨first, sort⟩
  · rfl
  · rw [bind_eq, ofExcept_ok_bind]
    by_cases hfirst : first = "id"
    · simp only [if_pos hfirst]
      rfl
    · simp only [if_neg hfirst]
      rcases g.form with failure | ⟨second, sort'⟩
      · rfl
      · rw [bind_eq, ofExcept_ok_bind]
        by_cases hsecond : second = "id"
        · simp only [if_pos hsecond]
          rfl
        · simp only [if_neg hsecond]
          rfl

theorem tensorUnits_pair (workshop : Workshop) (a b : Value) (strict : Bool) :
    tensorUnits workshop [a, b] strict = (workshop.build "otimes" [a, b] strict).bind
      fun built => .ofExcept (chooseProduct [a, b] built) := by
  rw [tensorUnits, bind_eq]
  congr 1
  funext built
  rw [chooseProduct]
  rcases a.form with failure | ⟨left, sort⟩
  · rfl
  · rw [bind_eq, ofExcept_ok_bind]
    by_cases hsort : sort = "Ob"
    · by_cases hleft : left = "munit"
      · simp only [if_pos hsort, if_pos hleft]
        rfl
      · simp only [if_pos hsort, if_neg hleft]
        rcases b.form with failure | ⟨right, sort'⟩
        · rfl
        · rw [bind_eq, ofExcept_ok_bind]
          by_cases hright : right = "munit"
          · simp only [if_pos hright]
            rfl
          · simp only [if_neg hright]
            rfl
    · simp only [if_neg hsort]
      rfl

theorem selective_composeUnits : Selective "compose" composeUnits := by
  refine selective_of_bind chooseComposite chooseComposite_cases fun args => ?_
  match args with
  | [f, g] => exact Or.inr fun workshop strict => composeUnits_pair workshop f g strict
  | [] | [_] | _ :: _ :: _ :: _ => exact Or.inl ⟨_, fun _ _ => rfl⟩

theorem selective_tensorUnits : Selective "otimes" tensorUnits := by
  refine selective_of_bind chooseProduct chooseProduct_cases fun args => ?_
  match args with
  | [a, b] => exact Or.inr fun workshop strict => tensorUnits_pair workshop a b strict
  | [] | [_] | _ :: _ :: _ :: _ => exact Or.inl ⟨_, fun _ _ => rfl⟩

end Free

namespace Calculus

variable {calculus : Calculus} {self target : Algebra}

theorem buildNamed_eq_ok_iff {name : String} {args : List Value} {strict : Bool}
    {result : Value} : calculus.buildNamed self name args strict = .ok result ↔
      ∃ constructor, calculus.resolve name args = .ok constructor ∧
        calculus.build self constructor args strict = .ok result := by
  rw [buildNamed, bind_eq, (silent_ofExcept _).bind_eq_ok_iff]
  simp only [ofExcept_eq_ok_iff]

theorem silent_buildNamed (hself : self.Silent) (name : String) (args : List Value)
    (strict : Bool) : (calculus.buildNamed self name args strict).Silent :=
  (silent_ofExcept _).bind fun constructor => silent_build hself constructor args strict

theorem buildNamed_of_strict (hself : self.Silent) {name : String} {args : List Value}
    {strict : Bool} {result : Value}
    (h : calculus.buildNamed self name args strict = .ok result) :
    calculus.buildNamed self name args false = .ok result := by
  obtain ⟨constructor, hresolve, hbuild⟩ := buildNamed_eq_ok_iff.mp h
  exact buildNamed_eq_ok_iff.mpr ⟨constructor, hresolve, build_of_strict hself hbuild⟩

/-- Calling the name of an expression's head is calling the constructor that built it. -/
theorem constructorName_of_resolve (hconsistent : calculus.theory.Consistent) {name : String}
    {args : List Value} {constructor : Constructor}
    (h : calculus.resolve name args = .ok constructor) :
    constructorName constructor.head constructor.sort = name := by
  rcases mem_overloads.mp (resolve_eq_ok h).1 with ⟨c, hc, rfl, rfl⟩ | ⟨t, ht, rfl, rfl⟩
  · exact if_neg (hconsistent.term_ne_generator c hc)
  · exact if_pos rfl

section Silence

theorem Simplifying.silent_apply (simplifying : calculus.Simplifying) (hself : self.Silent)
    (constructor : Constructor) (args : List Value) (strict : Bool) :
    (calculus.apply self constructor args strict).Silent := by
  unfold apply
  split
  · rename_i override hoverride
    exact (simplifying.selective hoverride).silent (silent_buildNamed hself _ _ _)
  · dsimp only
    split
    · split
      · exact (hself.validate _ _ _).bind fun _ => hself.applyDefinition _ _ _
      · exact hself.applyDefinition _ _ _
    · exact silent_build hself constructor args strict

theorem Simplifying.silent (simplifying : calculus.Simplifying) (n : Nat) :
    (calculus.algebra n).Silent := by
  induction n with
  | zero => exact fun name args strict? => silent_fail _
  | succ n ih =>
    intro name args strict?
    change (calculus.invokeWith (calculus.algebra n) name args strict?).Silent
    unfold invokeWith
    split
    · exact silent_ofExcept _
    · exact (silent_ofExcept _).bind fun constructor =>
        simplifying.silent_apply ih constructor args _

end Silence

theorem constructWith_eq_ok_iff {name : String} {args : List Value} {strict : Bool}
    {result : Value} : calculus.constructWith self name args strict = .ok result ↔
      ∃ constructor, calculus.resolve name args = .ok constructor ∧
        calculus.apply self constructor args strict = .ok result := by
  rw [constructWith, bind_eq, (silent_ofExcept _).bind_eq_ok_iff]
  simp only [ofExcept_eq_ok_iff]

/-- What a strict call gives the same call gives when it is not strict. -/
theorem Simplifying.apply_of_strict (simplifying : calculus.Simplifying) (hself : self.Silent)
    {constructor : Constructor} {args : List Value} {strict : Bool} {result : Value}
    (h : calculus.apply self constructor args strict = .ok result) :
    calculus.apply self constructor args false = .ok result := by
  unfold apply at h ⊢
  cases hoverride : calculus.overrides.get? constructor.name with
  | some override =>
    simp only [hoverride] at h ⊢
    exact (simplifying.selective hoverride).stable (silent_buildNamed hself _ _ _) h
      fun built hbuilt => buildNamed_of_strict hself hbuilt
  | none =>
    simp only [hoverride] at h ⊢
    cases hdefinition : constructor.declaration.definition? with
    | none =>
      simp only [hdefinition] at h ⊢
      exact build_of_strict hself h
    | some definition =>
      simp only [hdefinition] at h ⊢
      cases strict with
      | false => exact h
      | true =>
        rw [if_pos rfl, bind_eq, (hself.validate _ _ _).bind_eq_ok_iff] at h
        obtain ⟨_, -, h⟩ := h
        exact h

theorem Simplifying.call_of_invoke (simplifying : calculus.Simplifying) {n : Nat} {name : String}
    {args : List Value} {strict? : Option Bool} {result : Value}
    (h : (calculus.algebra n).invoke name args strict? = .ok result) :
    (calculus.algebra n).call name args = .ok result := by
  cases n with
  | zero => exact absurd h invoke_zero_ne_ok
  | succ n =>
    change calculus.invokeWith (calculus.algebra n) name args strict? = .ok result at h
    change calculus.invokeWith (calculus.algebra n) name args none = .ok result
    unfold invokeWith at h ⊢
    cases haccessor : calculus.theory.isAccessor name with
    | true =>
      rw [haccessor, if_pos rfl, ofExcept_eq_ok_iff] at h
      rw [if_pos rfl, ofExcept_eq_ok_iff]
      cases strict? with
      | none => exact h
      | some strict => cases args <;> cases h
    | false =>
      rw [haccessor, if_neg Bool.false_ne_true, constructWith_eq_ok_iff] at h
      rw [if_neg Bool.false_ne_true, constructWith_eq_ok_iff]
      obtain ⟨constructor, hresolve, happly⟩ := h
      exact ⟨constructor, hresolve, simplifying.apply_of_strict (simplifying.silent n) happly⟩

/-- A property that passes to type arguments, and that an expression has whenever its parts have it
and the name of its head, called on its arguments, gives the expression back. -/
structure Inherited (calculus : Calculus) (bound : Nat) (P : Value → Prop) : Prop where
  typeArgs : ∀ value, P value → ∀ typeArg ∈ value.typeArgs, P typeArg
  node : ∀ {m : Nat} {head sort : String} {args typeArgs : List Value}, m ≤ bound →
    (calculus.algebra m).call (constructorName head sort) args =
      .ok (.expr head args typeArgs sort) →
    (∀ arg ∈ args, P arg) → (∀ typeArg ∈ typeArgs, P typeArg) →
    P (.expr head args typeArgs sort)

section Steps

variable {P : Value → Prop}

/-- What is built within one bound is built within another, with the same type arguments. -/
theorem build_simulated (sim : Simulates (fun a b => a = b ∧ P a) self target)
    {constructor : Constructor} {args : List Value} (hargs : ∀ arg ∈ args, P arg)
    {result : Value} (h : calculus.build self constructor args false = .ok result)
    (htarget : target.Silent) :
    calculus.build target constructor args false = .ok result ∧
      ∃ typeArgs, result = .expr constructor.head args typeArgs constructor.sort ∧
        ∀ typeArg ∈ typeArgs, P typeArg := by
  obtain ⟨haccepts, head, types, typeArgs, hexpanded, htypes, rfl⟩ :=
    (build_eq_ok_iff sim.silent).mp h
  have henv := Environment.related_ofArgs (forall₂_eq_and_iff.mpr ⟨rfl, hargs⟩)
    constructor.declaration.params
  obtain ⟨typeArgs', htypes', hrelated⟩ := sim.evaluateAll henv types htypes
  obtain ⟨rfl, hP⟩ := forall₂_eq_and_iff.mp hrelated
  exact ⟨(build_eq_ok_iff htarget).mpr ⟨haccepts, head, types, typeArgs, hexpanded, htypes', rfl⟩,
    typeArgs, rfl, hP⟩

/-- The result has the property, or it is the expression over the arguments. -/
def Passes (P : Value → Prop) (constructor : Constructor) (args : List Value) (result : Value) :
    Prop :=
  P result ∨ ∃ typeArgs, result = .expr constructor.head args typeArgs constructor.sort ∧
    ∀ typeArg ∈ typeArgs, P typeArg

theorem buildNamed_simulated (sim : Simulates (fun a b => a = b ∧ P a) self target)
    (htarget : target.Silent) {constructor : Constructor} {args : List Value}
    (hargs : ∀ arg ∈ args, P arg)
    (hresolve : calculus.resolve constructor.name args = .ok constructor) {built : Value}
    (h : calculus.buildNamed self constructor.name args false = .ok built) :
    calculus.buildNamed target constructor.name args false = .ok built ∧
      Passes P constructor args built := by
  obtain ⟨found, hfound, hbuild⟩ := buildNamed_eq_ok_iff.mp h
  cases hresolve.symm.trans hfound
  obtain ⟨hbuild', hpasses⟩ := build_simulated sim hargs hbuild htarget
  exact ⟨buildNamed_eq_ok_iff.mpr ⟨constructor, hresolve, hbuild'⟩, Or.inr hpasses⟩

theorem Simplifying.apply_simulated (simplifying : calculus.Simplifying)
    (sim : Simulates (fun a b => a = b ∧ P a) self target) (htarget : target.Silent)
    {constructor : Constructor} {args : List Value} (hargs : ∀ arg ∈ args, P arg)
    (hresolve : calculus.resolve constructor.name args = .ok constructor) {result : Value}
    (h : calculus.apply self constructor args false = .ok result) :
    calculus.apply target constructor args false = .ok result ∧
      Passes P constructor args result := by
  unfold apply at h ⊢
  cases hoverride : calculus.overrides.get? constructor.name with
  | some override =>
    simp only [hoverride] at h ⊢
    have hselective := simplifying.selective hoverride
    have hsilent : (calculus.buildNamed self constructor.name args false).Silent :=
      silent_buildNamed sim.silent _ _ _
    refine ⟨hselective.stable hsilent h fun built hbuild =>
      (buildNamed_simulated sim htarget hargs hresolve hbuild).1, ?_⟩
    obtain ⟨built, hbuild, rfl | hmem⟩ := hselective.selects hsilent h
    · exact (buildNamed_simulated sim htarget hargs hresolve hbuild).2
    · exact Or.inl (hargs result hmem)
  | none =>
    simp only [hoverride] at h ⊢
    cases hdefinition : constructor.declaration.definition? with
    | some definition =>
      simp only [hdefinition, Bool.false_eq_true, if_false] at h ⊢
      obtain ⟨result', hresult', rfl, hresult⟩ := sim.applyDefinition definition
        constructor.declaration.params (forall₂_eq_and_iff.mpr ⟨rfl, hargs⟩) h
      exact ⟨hresult', Or.inl hresult⟩
    | none =>
      simp only [hdefinition] at h ⊢
      obtain ⟨hbuild, hpasses⟩ := build_simulated sim hargs h htarget
      exact ⟨hbuild, Or.inr hpasses⟩

theorem Inherited.of_callAccessor {bound : Nat} (hP : calculus.Inherited bound P) {name : String}
    {args : List Value} (hargs : ∀ arg ∈ args, P arg) {strict? : Option Bool} {result : Value}
    (h : calculus.callAccessor name args strict? = .ok result) : P result := by
  unfold callAccessor at h
  split at h
  · cases h
  · rename_i value
    obtain ⟨owner, -, -, hget⟩ := access_eq_ok_iff.mp h
    exact hP.typeArgs value (hargs value List.mem_cons_self) result (List.mem_of_getElem? hget)
  · cases h

/-- One level of nesting: the calls one level out give the same, and the property passes on. -/
theorem Simplifying.simulates_succ (simplifying : calculus.Simplifying) {bound m n : Nat}
    (hP : calculus.Inherited bound P) (hm : m + 1 ≤ bound)
    (sim : Simulates (fun a b => a = b ∧ P a) (calculus.algebra m) (calculus.algebra n)) :
    Simulates (fun a b => a = b ∧ P a) (calculus.algebra (m + 1)) (calculus.algebra (n + 1)) where
  silent := simplifying.silent (m + 1)
  member h := h
  call := by
    intro name args args' result hrelated hcall
    obtain ⟨rfl, hargs⟩ := forall₂_eq_and_iff.mp hrelated
    have hinvoke : calculus.invokeWith (calculus.algebra m) name args none = .ok result := hcall
    suffices hstep : calculus.invokeWith (calculus.algebra n) name args none = .ok result ∧
        P result from ⟨result, hstep.1, rfl, hstep.2⟩
    cases haccessor : calculus.theory.isAccessor name with
    | true =>
      rw [invokeWith_of_accessor haccessor] at hinvoke ⊢
      exact ⟨hinvoke, hP.of_callAccessor hargs ((ofExcept_eq_ok_iff _ _).mp hinvoke)⟩
    | false =>
      rw [invokeWith, haccessor, if_neg Bool.false_ne_true, constructWith_eq_ok_iff] at hinvoke
      obtain ⟨constructor, hresolve, happly⟩ := hinvoke
      have hexpr := constructorName_of_resolve simplifying.accepted.consistent hresolve
      have hname := resolve_name hresolve
      subst hname
      obtain ⟨happly', hpasses⟩ :=
        simplifying.apply_simulated sim (simplifying.silent n) hargs hresolve happly
      refine ⟨by rw [invokeWith_of_resolve haccessor hresolve]; exact happly', ?_⟩
      rcases hpasses with hresult | ⟨typeArgs, rfl, htypes⟩
      · exact hresult
      · exact hP.node hm (hexpr ▸ hcall) hargs htypes

/-- Calls that nest up to the bound give the same within larger bounds, and the property passes
from arguments to results. -/
theorem Simplifying.simulates (simplifying : calculus.Simplifying) {bound : Nat}
    (hP : calculus.Inherited bound P) (k : Nat) : ∀ n ≤ bound,
      Simulates (fun a b => a = b ∧ P a) (calculus.algebra n) (calculus.algebra (n + k)) := by
  intro n
  induction n with
  | zero =>
    intro _
    refine ⟨simplifying.silent 0, fun _ hcall => absurd hcall invoke_zero_ne_ok, ?_⟩
    intro name h
    cases k <;> exact h
  | succ n ih =>
    intro hn
    rw [Nat.succ_add]
    exact simplifying.simulates_succ hP hn (ih (Nat.le_of_succ_le hn))

theorem Simplifying.call_mono (simplifying : calculus.Simplifying) {m n : Nat} (hle : m ≤ n)
    {name : String} {args : List Value} {result : Value}
    (h : (calculus.algebra m).call name args = .ok result) :
    (calculus.algebra n).call name args = .ok result := by
  obtain ⟨k, rfl⟩ := Nat.exists_eq_add_of_le hle
  have hP : calculus.Inherited m fun _ => True :=
    ⟨fun _ _ _ _ => trivial, fun _ _ _ _ => trivial⟩
  have sim := simplifying.simulates hP k m (Nat.le_refl m)
  obtain ⟨result', hresult', rfl, -⟩ :=
    sim.call (forall₂_eq_and_iff.mpr ⟨rfl, fun _ _ => trivial⟩) h
  exact hresult'

end Steps

end Calculus
end TermAlgebra
