import Mathlib.Data.Set.Finite.List
import Mathlib.Order.WellFounded
import TermAlgebra.Proofs.ConstantCycles
import TermAlgebra.Proofs.SafeCalls

/-!
What the construction of a nullary term calls. The type of a term is computed by calling the
constructors that the expanded result type applies, so a construction that comes back to itself has
no end. An accepted theory has no cycle of calls in which each constructor is nullary and takes no
arguments, and where a constructor leads to such calls only, its construction ends within some bound
on nesting. A cycle that goes through a constructor with parameters, however, the check does not
see.
-/
namespace TermAlgebra

open Relation

/-- The operation has not been cut off at the bound on nesting. -/
def Outcome.Finishes (outcome : Outcome Value) : Prop :=
  outcome.Ends (· ≠ .exhausted) fun _ => True

theorem Algebra.finishes_variableValue (env : Environment) (name : String) :
    (variableValue env name).Finishes := by
  unfold variableValue
  cases env name with
  | none => exact Outcome.ends_fail nofun
  | some value => exact Outcome.ends_ok trivial

namespace Theory

/-- The expanded result type of some declaration of the caller applies the callee, which is a term
constructor. -/
def Calls (theory : Theory) (caller callee : String) : Prop :=
  (∃ c ∈ theory.terms, c.name = caller ∧ callee ∈ (c.expandedResult theory).heads) ∧
    callee ∈ theory.terms.map (·.name)

variable {theory : Theory}

/-- What the check searches are calls of constants by themselves; in an accepted theory they do not
form a cycle. -/
theorem Accepted.constants_acyclic (h : theory.Accepted) (name : String) :
    ¬TransGen theory.ConstantCall name name := by
  intro hcycle
  have hfinding : regress name ∈ theory.findings := by
    obtain ⟨others, hfindings, -⟩ := exists_findings_eq theory
    rw [hfindings]
    exact List.mem_append_right _ (mem_regressDiagnostics.mpr ⟨name, rfl, hcycle⟩)
  cases h.no_error hfinding

/-- If all calls on the way are calls of constants by constants, nothing on the way calls itself. -/
theorem Accepted.acyclic_of_constants (h : theory.Accepted) {name : String}
    (hconstants : ∀ caller callee, ReflTransGen theory.Calls name caller →
      theory.Calls caller callee → theory.ConstantCall caller callee) {reached : String}
    (hreached : ReflTransGen theory.Calls name reached) :
    ¬TransGen theory.Calls reached reached := by
  intro hcycle
  have hall : ∀ last, TransGen theory.Calls reached last →
      TransGen theory.ConstantCall reached last := by
    intro last hpath
    induction hpath with
    | single hcall => exact .single (hconstants _ _ hreached hcall)
    | tail hpath hcall ih =>
      exact ih.tail (hconstants _ _ (hreached.trans hpath.to_reflTransGen) hcall)
  exact h.constants_acyclic reached (hall reached hcycle)

end Theory

section Bounds

variable {P : String → Nat → Prop}

/-- Bounds from which on a property holds can be joined to one for all names of a list. -/
theorem exists_common_bound (names : List String)
    (h : ∀ name ∈ names, ∃ bound, ∀ n, bound ≤ n → P name n) :
    ∃ bound, ∀ name ∈ names, ∀ n, bound ≤ n → P name n := by
  induction names with
  | nil => exact ⟨0, by simp⟩
  | cons name rest ih =>
    rw [List.forall_mem_cons] at h
    obtain ⟨bound, hbound⟩ := h.1
    obtain ⟨bound', hbound'⟩ := ih h.2
    refine ⟨max bound bound', List.forall_mem_cons.mpr ⟨?_, ?_⟩⟩
    · exact fun n hn => hbound n (le_of_max_le_left hn)
    · exact fun other hother n hn => hbound' other hother n (le_of_max_le_right hn)

/-- Finitely many names of which none leads back to itself can be taken in an order in which each
comes after the names that it leads to. -/
theorem wellFounded_of_acyclic {r : String → String → Prop} {p : String → Prop}
    {names : List String} (hnames : ∀ name, p name → name ∈ names)
    (hacyclic : ∀ name, p name → ¬TransGen r name name) :
    WellFounded fun b a : {name // p name} => TransGen r a.1 b.1 := by
  have hfinite : Finite {name // p name} := ((List.finite_toSet names).subset hnames).to_subtype
  have htrans : IsTrans {name // p name} fun b a => TransGen r a.1 b.1 :=
    ⟨fun _ _ _ hba hcb => hcb.trans hba⟩
  have hirrefl : Std.Irrefl fun b a : {name // p name} => TransGen r a.1 b.1 :=
    ⟨fun a => hacyclic a.1 a.2⟩
  exact Finite.wellFounded_of_trans_of_irrefl _

/-- If every name has a bound as soon as the names that it leads to have one, so has each name from
which no name is reached that leads back to itself. -/
theorem exists_bound_of_acyclic {r : String → String → Prop} {names : List String}
    (hnames : ∀ source target, r source target → target ∈ names)
    (hstep : ∀ source ∈ names, ∀ bound, (∀ target, r source target → ∀ n, bound ≤ n → P target n) →
      ∃ bound, ∀ n, bound ≤ n → P source n)
    {start : String} (hstart : start ∈ names)
    (hacyclic : ∀ reached, ReflTransGen r start reached → ¬TransGen r reached reached) :
    ∃ bound, ∀ n, bound ≤ n → P start n := by
  -- Only the names that are reached are free of cycles, so the induction is on these.
  have hwf := wellFounded_of_acyclic (r := r)
    (p := fun name => name ∈ names ∧ ReflTransGen r start name) (fun name h => h.1)
    (fun name h => hacyclic name h.2)
  suffices hall : ∀ a : {name // name ∈ names ∧ ReflTransGen r start name},
      ∃ bound, ∀ n, bound ≤ n → P a.1 n from hall ⟨start, hstart, .refl⟩
  intro a
  induction a using hwf.induction with
  | _ a ih =>
    have htargets : ∀ target ∈ names, ∃ bound, ∀ n, bound ≤ n → r a.1 target → P target n := by
      intro target htarget
      by_cases hedge : r a.1 target
      · obtain ⟨bound, hbound⟩ := ih ⟨target, htarget, a.2.2.tail hedge⟩ (.single hedge)
        exact ⟨bound, fun n hn _ => hbound n hn⟩
      · exact ⟨0, fun _ _ h => absurd h hedge⟩
    obtain ⟨bound, hbound⟩ := exists_common_bound names htargets
    exact hstep a.1 a.2.1 bound fun target hedge n hn =>
      hbound target (hnames _ _ hedge) n hn hedge

end Bounds

namespace Calculus

open Outcome

variable {calculus : Calculus}

theorem finishes_callAccessor (name : String) (args : List Value) :
    (ofExcept (calculus.callAccessor name args none)).Finishes := by
  unfold callAccessor access
  repeat' split
  all_goals first | exact ends_fail (by rintro ⟨⟩) | exact ends_ok trivial

/-- Building from a declaration finishes if the calls that the declaration makes finish. -/
theorem finishes_build (hconsistent : calculus.theory.Consistent) {n : Nat} {c : TermConstructor}
    (hc : c ∈ calculus.theory.terms) (hcalls : ∀ callee, calculus.theory.Calls c.name callee →
      ∀ args, ((calculus.algebra (n + 1)).call callee args).Finishes) (args : List Value) :
    (calculus.build (calculus.algebra (n + 1)) ⟨c, .compound⟩ args false).Finishes := by
  obtain ⟨head, types, hexpanded, -, hsafe, -⟩ :=
    hconsistent.expandedResult (List.mem_append_left _ hc)
  cases haccepts : Constructor.accepts ⟨c, .compound⟩ args with
  | false =>
    rw [build_of_not_accepts haccepts]
    exact ends_fail nofun
  | true =>
    have hfinishes : ∀ own ∈ Term.headsAll types, ∀ args,
        ((calculus.algebra (n + 1)).call own args).Finishes := by
      intro own hown args
      rcases hsafe.heads own hown with haccessor | hterms
      · rw [call_of_accessor haccessor]
        exact finishes_callAccessor own args
      · refine hcalls own ⟨⟨c, hc, rfl, ?_⟩, ?_⟩ args
        · rw [hexpanded, Term.heads]
          exact List.mem_cons_of_mem _ hown
        · obtain ⟨d, hd⟩ := List.exists_mem_of_ne_nil _ hterms
          simp only [Theory.termsNamed, List.mem_filter, decide_eq_true_eq] at hd
          exact List.mem_map.mpr ⟨d, hd⟩
    have htypes := Algebra.ends_evaluateAll types
      (fun name _ => Algebra.finishes_variableValue (.ofArgs c.params args) name)
      fun own hown args _ => hfinishes own hown args
    unfold build
    simp only [haccepts, Bool.not_true, Bool.false_eq_true, if_false, hexpanded]
    exact htypes.bind fun typeArgs _ => ends_ok trivial

/-- A call of a term constructor finishes one level above the calls that it makes. -/
theorem Primitive.finishes_call (primitive : calculus.Primitive) {n : Nat} {name : String}
    (hname : name ∈ calculus.theory.terms.map (·.name))
    (hcalls : ∀ callee, calculus.theory.Calls name callee →
      ∀ args, ((calculus.algebra (n + 1)).call callee args).Finishes) (args : List Value) :
    ((calculus.algebra (n + 2)).call name args).Finishes := by
  have hconsistent := primitive.accepted.consistent
  obtain ⟨c, hc, rfl⟩ := List.mem_map.mp hname
  rw [call_of_not_accessor (hconsistent.term_not_accessor c hc)]
  cases hresolve : calculus.resolve c.name args with
  | error failure =>
    rw [ofExcept_error_bind]
    refine ends_fail ?_
    rintro rfl
    cases isRejection_of_resolve hresolve
  | ok constructor =>
    rw [ofExcept_ok_bind, apply, primitive.bare]
    simp only [primitive.definition?_eq_none (mem_constructors_of_resolve hresolve)]
    rcases mem_overloads.mp (resolve_eq_ok hresolve).1 with ⟨d, hd, hsame, rfl⟩ | ⟨t, ht, hsame, -⟩
    · exact finishes_build hconsistent hd (hsame ▸ hcalls) args
    · exact absurd (List.mem_map.mpr ⟨t, ht, hsame⟩) (hconsistent.term_not_type c hc)

/-- The theory of a calculus has no cycle of calls of constants by constants. If such calls are all
that a constant leads to, then nothing on the way calls itself, and from some bound on nesting on
the construction is not cut off, whatever the arguments for its other overloads. -/
theorem Primitive.construction_finishes (primitive : calculus.Primitive) :
    (∀ name, ¬TransGen calculus.theory.ConstantCall name name) ∧
    ∀ name, calculus.theory.isConstant name = true →
      (∀ caller callee, ReflTransGen calculus.theory.Calls name caller →
        calculus.theory.Calls caller callee → calculus.theory.ConstantCall caller callee) →
      ¬TransGen calculus.theory.Calls name name ∧
        ∃ bound, ∀ n, bound ≤ n → ∀ args, ((calculus.algebra n).call name args).Finishes := by
  refine ⟨primitive.accepted.constants_acyclic, fun name hconstant hconstants => ?_⟩
  have hacyclic (reached : String) (hreached : ReflTransGen calculus.theory.Calls name reached) :
      ¬TransGen calculus.theory.Calls reached reached :=
    primitive.accepted.acyclic_of_constants hconstants hreached
  obtain ⟨c, hc, hname, -⟩ := Theory.isConstant_iff.mp hconstant
  refine ⟨hacyclic name .refl, exists_bound_of_acyclic
    (P := fun name n => ∀ args, ((calculus.algebra n).call name args).Finishes)
    (fun _ _ hcall => hcall.2) ?_ (List.mem_map.mpr ⟨c, hc, hname⟩) hacyclic⟩
  intro source hsource bound hbound
  refine ⟨bound + 2, fun n hn => ?_⟩
  obtain ⟨m, rfl⟩ := Nat.exists_eq_add_of_le' (Nat.le_of_add_left_le hn)
  exact primitive.finishes_call hsource fun callee hcall => hbound callee hcall (m + 1) (by omega)

section Examples

open Standard

def star : TermConstructor := constructor "star" [] [] (.app "Pt" [.app "base" []]) none

def base : TermConstructor := constructor "base" [] [] ob none

/-- A point over an object, both of them constants. -/
def pointed : Theory where
  name := "Pointed"
  types := [objectType, Theory.pointType]
  terms := [star, base]

theorem constantCall_of_pointed {caller callee : String} (h : pointed.Calls caller callee) :
    pointed.ConstantCall caller callee := by
  obtain ⟨⟨c, hc, rfl, hhead⟩, hcallee⟩ := h
  have hstar : star.expandedResult pointed = .app "Pt" [.app "base" []] := by cbv
  have hbase : base.expandedResult pointed = .app "Ob" [] := by cbv
  have hcallee' : callee = "star" ∨ callee = "base" := by
    simpa [pointed, star, base, constructor, eq_comm] using hcallee
  have hc' : c ∈ [star, base] := hc
  simp only [List.mem_cons, List.not_mem_nil, or_false] at hc'
  rcases hc' with rfl | rfl
  · rw [hstar] at hhead
    obtain rfl : callee = "base" := by
      rcases hcallee' with rfl | rfl <;> simp_all [Term.heads, Term.headsAll]
    exact ⟨⟨star, hc, rfl, rfl, hstar ▸ .argument List.mem_cons_self .whole⟩,
      base, by simp [pointed], rfl, rfl⟩
  · rw [hbase] at hhead
    rcases hcallee' with rfl | rfl <;> simp [Term.heads, Term.headsAll] at hhead

theorem construction_finishes_star :
    pointed.isConstant "star" = true ∧ ¬TransGen pointed.Calls "star" "star" ∧
      ∃ bound, ∀ n, bound ≤ n → ∀ args,
        (((calculusOf pointed).algebra n).call "star" args).Finishes := by
  have primitive : (calculusOf pointed).Primitive :=
    { (plain_of_create (show Calculus.create pointed none .empty = .ok (calculusOf pointed) by
        cbv)).1 with
      definition? := by decide }
  have hconstant : pointed.isConstant "star" = true := by decide
  exact ⟨hconstant, primitive.construction_finishes.2 "star" hconstant
    fun _ _ _ => constantCall_of_pointed⟩

/-- A type over data of any kind. -/
def tagType : TypeConstructor where
  name := "Tag"
  params := ["of"]
  context := .ofList [("of", .app anySort [])]

def mark : TermConstructor :=
  constructor "mark" [] (objects ["x"]) (.app "Tag" [.app "loop" []]) none

def loop : TermConstructor :=
  constructor "loop" [] [] (.app "Tag" [.app "mark" [.app "base" []]]) none

/-- A constant whose construction comes back to itself through a constructor with a parameter. -/
def detour : Theory where
  name := "Detour"
  types := [objectType, tagType]
  terms := [base, mark, loop]

theorem plain_detour : (calculusOf detour).Plain :=
  (plain_of_create (show Calculus.create detour none .empty = .ok (calculusOf detour) by cbv)).1

theorem expandedResult_mark : mark.expandedResult detour = .app "Tag" [.app "loop" []] := by cbv

theorem expandedResult_loop :
    loop.expandedResult detour = .app "Tag" [.app "mark" [.app "base" []]] := by cbv

theorem call_base (n : Nat) :
    ((calculusOf detour).algebra (n + 1)).call "base" [] = .ok (.expr "base" [] [] "Ob") := by
  have hexpanded : base.expandedResult detour = .app "Ob" [] := by cbv
  have hresolve : (calculusOf detour).resolve "base" [] = .ok ⟨base, .compound⟩ := rfl
  rw [plain_detour.call_eq_build hresolve rfl]
  exact build_of_types rfl hexpanded rfl

/-- The construction asks for itself again, two levels of nesting below. -/
theorem call_loop (n : Nat) :
    ((calculusOf detour).algebra n).call "loop" [] = .fail .exhausted := by
  induction n using Nat.strong_induction_on with
  | _ n ih =>
    cases n with
    | zero => rfl
    | succ n =>
      have hresolve : (calculusOf detour).resolve "loop" [] = .ok ⟨loop, .compound⟩ := rfl
      rw [plain_detour.call_eq_build hresolve rfl]
      refine build_of_failure rfl expandedResult_loop ?_
      cases n with
      | zero => rfl
      | succ n =>
        have hresolve' : (calculusOf detour).resolve "mark" [.expr "base" [] [] "Ob"] =
            .ok ⟨mark, .compound⟩ := rfl
        have hmark : ((calculusOf detour).algebra (n + 1)).call "mark" [.expr "base" [] [] "Ob"] =
            .fail .exhausted := by
          rw [plain_detour.call_eq_build hresolve' rfl]
          refine build_of_failure rfl expandedResult_mark ?_
          simp only [Algebra.evaluateAll, Algebra.evaluate, bind_eq, pure_eq, ok_bind,
            ih n (by omega), fail_bind]
        simp only [Algebra.evaluateAll, Algebra.evaluate, bind_eq, pure_eq, ok_bind, call_base,
          hmark, fail_bind]

/-- The check finds nothing wrong with the detour, though its constant calls itself and no bound on
nesting lets the construction end. -/
theorem detour_not_rejected :
    detour.check = .ok [] ∧ detour.isConstant "loop" = true ∧
      TransGen detour.Calls "loop" "loop" ∧
      ∀ n, ((calculusOf detour).algebra n).call "loop" [] = .fail .exhausted := by
  have hthere : detour.Calls "loop" "mark" :=
    ⟨⟨loop, by simp [detour], rfl, by simp [expandedResult_loop, Term.heads, Term.headsAll]⟩,
      by decide⟩
  have hback : detour.Calls "mark" "loop" :=
    ⟨⟨mark, by simp [detour], rfl, by simp [expandedResult_mark, Term.heads, Term.headsAll]⟩,
      by decide⟩
  exact ⟨by cbv, by decide, .head hthere (.single hback), call_loop⟩

end Examples

end Calculus
end TermAlgebra
