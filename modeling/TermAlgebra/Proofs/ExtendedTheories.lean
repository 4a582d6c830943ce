import TermAlgebra.Proofs.EmbeddedCalculi
import TermAlgebra.Proofs.SafeCalls
import TermAlgebra.Theory.Declare

/-!
Extending a theory changes nothing for the terms that could be written before. New declarations come
after the old ones, so an old overload is still the first to accept its arguments; a type
constructor keeps its name to itself, so the owner of an accessor that a value's sort picks is still
the old one; and a name cannot pass from one class of names to another, for the extended theory is
checked too. Hence the calculus of the base is embedded in that of the extension, and whole
sequences of calls give the same results in both.
-/
namespace TermAlgebra

namespace Theory

/-- The second theory begins with the declarations of the first. -/
structure Includes (base extended : Theory) : Prop where
  types : ∃ more, extended.types = base.types ++ more
  terms : ∃ more, extended.terms = base.terms ++ more

variable {base extended : Theory}

theorem includes_extend (base : Theory) (name : String) (types : List TypeConstructor)
    (terms : List TermConstructor) (doc? : Option String) :
    base.Includes (base.extend name types terms doc?) := ⟨⟨types, rfl⟩, ⟨terms, rfl⟩⟩

theorem Includes.type? (h : base.Includes extended) {name : String} {t : TypeConstructor}
    (ht : base.type? name = some t) : extended.type? name = some t := by
  obtain ⟨more, htypes⟩ := h.types
  unfold Theory.type? at ht ⊢
  rw [htypes, List.find?_append, ht, Option.some_or]

theorem Includes.isAccessor (h : base.Includes extended) {name : String}
    (haccessor : base.isAccessor name = true) : extended.isAccessor name = true := by
  obtain ⟨more, htypes⟩ := h.types
  obtain ⟨t, ht, hname⟩ := isAccessor_iff.mp haccessor
  refine isAccessor_iff.mpr ⟨t, ?_, hname⟩
  rw [htypes]
  exact List.mem_append_left _ ht

theorem Includes.accessorOwners (h : base.Includes extended) (name : String) :
    ∃ more, extended.accessorOwners name = base.accessorOwners name ++ more := by
  obtain ⟨more, htypes⟩ := h.types
  simp only [Theory.accessorOwners, accessorPlaces, htypes, List.flatMap_append,
    List.filterMap_append]
  exact ⟨_, rfl⟩

theorem typeVariables_nil (theory : Theory) (head : String) :
    theory.typeVariables (.app head []) = [] := by
  rw [typeVariables]
  cases theory.type? head with
  | none => rfl
  | some t =>
    dsimp only
    split
    · rw [List.zip_nil_right, List.filterMap_nil]
    · rfl

/-- A type constructor that is new has no place in an old declaration: a declared type without a
type constructor is the type of all data, which has no arguments. -/
theorem Includes.steps (h : base.Includes extended) (hbase : base.Consistent)
    {c : TermConstructor} (hc : c ∈ base.interface) (name : String) :
    c.steps extended name = c.steps base name := by
  unfold TermConstructor.steps
  cases hget : c.context.get? name with
  | none => rfl
  | some type =>
    obtain ⟨head, args, rfl, ⟨-, rfl⟩ | ⟨t, ht, -⟩⟩ := hbase.declared_type hc hget
    · simp only [typeVariables_nil]
    · simp only [typeVariables, ht, h.type? ht]

theorem Includes.paths (h : base.Includes extended) (hbase : base.Consistent)
    {c : TermConstructor} (hc : c ∈ base.interface) : c.paths extended = c.paths base :=
  TermConstructor.paths_congr (h.steps hbase hc)

end Theory

namespace Calculus

open TermAlgebra.Algebra Outcome

variable {source target : Calculus}

/-- The overloads of a name that the base declares stand before all others. -/
theorem find?_overloads_of_includes (h : source.theory.Includes target.theory)
    (htarget : target.theory.Consistent) {name : String} {accepts : Constructor → Bool}
    {constructor : Constructor}
    (hfind : (source.overloads name).find? accepts = some constructor) :
    (target.overloads name).find? accepts = some constructor := by
  obtain ⟨moreTypes, htypes⟩ := h.types
  obtain ⟨moreTerms, hterms⟩ := h.terms
  have hfilter : target.theory.termsNamed name =
      source.theory.termsNamed name ++ moreTerms.filter fun c => c.name = name := by
    rw [Theory.termsNamed, hterms, List.filter_append, Theory.termsNamed]
  rw [overloads, List.find?_append] at hfind
  rw [overloads, hfilter, htypes, List.filter_append, List.map_append, List.map_append,
    List.append_assoc, List.find?_append]
  cases hold : ((source.theory.termsNamed name).map (⟨·, .compound⟩)).find? accepts with
  | some found =>
    rw [hold, Option.some_or] at hfind
    rw [Option.some_or]
    exact hfind
  | none =>
    -- The constructor is a generator, so no term constructor of the extension has its name.
    rw [hold, Option.none_or] at hfind
    obtain ⟨t, ht, -⟩ := List.mem_map.mp (List.mem_of_find?_eq_some hfind)
    rw [List.mem_filter, decide_eq_true_eq] at ht
    have hmem : t ∈ target.theory.types := by
      rw [htypes]
      exact List.mem_append_left _ ht.1
    have hnil := htarget.termsNamed_eq_nil hmem
    rw [ht.2, hfilter, List.append_eq_nil_iff] at hnil
    rw [hnil.2, List.map_nil, List.nil_append, List.find?_append, hfind, Option.some_or,
      Option.none_or]

theorem mem_overloads_of_includes (h : source.theory.Includes target.theory) {name : String}
    {constructor : Constructor} (hmem : constructor ∈ source.overloads name) :
    constructor ∈ target.overloads name := by
  obtain ⟨moreTypes, htypes⟩ := h.types
  obtain ⟨moreTerms, hterms⟩ := h.terms
  rcases mem_overloads.mp hmem with ⟨c, hc, hname, rfl⟩ | ⟨t, ht, hname, rfl⟩
  · refine mem_overloads.mpr (Or.inl ⟨c, ?_, hname, rfl⟩)
    rw [hterms]
    exact List.mem_append_left _ hc
  · refine mem_overloads.mpr (Or.inr ⟨t, ?_, hname, rfl⟩)
    rw [htypes]
    exact List.mem_append_left _ ht

theorem member_eq_ok_iff {calculus : Calculus} {name : String} :
    calculus.member name = .ok () ↔ name.startsWith "_" = false ∧
      (calculus.theory.isAccessor name = true ∨ ∃ c, c ∈ calculus.overloads name) := by
  rw [member, ← List.isEmpty_eq_false_iff_exists_mem]
  cases name.startsWith "_" <;> cases calculus.theory.isAccessor name <;>
    cases (calculus.overloads name).isEmpty <;> simp

/-- The calculus of a checked theory is embedded in that of every checked theory that begins with
its declarations. -/
theorem embeds_of_includes (h : source.theory.Includes target.theory)
    (hsource : source.theory.Consistent) (htarget : target.theory.Consistent) :
    source.Embeds target := by
  have hresolve {name : String} {args : List Value} {constructor : Constructor}
      (hok : source.resolve name args = .ok constructor) :
      target.resolve name args = .ok constructor :=
    resolve_eq_ok_iff.mpr (find?_overloads_of_includes h htarget (resolve_eq_ok_iff.mp hok))
  refine {
    isAccessor := fun haccessor => h.isAccessor haccessor
    access := ?_
    member := ?_
    resolve := hresolve
    not_accessor := fun hok => not_accessor_of_resolve htarget (hresolve hok)
    paths := fun hok => h.paths hsource (mem_constructors_of_resolve hok) }
  · intro name value result hresult
    obtain ⟨owner, hsort, hfind, hget⟩ := access_eq_ok_iff.mp hresult
    obtain ⟨more, howners⟩ := h.accessorOwners name
    refine access_eq_ok_iff.mpr ⟨owner, hsort, ?_, hget⟩
    rw [howners, List.find?_append, hfind, Option.some_or]
  · intro name hmember
    obtain ⟨hshown, haccessor | ⟨c, hc⟩⟩ := member_eq_ok_iff.mp hmember
    · exact member_eq_ok_iff.mpr ⟨hshown, Or.inl (h.isAccessor haccessor)⟩
    · exact member_eq_ok_iff.mpr ⟨hshown, Or.inr ⟨c, mem_overloads_of_includes h hc⟩⟩

end Calculus

namespace Algebra

/-- An argument in a sequence of calls: a value given from outside, or the result of an earlier
call. -/
inductive Operand where
  | given (value : Value)
  | earlier (index : Nat)

def Operand.value? (results : List Value) : Operand → Option Value
  | .given value => some value
  | .earlier index => results[index]?

structure CallStep where
  name : String
  operands : List Operand
  strict? : Option Bool

/-- Makes the calls in turn and puts each result behind those that are there already. -/
def runCalls (algebra : Algebra) (results : List Value) : List CallStep → Outcome (List Value)
  | [] => .ok results
  | step :: rest =>
      match step.operands.mapM (Operand.value? results) with
      | none => .fail .missingArgument
      | some args => do
          let result ← algebra.invoke step.name args step.strict?
          algebra.runCalls (results ++ [result]) rest

theorem Silent.runCalls {algebra : Algebra} (h : algebra.Silent) (results : List Value)
    (steps : List CallStep) : (algebra.runCalls results steps).Silent := by
  induction steps generalizing results with
  | nil => exact Outcome.silent_ok results
  | cons step rest ih =>
    rw [Algebra.runCalls]
    split
    · exact Outcome.silent_fail _
    · exact (h _ _ _).bind fun result => ih _

end Algebra

namespace Calculus

open TermAlgebra.Algebra Outcome

variable {source target : Calculus}

theorem Embeds.runCalls (h : source.Embeds target) (hsource : source.Plain)
    (htarget : target.Plain) {n : Nat} {steps : List CallStep} {results final : List Value}
    (hrun : (source.algebra n).runCalls results steps = .ok final) :
    (target.algebra n).runCalls results steps = .ok final := by
  induction steps generalizing results with
  | nil => exact hrun
  | cons step rest ih =>
    rw [Algebra.runCalls] at hrun ⊢
    cases hargs : step.operands.mapM (Operand.value? results) with
    | none =>
      rw [hargs] at hrun
      exact absurd hrun (fail_ne_ok _ _)
    | some args =>
      simp only [hargs] at hrun ⊢
      rw [bind_eq, (hsource.silent n _ _ _).bind_eq_ok_iff] at hrun
      obtain ⟨result, hinvoke, hrest⟩ := hrun
      rw [bind_eq, h.invoke hsource htarget hinvoke, ok_bind]
      exact ih hrest

/-- Extension is conservative: a sequence of calls that succeeds in the calculus of a theory gives
the same results in the calculus of every extension. -/
theorem runCalls_of_extend (hsource : source.Plain) (htarget : target.Plain) {name : String}
    {types : List TypeConstructor} {terms : List TermConstructor} {doc? : Option String}
    (hextend : target.theory = source.theory.extend name types terms doc?) {n : Nat}
    {steps : List CallStep} {results : List Value}
    (hrun : (source.algebra n).runCalls [] steps = .ok results) :
    (target.algebra n).runCalls [] steps = .ok results := by
  have hincludes : source.theory.Includes target.theory := by
    rw [hextend]
    exact Theory.includes_extend _ _ _ _ _
  have hembeds : source.Embeds target :=
    embeds_of_includes hincludes hsource.accepted.consistent htarget.accepted.consistent
  exact hembeds.runCalls hsource htarget hrun

section Example

open Standard

/-- Categories with a composition of objects, and with a type that bears the name of the type of all
data and whose parameter is an accessor of morphisms as well. -/
def contested : Theory := category.extend "ContestedCategory"
  [{ name := "Any", params := ["dom"], context := .ofList (objects ["dom"]) }]
  [constructor "compose" [] (objects ["A", "B"]) ob none] none

/-- A strict composite and its domain come out the same where composition is overloaded and the
accessor is shared. -/
theorem runCalls_of_contested :
    let object := objectOf (.str "A")
    let loop := morphismOf (.str "f") object object
    let steps : List CallStep := [⟨"Ob", [.given (.str "A")], none⟩,
      ⟨"Hom", [.given (.str "f"), .earlier 0, .earlier 0], none⟩,
      ⟨"compose", [.earlier 1, .earlier 1], some true⟩, ⟨"dom", [.earlier 2], none⟩]
    ((calculusOf contested).algebra 2).runCalls [] steps =
      .ok [object, loop, compositeOf loop loop object object, object] := by
  intro object loop steps
  have htarget : (calculusOf contested).Plain := (plain_of_create
    (show Calculus.create contested none .empty = .ok (calculusOf contested) by cbv)).1
  have hrun : ((calculusOf category).algebra 2).runCalls [] steps =
      .ok [object, loop, compositeOf loop loop object object, object] :=
    ((plain_category.silent 2).runCalls [] steps).eq_ok (by cbv)
  exact runCalls_of_extend plain_category htarget rfl hrun

end Example

end Calculus
end TermAlgebra
