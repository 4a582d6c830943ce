import TermAlgebra.Proofs.EmbeddedCalculi
import TermAlgebra.Proofs.SafeCalls
import TermAlgebra.Proofs.StrictDomains

/-!
The sorts that can be told from declarations alone. A parameter has the sort of its declared type;
an accessor has the sort that the type constructor of its argument declares for it; a call has the
sort of the overloads that arguments of the known sorts may reach, if these agree. Where nothing can
be told, the sort is that of all data. What is told is right: terms evaluate to values of their
sorts, provided that every result type applies its type constructor to terms of the declared sorts.
-/
namespace TermAlgebra

/-- The sort that a context declares for a parameter. -/
def declaredSort (context : Table Term) (name : String) : String :=
  (declaredHead? context name).getD anySort

def TypeConstructor.paramSorts (t : TypeConstructor) : List String :=
  t.params.map (declaredSort t.context)

/-- Values of the known sorts are sure to have the declared ones. -/
def sortsFit (declared known : List String) : Bool :=
  declared.length = known.length &&
    (declared.zip known).all fun (sort, own) => sort = anySort || sort = own

/-- Values of the known sorts may have the declared ones. -/
def sortsMeet (declared known : List String) : Bool :=
  declared.length = known.length &&
    (declared.zip known).all fun (sort, own) => sort = anySort || own = anySort || sort = own

namespace Theory

variable (theory : Theory)

/-- The sort of an accessor on a value of the known sort. -/
def accessedSort (accessor : String) : List String → String
  | [known] =>
      if known = anySort then anySort
      else match theory.type? known with
        | some t => declaredSort t.context accessor
        | none => anySort
  | _ => anySort

/-- The overloads that arguments of the known sorts may reach. One that is sure to take them hides
all later ones. -/
def reached (known : List String) : List TermConstructor → List TermConstructor
  | [] => []
  | c :: rest =>
      if sortsFit c.paramSorts known then [c]
      else if sortsMeet c.paramSorts known then c :: reached known rest
      else reached known rest

/-- The sort that all of the constructors build. -/
def commonSort : List TermConstructor → String
  | [] => anySort
  | c :: rest => if rest.all fun other => other.sort? = c.sort? then c.sort?.getD "" else anySort

def calledSort (name : String) (known : List String) : String :=
  if theory.isAccessor name then theory.accessedSort name known
  else commonSort (reached known (theory.termsNamed name))

mutual

def sortOf (sorts : String → String) : Term → String
  | .var name => sorts name
  | .app head args => theory.calledSort head (sortsOf sorts args)

def sortsOf (sorts : String → String) : List Term → List String
  | [] => []
  | term :: rest => sortOf sorts term :: sortsOf sorts rest

end

/-- The result type of the constructor applies its type constructor to terms of the declared sorts.
-/
def resultSorted (c : TermConstructor) : Bool :=
  match c.expandedResult theory with
  | .var _ => false
  | .app head types =>
      match theory.type? head with
      | some t => sortsFit t.paramSorts (theory.sortsOf c.paramSort types)
      | none => true

def ResultsSorted : Prop := ∀ c ∈ theory.terms, theory.resultSorted c = true

instance : Decidable theory.ResultsSorted :=
  inferInstanceAs (Decidable (∀ c ∈ theory.terms, theory.resultSorted c = true))

end Theory

theorem declaredSort_eq {context : Table Term} {name u : String}
    (h : declaredHead? context name = some u) : declaredSort context name = u := by
  rw [declaredSort, h, Option.getD_some]

theorem TermConstructor.paramSort_eq (c : TermConstructor) (param : String) :
    c.paramSort param = declaredSort c.context param := by
  rw [paramSort, declaredSort, declaredHead?]
  split <;> simp_all

/-- A generator declares the parameters of its type as the type constructor does. -/
theorem TypeConstructor.paramSort_generator (t : TypeConstructor) (param : String) :
    t.generator.paramSort param = declaredSort t.context param := by
  have hget : t.generator.context.get? param = (t.context.get? param).orElse fun _ =>
      if valueParam = param then some (.app anySort []) else none := by
    rw [generator, Table.get?_ofList, lastEntry, lastEntry_eq_lookupEntry param t.context.distinct,
      Table.get?]
  rw [TermConstructor.paramSort_eq, declaredSort, declaredSort, declaredHead?, declaredHead?, hget]
  cases t.context.get? param with
  | some type => rfl
  | none =>
    rw [Option.orElse_none]
    by_cases hvalue : valueParam = param
    · rw [if_pos hvalue]
      rfl
    · rw [if_neg hvalue]

theorem TypeConstructor.expandedResult_generator (theory : Theory) (t : TypeConstructor) :
    t.generator.expandedResult theory = .app t.name (t.params.map .var) := by
  have hresult : t.generator.result = .app t.name (t.params.map .var) := rfl
  rw [TermConstructor.expandedResult, hresult, Term.subst, Term.substAll_eq_map, List.map_map]
  congr 1
  apply List.map_congr_left
  intro param hparam
  have hfirst : TermConstructor.firstPath? (t.generator.paths theory) param = some (.var param) :=
    TermConstructor.firstPath?_of_mem_params (List.mem_cons_of_mem _ hparam)
  rw [Function.comp_apply, Term.subst, hfirst, Option.getD_some]

theorem sortsFit_iff {declared known : List String} : sortsFit declared known = true ↔
    List.Forall₂ (fun sort own => sort = anySort ∨ sort = own) declared known := by
  simp [sortsFit, List.forall₂_iff_zip]

theorem sortsMeet_iff {declared known : List String} : sortsMeet declared known = true ↔
    List.Forall₂ (fun sort own => sort = anySort ∨ own = anySort ∨ sort = own) declared known := by
  simp [sortsMeet, List.forall₂_iff_zip, or_assoc]

theorem Theory.sortsOf_vars (theory : Theory) (sorts : String → String) (names : List String) :
    theory.sortsOf sorts (names.map .var) = names.map sorts := by
  induction names with
  | nil => rfl
  | cons name rest ih => rw [List.map_cons, Theory.sortsOf, Theory.sortOf, ih, List.map_cons]

/-- The values have the sorts, place by place. -/
def FitAll (sorts : List String) (values : List Value) : Prop :=
  List.Forall₂ (fun sort value => Constructor.fits sort value = true) sorts values

theorem Constructor.fits_any (value : Value) : Constructor.fits anySort value = true := by
  simp [Constructor.fits]

theorem Constructor.fits_iff {sort : String} {value : Value} :
    Constructor.fits sort value = true ↔ sort = anySort ∨ value.hasSort sort = true := by
  simp [Constructor.fits]

theorem Value.hasSort_unique {value : Value} {sort sort' : String}
    (h : value.hasSort sort = true) (h' : value.hasSort sort' = true) : sort = sort' := by
  cases value with
  | expr head args typeArgs own =>
    have hown : own = sort := of_decide_eq_true h
    have hown' : own = sort' := of_decide_eq_true h'
    exact hown.symm.trans hown'
  | _ => cases h

theorem Constructor.accepts_iff_fitAll {constructor : Constructor} {args : List Value} :
    constructor.accepts args = true ↔ FitAll constructor.declaration.paramSorts args := by
  have hlength : constructor.declaration.paramSorts.length = constructor.declaration.arity :=
    List.length_map _
  rw [accepts_iff, FitAll, List.forall₂_iff_zip, hlength, eq_comm]
  simp only [Prod.forall]

/-- What is sure to take values of the known sorts takes them. -/
theorem FitAll.of_sortsFit {declared known : List String} {values : List Value}
    (h : FitAll known values) (hfit : sortsFit declared known = true) : FitAll declared values := by
  rw [sortsFit_iff] at hfit
  induction hfit generalizing values with
  | nil => exact h
  | cons hsort _ ih =>
    cases h with
    | cons hvalue hrest =>
      refine List.Forall₂.cons ?_ (ih hrest)
      rcases hsort with rfl | rfl
      · exact Constructor.fits_any _
      · exact hvalue

/-- What takes values of the known sorts is among what may take them. -/
theorem FitAll.sortsMeet {declared known : List String} {values : List Value}
    (h : FitAll known values) (hdeclared : FitAll declared values) :
    sortsMeet declared known = true := by
  rw [sortsMeet_iff]
  induction h generalizing declared with
  | nil =>
    cases hdeclared
    exact List.Forall₂.nil
  | cons hvalue _ ih =>
    cases hdeclared with
    | cons hsort hrest =>
      refine List.Forall₂.cons ?_ (ih hrest)
      rcases Constructor.fits_iff.mp hsort with hany | hsort
      · exact Or.inl hany
      · rcases Constructor.fits_iff.mp hvalue with hany | hvalue
        · exact Or.inr (Or.inl hany)
        · exact Or.inr (Or.inr (Value.hasSort_unique hsort hvalue))

namespace Theory

theorem mem_reached {known : List String} {args : List Value} (hknown : FitAll known args)
    {overloads : List TermConstructor} {c : TermConstructor}
    (hfind : overloads.find? (fun own => Constructor.accepts ⟨own, .compound⟩ args) = some c) :
    c ∈ reached known overloads := by
  induction overloads with
  | nil => cases hfind
  | cons own rest ih =>
    rw [List.find?_cons] at hfind
    rw [reached]
    cases haccepts : Constructor.accepts ⟨own, .compound⟩ args with
    | true =>
      rw [haccepts] at hfind
      cases hfind
      have hmeet := hknown.sortsMeet (Constructor.accepts_iff_fitAll.mp haccepts)
      rw [if_pos hmeet]
      split
      · exact List.mem_cons_self
      · exact List.mem_cons_self
    | false =>
      rw [haccepts] at hfind
      have hnot : sortsFit own.paramSorts known ≠ true := by
        intro hfit
        have htakes : Constructor.accepts ⟨own, .compound⟩ args = true :=
          Constructor.accepts_iff_fitAll.mpr (hknown.of_sortsFit hfit)
        rw [haccepts] at htakes
        cases htakes
      rw [if_neg hnot]
      split
      · exact List.mem_cons_of_mem _ (ih hfind)
      · exact ih hfind

theorem commonSort_of_mem {overloads : List TermConstructor} {c : TermConstructor}
    (hc : c ∈ overloads) :
    commonSort overloads = anySort ∨ commonSort overloads = c.sort?.getD "" := by
  cases overloads with
  | nil => cases hc
  | cons first rest =>
    rw [commonSort]
    by_cases hall : (rest.all fun other => decide (other.sort? = first.sort?)) = true
    · rw [if_pos hall]
      right
      rcases List.mem_cons.mp hc with rfl | hrest
      · rfl
      · rw [of_decide_eq_true (List.all_eq_true.mp hall c hrest)]
    · rw [if_neg hall]
      exact Or.inl rfl

end Theory

namespace Calculus

open Outcome Value

variable {calculus : Calculus}

/-- The sort told for a call is the sort of the overload that takes the arguments. -/
theorem calledSort_of_resolve (hconsistent : calculus.theory.Consistent) {name : String}
    {args : List Value} {constructor : Constructor}
    (hresolve : calculus.resolve name args = .ok constructor) {known : List String}
    (hknown : FitAll known args) : calculus.theory.calledSort name known = anySort ∨
      calculus.theory.calledSort name known = constructor.sort := by
  rw [Theory.calledSort, not_accessor_of_resolve hconsistent hresolve, if_neg Bool.false_ne_true]
  have hfind := resolve_eq_ok_iff.mp hresolve
  rw [overloads, List.find?_append, List.find?_map] at hfind
  cases hterm : (calculus.theory.termsNamed name).find?
      ((fun c => c.accepts args) ∘ fun c => (⟨c, .compound⟩ : Constructor)) with
  | some c =>
    rw [hterm] at hfind
    cases hfind
    exact Theory.commonSort_of_mem (Theory.mem_reached hknown hterm)
  | none =>
    -- A type constructor has the name, and so no term constructor has it.
    rw [hterm, Option.map_none, Option.none_or] at hfind
    obtain ⟨t, ht, -⟩ := List.mem_map.mp (List.mem_of_find?_eq_some hfind)
    rw [List.mem_filter, decide_eq_true_eq] at ht
    obtain ⟨ht, rfl⟩ := ht
    rw [hconsistent.termsNamed_eq_nil ht]
    exact Or.inl rfl

theorem fits_accessedSort (hconsistent : calculus.theory.Consistent) {name known : String}
    {value result : Value} (hvalue : WellSorted calculus.theory value)
    (hknown : Constructor.fits known value = true)
    (haccess : calculus.access name value = .ok result) :
    Constructor.fits (calculus.theory.accessedSort name [known]) result = true := by
  rw [Theory.accessedSort]
  by_cases hany : known = anySort
  · rw [if_pos hany]
    exact Constructor.fits_any _
  · rw [if_neg hany]
    have hsort := (Constructor.fits_iff.mp hknown).resolve_left hany
    cases htype : calculus.theory.type? known with
    | none => exact Constructor.fits_any _
    | some t =>
      obtain ⟨ht, rfl⟩ := Theory.type?_eq_some htype
      obtain ⟨owner, howner, hfind, hget⟩ := access_eq_ok_iff.mp haccess
      obtain ⟨t', ht', hname, hparam⟩ :=
        Theory.mem_accessorOwners.mp (List.mem_of_find?_eq_some hfind)
      have heq : t' = t :=
        hconsistent.type_eq ht' ht (hname.trans (hasSort_unique howner hsort))
      subst heq
      obtain ⟨typeArg, hget', hdeclared⟩ := hvalue.exists_typeArg ht hsort hparam
      cases hget.symm.trans hget'
      dsimp only
      cases hhead : declaredHead? t'.context name with
      | none =>
        rw [declaredSort, hhead]
        exact Constructor.fits_any _
      | some u =>
        rw [declaredSort_eq hhead]
        exact hdeclared u hhead

/-- Calls on well-sorted values give well-sorted values of the sorts that are told for them. -/
structure SortedCalls (theory : Theory) (algebra : Algebra) : Prop where
  silent : algebra.Silent
  wellSorted : ∀ {name args result}, (∀ arg ∈ args, WellSorted theory arg) →
    algebra.call name args = .ok result → WellSorted theory result
  fits : ∀ {name args result known}, (∀ arg ∈ args, WellSorted theory arg) →
    FitAll known args → algebra.call name args = .ok result →
      Constructor.fits (theory.calledSort name known) result = true

section Evaluation

variable {theory : Theory} {algebra : Algebra} {env : Environment} {sorts : String → String}

mutual

theorem SortedCalls.evaluate (hcalls : SortedCalls theory algebra)
    (henv : ∀ name value, env name = some value →
      WellSorted theory value ∧ Constructor.fits (sorts name) value = true)
    (term : Term) {value : Value} (h : algebra.evaluate env term = .ok value) :
    WellSorted theory value ∧ Constructor.fits (theory.sortOf sorts term) value = true := by
  match term with
  | .var name =>
    rw [Algebra.evaluate, Algebra.variableValue] at h
    cases hname : env name with
    | none =>
      rw [hname] at h
      exact absurd h (fail_ne_ok _ _)
    | some own =>
      rw [hname, ok_eq_ok_iff] at h
      subst h
      exact henv name own hname
  | .app head args =>
    rw [Algebra.evaluate, bind_eq, (hcalls.silent.evaluateAll env args).bind_eq_ok_iff] at h
    obtain ⟨values, hvalues, hcall⟩ := h
    obtain ⟨hsorted, hfit⟩ := SortedCalls.evaluateAll hcalls henv args hvalues
    exact ⟨hcalls.wellSorted hsorted hcall, hcalls.fits hsorted hfit hcall⟩

theorem SortedCalls.evaluateAll (hcalls : SortedCalls theory algebra)
    (henv : ∀ name value, env name = some value →
      WellSorted theory value ∧ Constructor.fits (sorts name) value = true)
    (terms : List Term) {values : List Value} (h : algebra.evaluateAll env terms = .ok values) :
    (∀ value ∈ values, WellSorted theory value) ∧ FitAll (theory.sortsOf sorts terms) values := by
  match terms with
  | [] =>
    cases (ok_eq_ok_iff _ _).mp h
    exact ⟨by simp, List.Forall₂.nil⟩
  | term :: rest =>
    rw [Algebra.evaluateAll, bind_eq, (hcalls.silent.evaluate env term).bind_eq_ok_iff] at h
    obtain ⟨value, hvalue, h⟩ := h
    rw [bind_eq, (hcalls.silent.evaluateAll env rest).bind_eq_ok_iff] at h
    obtain ⟨values', hvalues, h⟩ := h
    cases (ok_eq_ok_iff _ _).mp h
    obtain ⟨hhead, hfit⟩ := SortedCalls.evaluate hcalls henv term hvalue
    obtain ⟨hrest, hfits⟩ := SortedCalls.evaluateAll hcalls henv rest hvalues
    exact ⟨List.forall_mem_cons.mpr ⟨hhead, hrest⟩, List.Forall₂.cons hfit hfits⟩

end

end Evaluation

/-- Arguments that a constructor takes have the sorts of the parameters for which they stand. -/
theorem fits_ofArgs {constructor : Constructor} {args : List Value}
    (haccepts : constructor.accepts args = true) {name : String} {value : Value}
    (h : Environment.ofArgs constructor.declaration.params args name = some value) :
    value ∈ args ∧ Constructor.fits (constructor.declaration.paramSort name) value = true := by
  have hmem : (name, value) ∈ constructor.declaration.params.zip args := mem_of_lastEntry h
  refine ⟨(List.of_mem_zip hmem).2, ?_⟩
  obtain ⟨-, hall⟩ := (Constructor.accepts_iff _ _).mp haccepts
  refine hall (constructor.declaration.paramSort name, value) ?_
  rw [TermConstructor.paramSorts, List.zip_map_left]
  exact List.mem_map.mpr ⟨(name, value), hmem, rfl⟩

theorem resultSorted_interface (hsorted : calculus.theory.ResultsSorted)
    (hconsistent : calculus.theory.Consistent) {c : TermConstructor}
    (hc : c ∈ calculus.theory.interface) : calculus.theory.resultSorted c = true := by
  rcases List.mem_append.mp hc with hterm | hgenerator
  · exact hsorted c hterm
  · obtain ⟨t, ht, rfl⟩ := List.mem_map.mp hgenerator
    have hsorts : calculus.theory.sortsOf t.generator.paramSort (t.params.map .var) =
        t.paramSorts := by
      rw [Theory.sortsOf_vars, TypeConstructor.paramSorts]
      exact List.map_congr_left fun param _ => t.paramSort_generator param
    rw [Theory.resultSorted, TypeConstructor.expandedResult_generator]
    simp only [hconsistent.type?_of_mem ht, hsorts]
    exact sortsFit_iff.mpr (List.forall₂_same.mpr fun sort _ => Or.inr rfl)

/-- What is built from well-sorted arguments is well sorted. -/
theorem wellSorted_of_builds (hsorted : calculus.theory.ResultsSorted)
    (hconsistent : calculus.theory.Consistent) {algebra : Algebra}
    (hcalls : SortedCalls calculus.theory algebra) {constructor : Constructor}
    {args typeArgs : List Value} (h : calculus.Builds algebra constructor args typeArgs)
    (hargs : ∀ arg ∈ args, WellSorted calculus.theory arg) :
    WellSorted calculus.theory (.expr constructor.head args typeArgs constructor.sort) := by
  obtain ⟨-, haccepts⟩ := resolve_eq_ok h.resolve
  have hmem := mem_constructors_of_resolve h.resolve
  obtain ⟨head, types, hexpanded, htypes⟩ := h.typeArgs
  obtain ⟨head', types', hexpanded', hsort, -⟩ := hconsistent.expandedResult hmem
  cases hexpanded.symm.trans hexpanded'
  have henv (name : String) (value : Value)
      (hvalue : Environment.ofArgs constructor.declaration.params args name = some value) :
      WellSorted calculus.theory value ∧
        Constructor.fits (constructor.declaration.paramSort name) value = true := by
    obtain ⟨harg, hfits⟩ := fits_ofArgs haccepts hvalue
    exact ⟨hargs value harg, hfits⟩
  obtain ⟨hparts, hfit⟩ := hcalls.evaluateAll henv types htypes
  refine .expr ?_ hparts
  intro t ht hname i param hparam
  have hhead : t.name = head := by
    rw [hname, Constructor.sort, hsort, Option.getD_some]
  have hresult := resultSorted_interface hsorted hconsistent hmem
  rw [Theory.resultSorted, hexpanded] at hresult
  simp only [← hhead, hconsistent.type?_of_mem ht] at hresult
  have hdeclared : t.paramSorts[i]? = some (declaredSort t.context param) := by
    rw [TypeConstructor.paramSorts, List.getElem?_map, hparam]
    rfl
  obtain ⟨typeArg, hget, hfits⟩ := forall₂_getElem? (hfit.of_sortsFit hresult) hdeclared
  refine ⟨typeArg, hget, ?_⟩
  intro u hu
  rw [declaredSort_eq hu] at hfits
  exact hfits

/-- The induction is on the bound on nesting: the type arguments of what a call builds are computed
one level below. -/
theorem Primitive.sortedCalls (primitive : calculus.Primitive)
    (hsorted : calculus.theory.ResultsSorted) (n : Nat) :
    SortedCalls calculus.theory (calculus.algebra n) := by
  have hconsistent := primitive.accepted.consistent
  induction n with
  | zero =>
    exact ⟨primitive.silent 0, fun _ h => absurd h invoke_zero_ne_ok,
      fun _ _ h => absurd h invoke_zero_ne_ok⟩
  | succ n ih =>
    refine ⟨primitive.silent (n + 1), ?_, ?_⟩
    · intro name args result hargs hcall
      rcases primitive.yields_cases (primitive.yields_of_invoke hcall) with
        ⟨value, rfl, -, hresult⟩ | ⟨constructor, typeArgs, -, hbuilds, rfl⟩
      · obtain ⟨owner, -, -, hget⟩ := access_eq_ok_iff.mp hresult
        exact (hargs value List.mem_cons_self).parts _ (List.mem_of_getElem? hget)
      · exact wellSorted_of_builds hsorted hconsistent ih hbuilds hargs
    · intro name args result known hargs hknown hcall
      rcases primitive.yields_cases (primitive.yields_of_invoke hcall) with
        ⟨value, rfl, haccessor, hresult⟩ | ⟨constructor, typeArgs, rfl, hbuilds, rfl⟩
      · rw [Theory.calledSort, if_pos haccessor]
        cases hknown with
        | cons hvalue hnil =>
          cases hnil
          exact fits_accessedSort hconsistent (hargs value List.mem_cons_self) hvalue hresult
      · apply Constructor.fits_iff.mpr
        rcases calledSort_of_resolve hconsistent hbuilds.resolve hknown with hany | hsort
        · exact Or.inl hany
        · rw [hsort]
          exact Or.inr (by simp [hasSort])

end Calculus
end TermAlgebra
