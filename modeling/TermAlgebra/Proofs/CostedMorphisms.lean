import TermAlgebra.Algebra.Operation
import TermAlgebra.Proofs.FollowedEvaluations
import TermAlgebra.Proofs.StandardCalls

/-!
The cost of a morphism: a model of cartesian categories in which a morphism is an integer. A table
of prices says what generators cost, and a generator without a price costs the integer that it
wraps. The costs of a composite and of a product add up those of the parts, and nothing else costs
anything; a pair has no operation of its own and costs what its definition does. Among the things
that are free are objects, so the ends of a morphism have the same cost in the calculus, where they
are read off its type, and in the model, which does not know them.
-/
namespace TermAlgebra

open Outcome Calculus Standard

/-- The operations that cost nothing. -/
def freeOfCharge : List String :=
  ["dom", "codom", "id", "munit", "braid", "mcopy", "delete", "proj1", "proj2"]

def costModel : Model where
  name := "Cost"
  theory := cartesian
  types := .ofList [("Ob", Operation.constant (.int 0)), ("Hom", Operation.argument List.head?)]
  operations := .ofList ([("compose", Operation.sum), ("otimes", Operation.sum)] ++
    freeOfCharge.map fun name => (name, Operation.constant (.int 0)))

def IsInteger (value : Value) : Prop := ∃ n : Int, value = .int n

/-- A table that gives integers to generators of morphisms. -/
structure Prices (prices : Images) : Prop where
  morphisms : ∀ entry ∈ prices, ∃ datum source target, entry.1 = morphismOf datum source target
  integers : ∀ entry ∈ prices, IsInteger entry.2

/-- The value has the cost. Objects cost nothing. -/
structure Costs (prices : Images) (value : Value) (cost : Int) : Prop where
  hasImage : HasImage costModel.algebra prices value (.int cost)
  object : value.hasSort "Ob" = true → cost = 0

/-! ### The operations -/

theorem sum_integers (m n : Int) : Operation.sum [.int m, .int n] = .ok (.int (m + n)) := by
  simp [Operation.sum, Operation.binary, Value.add, Value.combineNumbers, Value.integer?,
    Operation.marked, bind_eq, pure_eq, ofExcept_ok_bind]

theorem operation?_of_freeOfCharge {name : String} (h : name ∈ freeOfCharge) :
    costModel.operation? name = some (Operation.constant (.int 0)) := by
  simp only [freeOfCharge, List.mem_cons, List.not_mem_nil, or_false] at h
  rcases h with rfl | rfl | rfl | rfl | rfl | rfl | rfl | rfl | rfl <;> rfl

theorem operation_of_costModel {name : String} {operation : Operation}
    (h : costModel.operation? name = some operation) :
    operation = Operation.constant (.int 0) ∨ operation = Operation.argument List.head? ∨
      operation = Operation.sum := by
  rw [Model.operation?] at h
  cases htypes : costModel.types.get? name with
  | some own =>
    rw [htypes] at h
    cases h
    have hmem := mem_of_lastEntry ((Table.get?_ofList _ _).symm.trans htypes)
    simp only [List.mem_cons, Prod.mk.injEq, List.not_mem_nil, or_false] at hmem
    rcases hmem with ⟨-, rfl⟩ | ⟨-, rfl⟩
    · exact .inl rfl
    · exact .inr (.inl rfl)
  | none =>
    rw [htypes] at h
    change costModel.operations.get? name = some operation at h
    have hmem := mem_of_lastEntry ((Table.get?_ofList _ _).symm.trans h)
    rcases List.mem_append.mp hmem with hmem | hmem
    · simp only [List.mem_cons, Prod.mk.injEq, List.not_mem_nil, or_false] at hmem
      rcases hmem with ⟨-, rfl⟩ | ⟨-, rfl⟩
      · exact .inr (.inr rfl)
      · exact .inr (.inr rfl)
    · obtain ⟨_, -, hentry⟩ := List.mem_map.mp hmem
      cases hentry
      exact .inl rfl

/-- From integers an operation makes an integer, if it makes anything. -/
theorem keeps_operation {name : String} {operation : Operation}
    (h : costModel.operation? name = some operation) {args : List Value}
    (hargs : ∀ arg ∈ args, IsInteger arg) : (operation args).Keeps IsInteger := by
  rcases operation_of_costModel h with rfl | rfl | rfl
  · exact keeps_ok ⟨0, rfl⟩
  · cases args with
    | nil => exact keeps_fail _
    | cons arg rest => exact keeps_ok (hargs arg List.mem_cons_self)
  · match args with
    | [] | [_] | _ :: _ :: _ :: _ => exact keeps_fail _
    | [first, second] =>
      obtain ⟨m, rfl⟩ := hargs first (by simp)
      obtain ⟨n, rfl⟩ := hargs second (by simp)
      rw [sum_integers]
      exact keeps_ok ⟨m + n, rfl⟩

theorem interprets_costModel :
    Interprets cartesian costModel.algebra IsInteger fun _ _ => True := by
  refine .model costModel IsInteger rfl (fun _ _ hname _ hargs => keeps_operation hname hargs) ?_
  intro c hc hdefinition
  obtain ⟨definition, hdefinition⟩ := Option.isSome_iff_exists.mp hdefinition
  obtain ⟨rfl, -⟩ := defined_cartesian hc hdefinition
  rfl

section Expressions

variable {calculus : Calculus} {prices : Images} {bound : Nat}

/-- A term constructor that builds is free of charge, or adds up the costs of its two arguments and,
if it makes an object, makes it of objects. -/
theorem cost_kind {c : TermConstructor} (hc : c ∈ cartesian.terms) (h : c.definition? = none) :
    c.name ∈ freeOfCharge ∨
      costModel.operation? c.name = some Operation.sum ∧ c.arity = 2 ∧
        (c.sort?.getD "" = "Ob" → c.paramSorts = ["Ob", "Ob"]) := by
  have hkinds : ∀ c ∈ cartesian.terms, c.definition? = none → c.name ∈ freeOfCharge ∨
      (c.name = "compose" ∨ c.name = "otimes") ∧ c.arity = 2 ∧
        (c.sort?.getD "" = "Ob" → c.paramSorts = ["Ob", "Ob"]) := by decide
  refine (hkinds c hc h).imp_right fun ⟨hname, hrest⟩ => ⟨?_, hrest⟩
  rcases hname with hname | hname <;> rw [hname] <;> rfl

/-- What is built from costed arguments has a cost when the model is called for it. -/
theorem exists_cost_of_builds (htheory : calculus.theory = cartesian) {m : Nat}
    {constructor : Constructor} {args typeArgs : List Value}
    (hbuilds : calculus.Builds (calculus.algebra m) constructor args typeArgs) {costs : List Int}
    (hargs : List.Forall₂ (Costs prices) args costs) :
    ∃ cost : Int, Settles (calls costModel.algebra constructor.name (costs.map .int))
      (.ok (.int cost)) ∧ (constructor.sort = "Ob" → cost = 0) := by
  obtain ⟨hmem, haccepts⟩ := resolve_eq_ok hbuilds.resolve
  have hlength : costs.length = constructor.declaration.arity := by
    rw [← hargs.length_eq]
    exact ((Constructor.accepts_iff _ _).mp haccepts).1
  rcases mem_overloads.mp hmem with ⟨c, hc, -, rfl⟩ | ⟨t, ht, -, rfl⟩
  · rw [htheory] at hc
    rcases cost_kind hc hbuilds.definition? with hfree | ⟨hsum, harity, hobjects⟩
    · exact ⟨0, Model.settles_of_operation (operation?_of_freeOfCharge hfree) rfl, fun _ => rfl⟩
    · obtain ⟨x, y, rfl⟩ := List.length_eq_two.mp (hlength.trans harity)
      refine ⟨x + y, Model.settles_of_operation hsum (sum_integers x y), fun hsort => ?_⟩
      obtain ⟨f, _, hx, hrest, rfl⟩ := List.forall₂_cons_right_iff.mp hargs
      obtain ⟨g, _, hy, hnil, rfl⟩ := List.forall₂_cons_right_iff.mp hrest
      obtain rfl := List.forall₂_nil_right_iff.mp hnil
      have hsorts : f.hasSort "Ob" = true ∧ g.hasSort "Ob" = true := by
        simpa [accepts_of_paramSorts (hobjects hsort), Constructor.fits, anySort] using haccepts
      rw [hx.object hsorts.1, hy.object hsorts.2]
      rfl
  · rw [htheory] at ht
    rcases monoidal_cartesian.mem_types_iff.mp ht with rfl | rfl
    · exact ⟨0, Model.settles_of_operation rfl rfl, fun _ => rfl⟩
    · obtain ⟨x, y, z, rfl⟩ := List.length_eq_three.mp hlength
      exact ⟨x, Model.settles_of_operation rfl rfl, fun hsort => absurd hsort (by decide)⟩

/-- The table has no price for an object that is built. -/
theorem Prices.not_object (hprices : Prices prices) (plain : calculus.Plain)
    (htheory : calculus.theory = cartesian) {m : Nat} {constructor : Constructor}
    {args typeArgs : List Value} {image : Value}
    (hbuilds : calculus.Builds (calculus.algebra m) constructor args typeArgs)
    (htabled : tabledImage? prices (.expr constructor.head args typeArgs constructor.sort) =
      some image) : constructor.sort ≠ "Ob" := by
  intro hsort
  obtain ⟨key, hmem, hsame⟩ := mem_of_tabledImage? htabled
  obtain ⟨datum, source, target, rfl⟩ := hprices.morphisms _ hmem
  obtain ⟨args', _, _, hnode, hargs, -⟩ := Value.same_expr_iff.mp hsame
  obtain ⟨hhead, rfl, -⟩ := Value.expr.inj hnode
  rcases plain.builds_cases hbuilds with ⟨hcompound, -⟩ | ⟨t, ht, -, -, -, hname, -, hlength⟩
  · exact hcompound hhead
  · rw [htheory] at ht
    rcases monoidal_cartesian.mem_types_iff.mp ht with rfl | rfl
    · cases hargs.length_eq.trans hlength
    · exact absurd (hname.symm.trans hsort) (by decide)

/-- Every expression of integers has a cost. -/
theorem exists_cost (plain : calculus.Plain) (htheory : calculus.theory = cartesian)
    (hprices : Prices prices) {value : Value} (hgenuine : calculus.Genuine bound value)
    (hdata : value.AllData IsInteger) : ∃ cost, Costs prices value cost := by
  have hinterprets : Interprets calculus.theory costModel.algebra IsInteger fun _ _ => True := by
    rw [htheory]
    exact interprets_costModel
  induction hgenuine with
  | @datum value hdatum =>
    obtain ⟨n, rfl⟩ := hdata.of_datum hdatum
    exact ⟨n, hasImage_datum rfl, fun hsort => by cases hsort⟩
  | @expr m constructor args typeArgs hm hbuilds hgenuine _ ih _ =>
    cases htabled : tabledImage? prices
        (.expr constructor.head args typeArgs constructor.sort) with
    | some image =>
      obtain ⟨key, hmem, -⟩ := mem_of_tabledImage? htabled
      obtain ⟨n, rfl⟩ : IsInteger image := hprices.integers (key, image) hmem
      exact ⟨n, hasImage_tabled htabled, fun hsort => absurd (of_decide_eq_true hsort)
        (hprices.not_object plain htheory hbuilds htabled)⟩
    | none =>
      obtain ⟨costs, hcosts⟩ := exists_forall₂ fun arg harg => ih arg harg (hdata.parts.1 arg harg)
      obtain ⟨cost, hcost, hobject⟩ := exists_cost_of_builds htheory hbuilds hcosts
      have hmapped : Settles (mappingsAll costModel.algebra prices args) (.ok (costs.map .int)) :=
        (settles_mappingsAll_iff hinterprets hprices.integers hdata.parts.1).mpr
          (List.forall₂_map_right_iff.mpr (hcosts.imp fun _ _ h => h.hasImage))
      refine ⟨cost, ?_, fun hsort => hobject (of_decide_eq_true hsort)⟩
      rw [HasImage, mappings_expr hinterprets hprices.integers hdata.parts.1 htabled,
        plain.constructorName_of_builds hbuilds]
      exact hmapped.bind hcost

theorem made_object (hcategorical : Categorical calculus.theory) (plain : calculus.Plain)
    (n : Int) : calculus.Made IsInteger (bound + 1) (objectOf (.int n)) where
  built := (makes_object hcategorical (.int n)).built (plain.bare "Ob") (by simpa using .datum rfl)
  data := .expr (by simpa using .datum rfl ⟨n, rfl⟩) (by simp)

theorem made_morphism (hcategorical : Categorical calculus.theory) (plain : calculus.Plain)
    (n : Int) {source target : Value} (hsource : calculus.Made IsInteger (bound + 1) source)
    (htarget : calculus.Made IsInteger (bound + 1) target) (hsort : source.hasSort "Ob" = true)
    (hsort' : target.hasSort "Ob" = true) :
    calculus.Made IsInteger (bound + 1) (morphismOf (.int n) source target) where
  built := (makes_morphism hcategorical (.int n) hsort hsort').built (plain.bare "Hom")
    (by simpa using ⟨.datum rfl, hsource.built, htarget.built⟩)
  data := .expr (by simpa using ⟨.datum rfl ⟨n, rfl⟩, hsource.data, htarget.data⟩)
    (by simpa using ⟨hsource.data, htarget.data⟩)

theorem exists_images_of_made (plain : calculus.Plain) (htheory : calculus.theory = cartesian)
    (hprices : Prices prices) {values : List Value}
    (hmade : ∀ value ∈ values, calculus.Made IsInteger bound value) :
    ∃ images, List.Forall₂ (HasImage costModel.algebra prices) values images := by
  refine exists_forall₂ fun value hmem => ?_
  obtain ⟨cost, hcost⟩ := exists_cost plain htheory hprices
    (plain.genuine_of_built (hmade value hmem).built) (hmade value hmem).data
  exact ⟨_, hcost.hasImage⟩

/-- A generator without a price costs what it wraps. -/
theorem hasImage_of_unpriced (plain : calculus.Plain) (htheory : calculus.theory = cartesian)
    (hprices : Prices prices) {n : Int} {source target : Value}
    (hmade : ∀ value ∈ [.int n, source, target], calculus.Made IsInteger bound value)
    (hopen : tabledImage? prices (morphismOf (.int n) source target) = none) :
    HasImage costModel.algebra prices (morphismOf (.int n) source target) (.int n) := by
  obtain ⟨images, himages⟩ := exists_images_of_made plain htheory hprices hmade
  have hdata (value : Value) (hmem : value ∈ [.int n, source, target]) := (hmade value hmem).data
  have hmapped := (settles_mappingsAll_iff interprets_costModel hprices.integers hdata).mpr himages
  obtain ⟨first, rest, hfirst, hrest, rfl⟩ := List.forall₂_cons_left_iff.mp himages
  cases hfirst.unique (hasImage_datum rfl)
  rw [HasImage, morphismOf, mappings_expr interprets_costModel hprices.integers hdata hopen]
  exact hmapped.bind (Model.settles_of_operation rfl rfl)

/-- Both ends of a morphism are free of charge, in the calculus as in the model. -/
theorem accessorsCommute_costs (plain : calculus.Plain) (htheory : calculus.theory = cartesian)
    (hprices : Prices prices) (bound : Nat) :
    calculus.AccessorsCommute costModel.algebra IsInteger prices bound := by
  intro name value result haccessor hmade haccess
  have hgenuine := plain.genuine_of_built hmade.built
  have hcategorical : Categorical calculus.theory := by
    rw [htheory]
    exact monoidal_cartesian.toCategorical
  have hname := (hcategorical.isAccessor_iff name).mp haccessor
  have hsort : value.hasSort "Hom" = true := by
    by_contra hsort
    rw [access_of_not_morphism hcategorical hname (by simpa using hsort)] at haccess
    cases haccess
  have horderly : Orderly calculus := orderly_of_mem plain (by simp [htheory, Standard.all])
  obtain ⟨source, target, hmorphism, hsource, htarget⟩ := horderly.sound_of_built hmade.built hsort
  obtain ⟨hdom, hcodom⟩ := access_of_isMorphism hcategorical hmorphism
  have hresult : result ∈ value.typeArgs ∧ result.hasSort "Ob" = true := by
    rw [hmorphism.typeArgs]
    rcases hname with rfl | rfl
    · cases hdom.symm.trans haccess
      exact ⟨List.mem_cons_self, hsource⟩
    · cases hcodom.symm.trans haccess
      exact ⟨List.mem_cons_of_mem _ List.mem_cons_self, htarget⟩
  obtain ⟨cost, hcost⟩ := exists_cost plain htheory hprices hgenuine hmade.data
  obtain ⟨own, hown⟩ := exists_cost plain htheory hprices (hgenuine.typeArgs result hresult.1)
    (hmade.data.typeArgs result hresult.1)
  cases hown.object hresult.2
  have hfree : name ∈ freeOfCharge := by
    rcases hname with rfl | rfl <;> decide
  exact ⟨_, _, hcost.hasImage, hown.hasImage,
    Model.settles_of_operation (operation?_of_freeOfCharge hfree) rfl⟩

end Expressions

end TermAlgebra
