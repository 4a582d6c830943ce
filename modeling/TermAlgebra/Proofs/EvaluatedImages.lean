import TermAlgebra.Proofs.CostedMorphisms

/-!
A calculus is free in that a functor takes the value of a term to the value of the term in the
target. It is so whenever the target has a value for the term. Where it has none, the functor still
may have one for what is left of the term in the calculus, when a default implementation drops an
argument that has no image or when the target does not take the images; otherwise the functor fails
as the target does.
-/
namespace TermAlgebra

open Outcome TermAlgebra.Algebra

namespace Calculus

section Itself

variable {calculus : Calculus} {target : Nat → Algebra} {P : Value → Prop}
  {admits : TermConstructor → List Value → Prop} {images : Images}

theorem Plain.built_mono (plain : calculus.Plain) {m n : Nat} (hle : m ≤ n) {value : Value}
    (h : (calculus.algebra m).Built value) : (calculus.algebra n).Built value := by
  induction h with
  | datum h => exact .datum h
  | call _ _ hcall ih =>
    have hok := (plain.silent m _ _ _).eq_ok hcall
    cases m with
    | zero => exact absurd hok invoke_zero_ne_ok
    | succ m => exact .call ih (plain.call_mono hle (plain.call_of_yields
        (plain.yields_of_invoke hok)))

theorem Plain.made_of_built (plain : calculus.Plain) {n : Nat} {value : Value}
    (h : (calculus.algebra n).Built value) : calculus.Made (fun _ => True) n value where
  built := h
  data := plain.invariant_built (fun _ hdatum => .datum hdatum trivial)
    (fun _ hvalue => hvalue.typeArgs) (fun _ _ hargs htypes => .expr hargs htypes) h

theorem Plain.made_mono (plain : calculus.Plain) {m n : Nat} (hle : m ≤ n) {value : Value}
    (h : calculus.Made P m value) : calculus.Made P n value :=
  ⟨plain.built_mono hle h.built, h.data⟩

/-- A target that takes the images of all arguments of default implementations takes those that
occur on the way of an evaluation: the arguments are values of the calculus, like those in the
environment. -/
theorem Plain.covered_of_taken (plain : calculus.Plain)
    (htaken : ∀ {bound c values}, (∀ value ∈ values, calculus.Made P bound value) →
      Constructor.accepts ⟨c, .compound⟩ values = true →
      ∃ results, List.Forall₂ (HasImage target images) values results ∧ admits c results)
    {viaMembers : Bool} {env : Environment} {term : Term} (henv : ∃ bound,
      ∀ name value, env name = some value → calculus.Made P bound value) :
    calculus.Covered target admits images viaMembers env term := by
  intro c values happlies
  -- The values are made within a bound that serves the environment and the arguments.
  have hmade {n : Nat} {viaMembers : Bool} {env : Environment} {terms : List Term}
      {values : List Value}
      (henv : ∃ bound, ∀ name value, env name = some value → calculus.Made P bound value)
      (h : (calculus.algebra n).evaluateAllVia viaMembers env terms = .ok values) :
      ∃ bound, ∀ value ∈ values, calculus.Made P bound value := by
    obtain ⟨bound, henv⟩ := henv
    exact ⟨max n bound, plain.made_of_evaluateAllVia (Nat.le_max_left n bound)
      (fun name value hvalue => plain.made_mono (Nat.le_max_right n bound)
        (henv name value hvalue)) h⟩
  induction happlies with
  | here hargs hresolve _ =>
    obtain ⟨bound, hvalues⟩ := hmade henv hargs
    exact htaken hvalues (resolve_eq_ok hresolve).2
  | argument _ _ ih => exact ih henv
  | body hargs _ _ _ ih =>
    obtain ⟨bound, hvalues⟩ := hmade henv hargs
    exact ih ⟨bound, Environment.forall_ofArgs hvalues _⟩

/-- The functor into the calculus itself leaves built values as they are. -/
theorem Plain.hasImage_self (plain : calculus.Plain) {n : Nat} {value : Value}
    (h : (calculus.algebra n).Built value) : HasImage calculus.algebra [] value value := by
  have hinterprets := Interprets.calculus calculus plain rfl
  have himages : ∀ entry ∈ ([] : Images), True := fun _ _ => trivial
  have hgenuine := plain.genuine_of_built h
  clear h
  induction hgenuine with
  | datum hdatum => exact hasImage_datum hdatum
  | @expr m constructor args typeArgs hm hbuilds hargs htypes ih _ =>
    have hopen : tabledImage? [] (.expr constructor.head args typeArgs constructor.sort) =
        none := by simp [tabledImage?, generatorImage?, Value.lookup]
    have hdata (arg : Value) (harg : arg ∈ args) : arg.AllData fun _ => True :=
      (plain.made_of_built (plain.built_of_genuine (hargs arg harg))).data
    have hcall := plain.call_of_yields (.build hbuilds)
    rw [HasImage, mappings_expr hinterprets himages hdata hopen,
      plain.constructorName_of_builds hbuilds]
    have hmapped : Settles (mappingsAll calculus.algebra [] args) (.ok args) :=
      (settles_mappingsAll_iff hinterprets himages hdata).mpr (List.forall₂_same.mpr ih)
    exact hmapped.bind ((hinterprets.stable_call _ fun _ _ => trivial).settles
      (congrArg Outcome.result hcall))

theorem Plain.accessorsCommute_self (plain : calculus.Plain) (bound : Nat) :
    calculus.AccessorsCommute calculus.algebra (fun _ => True) [] bound := by
  intro name value result haccessor hmade haccess
  have hinterprets := Interprets.calculus calculus plain rfl
  have hcall : (calculus.algebra (bound + 1)).call name [value] = .ok result :=
    call_of_access haccessor haccess
  have hbuilt : (calculus.algebra (bound + 1)).Built value :=
    plain.built_mono (Nat.le_succ bound) hmade.built
  exact ⟨value, result, plain.hasImage_self hmade.built,
    plain.hasImage_self (Built.call (by simpa using hbuilt) hcall),
    (hinterprets.stable_call name fun _ _ => trivial).settles (congrArg Outcome.result hcall)⟩

/-- What a default implementation is applied to in the calculus it can be applied to again. -/
theorem Plain.covered_self (plain : calculus.Plain) {viaMembers : Bool} {env : Environment}
    {term : Term} (henv : ∃ bound, ∀ name value, env name = some value →
      calculus.Made (fun _ => True) bound value) :
    calculus.Covered calculus.algebra
      (fun c args => Constructor.accepts ⟨c, .compound⟩ args = true) [] viaMembers env term :=
  plain.covered_of_taken (fun hmade haccepts => ⟨_, List.forall₂_same.mpr fun value hmem =>
    plain.hasImage_self (hmade value hmem).built, haccepts⟩) henv

end Itself

section Evaluation

variable {calculus : Calculus} {target : Nat → Algebra} {P : Value → Prop}
  {admits : TermConstructor → List Value → Prop} {images : Images} {bound : Nat}

/-- If the target comes to a value for the term, it is the image of the calculus's value. If the
target takes the images of all arguments to which default implementations are applied, the two come
to the same, be it a value or a failure. -/
theorem Plain.image_of_evaluation (plain : calculus.Plain)
    (hdefines : calculus.theory.DefinesSingly)
    (hinterprets : Interprets calculus.theory target P admits)
    (himages : ∀ entry ∈ images, P entry.2)
    (hcommute : calculus.AccessorsCommute target P images bound) {env env' : Environment}
    (henv : Environment.Related (calculus.Carries target P images bound) env env') {term : Term}
    (hknown : ∀ head ∈ term.heads, calculus.theory.Known head) {value : Value}
    (hvalue : ((calculus.algebra bound).evaluate env term).result = .ok value) :
    (∀ image, Settles (fun n => ((target n).evaluate env' term).result) (.ok image) →
      Settles (mappings target images value) (.ok image)) ∧
    (calculus.Covered target admits images false env term →
      ∃ result, Settles (mappings target images value) result ∧
        Settles (fun n => ((target n).evaluate env' term).result) result) := by
  have hvalue' : (calculus.algebra bound).evaluateVia false env term = .ok value :=
    ((plain.silent bound).evaluate env term).eq_ok hvalue
  have hfollows (hcomparable : calculus.Comparable target admits images false env env' term) :=
    plain.follows hdefines hinterprets himages hcommute (Nat.le_refl bound) term henv hknown
      hcomparable hvalue'
  constructor
  · intro image himage
    obtain ⟨result, hmapped, hresult⟩ := hfollows (.inl ⟨image, himage⟩)
    cases himage.unique hresult
    exact hmapped
  · intro hcovered
    exact hfollows (.inr hcovered)

end Evaluation

section Example

open Standard

theorem definesSingly_cartesian : cartesian.DefinesSingly := by
  constructor
  · intro c hc definition hdefinition
    obtain ⟨rfl, rfl⟩ := defined_cartesian hc hdefinition
    decide
  · intro c hc hdefinition
    obtain ⟨definition, hdefinition⟩ := Option.isSome_iff_exists.mp hdefinition
    obtain ⟨rfl, -⟩ := defined_cartesian hc hdefinition
    rfl

/-- The members that the default implementation of a pair names are there, in the calculus and in
the model of costs. -/
theorem member_of_pairing {head : String} (h : head ∈ pairing.body.heads) (n : Nat) :
    ((calculusOf cartesian).algebra n).member head = .ok () ∧
      (costModel.algebra n).member head = .ok () := by
  have hheads : head = "compose" ∨ head = "mcopy" ∨ head = "dom" ∨ head = "otimes" := by
    simpa [pairing, tensor, Term.heads, Term.headsAll] using h
  have hvisible : head.startsWith "_" = false := by
    rcases hheads with rfl | rfl | rfl | rfl <;> simp
  have hoperation : (costModel.operation? head).isSome = true := by
    rcases hheads with rfl | rfl | rfl | rfl <;> rfl
  rw [member_algebra, Model.member_algebra]
  constructor
  · exact member_of_known hvisible (by rcases hheads with rfl | rfl | rfl | rfl <;> decide)
  · rw [Model.member, hvisible, hoperation]
    rfl

/-- The pair of two morphisms, whose default implementation asks for the domain of the first. The
functor into the calculus itself leaves it as it is. Where a table prices the first morphism at five
and the second costs three, the pair costs eight. -/
theorem image_of_evaluated_pair :
    let source := (calculusOf cartesian).algebra
    let object (n : Int) := objectOf (.int n)
    let f := morphismOf (.int 2) (object 0) (object 1)
    let g := morphismOf (.int 3) (object 0) (object 2)
    let product := tensorOfObjects (object 1) (object 2)
    let env := Environment.ofArgs ["f", "g"] [f, g]
    let term := Term.app "pair" [.var "f", .var "g"]
    let value := compositeOf (copyOf (object 0))
      (tensorOfMorphisms f g (tensorOfObjects (object 0) (object 0)) product) (object 0) product
    let prices : Images := [(f, .int 5)]
    let costs := Environment.ofArgs ["f", "g"] [.int 5, .int 3]
    ((source 3).evaluate env term).result = .ok value ∧
      (Settles (mappings source [] value) (.ok value) ∧
        Settles (fun n => ((source n).evaluate env term).result) (.ok value)) ∧
      Settles (mappings costModel.algebra prices value) (.ok (.int 8)) ∧
      Settles (fun n => ((costModel.algebra n).evaluate costs term).result) (.ok (.int 8)) := by
  intro source object f g product env term value prices costs
  have hcall : ((source 3).call "pair" [f, g]).result = .ok value := by
    change ((source 2).evaluateVia true env pairing.body).result = .ok value
    rw [evaluateVia_of_members _ fun head hhead => (member_of_pairing hhead 2).1]
    cbv
  have hvalue : ((source 3).evaluate env term).result = .ok value := hcall
  have hobject (n : Int) : (calculusOf cartesian).Made IsInteger 3 (object n) :=
    made_object monoidal_cartesian.toCategorical plain_cartesian n
  have hmorphism (n m k : Int) :
      (calculusOf cartesian).Made IsInteger 3 (morphismOf (.int n) (object m) (object k)) :=
    made_morphism monoidal_cartesian.toCategorical plain_cartesian n (hobject m) (hobject k) rfl rfl
  have hargs : ∀ arg ∈ [f, g], (calculusOf cartesian).Made IsInteger 3 arg := by
    simpa using ⟨hmorphism 2 0 1, hmorphism 3 0 2⟩
  have hbuilt (arg : Value) (harg : arg ∈ [f, g]) : (source 3).Built arg := (hargs arg harg).built
  have hknown : ∀ head ∈ term.heads, cartesian.Known head := by decide
  refine ⟨hvalue, ?_, ?_⟩
  · have hmade (arg : Value) (harg : arg ∈ [f, g]) :
        (calculusOf cartesian).Made (fun _ => True) 3 arg :=
      plain_cartesian.made_of_built (hbuilt arg harg)
    have hcarries : List.Forall₂
        ((calculusOf cartesian).Carries source (fun _ => True) [] 3) [f, g] [f, g] :=
      List.forall₂_same.mpr fun arg harg =>
        ⟨hmade arg harg, plain_cartesian.hasImage_self (hbuilt arg harg)⟩
    obtain ⟨result, hmapped, hresult⟩ := (plain_cartesian.image_of_evaluation
      definesSingly_cartesian (.calculus (calculusOf cartesian) plain_cartesian rfl)
      (fun _ _ => trivial) (plain_cartesian.accessorsCommute_self 3)
      (Environment.related_ofArgs hcarries ["f", "g"]) hknown hvalue).2
      (plain_cartesian.covered_self ⟨3, Environment.forall_ofArgs hmade _⟩)
    have hself : Settles (mappings source [] value) (.ok value) :=
      plain_cartesian.hasImage_self (BuiltBy.call hbuilt trivial hcall)
    cases hmapped.unique hself
    exact ⟨hmapped, hresult⟩
  · have hprices : Prices prices :=
      ⟨by simpa [prices] using ⟨_, _, _, rfl⟩, by simpa [prices] using ⟨5, rfl⟩⟩
    have hg : HasImage costModel.algebra prices g (.int 3) :=
      hasImage_of_unpriced plain_cartesian rfl hprices
        (by simpa using ⟨⟨.datum rfl, .datum rfl ⟨3, rfl⟩⟩, hobject 0, hobject 2⟩) (by cbv)
    have hcarries : List.Forall₂
        ((calculusOf cartesian).Carries costModel.algebra IsInteger prices 3) [f, g]
        [.int 5, .int 3] :=
      .cons ⟨hargs f (by simp), hasImage_tabled (by cbv)⟩
        (.cons ⟨hargs g (by simp), hg⟩ .nil)
    obtain ⟨result, hmapped, hresult⟩ := (plain_cartesian.image_of_evaluation
      definesSingly_cartesian interprets_costModel hprices.integers
      (accessorsCommute_costs plain_cartesian rfl hprices 3)
      (Environment.related_ofArgs hcarries ["f", "g"]) hknown hvalue).2
      (plain_cartesian.covered_of_taken (fun hmade _ =>
        (exists_images_of_made plain_cartesian rfl hprices hmade).imp fun _ h => ⟨h, trivial⟩)
        ⟨3, Environment.forall_ofArgs hargs _⟩)
    obtain rfl : result = .ok (.int 8) := hresult.eq_of_add 3 fun n => by
      change ((costModel.algebra (n + 2)).evaluateVia true costs pairing.body).result = _
      rw [evaluateVia_of_members _ fun head hhead => (member_of_pairing hhead (n + 2)).2]
      cbv
    exact ⟨hmapped, hresult⟩

/-- Objects and points, with default implementations that drop an argument, use one twice, and
build a generator. -/
def shortcuts : Theory where
  name := "Shortcuts"
  types := [{ name := "Ob", params := [], context := .empty },
    { name := "Pt", params := [], context := .empty }]
  terms := [constructor "point" [] [] ob none,
    constructor "both" [] (objects ["x", "y"]) ob none,
    constructor "add" [] [("x", .app "Any" []), ("y", .app "Any" [])] ob none,
    { constructor "first" [] (objects ["x", "y"]) ob none with
      definition? := some { body := .var "x" } },
    { constructor "twin" [] (objects ["x"]) ob none with
      definition? := some { body := .app "both" [.var "x", .var "x"] } },
    { constructor "lift" [] [("x", .app "Any" [])] ob none with
      definition? := some { body := .app "Ob" [.var "x"] } }]

/-- A model of the theory without points. -/
def pointless : Model where
  name := "Pointless"
  theory := shortcuts
  types := .ofList [("Ob", Operation.tagged "Ob")]
  operations := .ofList [("both", Operation.tagged "both"), ("add", Operation.sum)]

/-- The functor has a value where the target cannot evaluate an argument that is dropped, or does
not take the images of the arguments. The two sides have different values where a default
implementation builds a generator of the table, and where a sum without a value is made twice
instead of once. -/
theorem image_without_evaluation :
    let source := calculusOf shortcuts
    let object (name : String) := objectOf (.str name)
    let point := Value.expr generatorHead [.str "A"] [] "Pt"
    let tagged := Value.tuple [.str "Ob", .str "A"]
    let drop := Term.app "first" [.var "v", .app "point" []]
    let keep := Term.app "first" [.var "v", .var "v"]
    let lift := Term.app "lift" [.var "x"]
    let twin := Term.app "twin" [.app "add" [.var "x", .var "y"]]
    let infinities := [.float (.infinite false), .float (.infinite true)]
    let sum := Value.expr "add" infinities [] "Ob"
    let doubled := Value.expr "both" [sum, sum] [] "Ob"
    let undefined (stamp stamp' : Nat) :=
      Value.tuple [.str "both", .float (.nan stamp), .float (.nan stamp')]
    source.Plain ∧ (∀ name, shortcuts.isAccessor name = false) ∧
      (∀ c ∈ shortcuts.terms, c.definition?.isSome →
        shortcuts.termsNamed c.name = [c] ∧ pointless.operation? c.name = none) ∧
      ∀ n, let S := source.algebra (n + 3)
        let T := pointless.algebra (n + 3)
        ((S.evaluate (.ofArgs ["v"] [object "A"]) drop).result = .ok (object "A") ∧
          (T.functor [] .empty (object "A")).result = .ok tagged ∧
          (T.evaluate (.ofArgs ["v"] [tagged]) drop).result =
            .error (.unknownConstructor "Pointless" "point")) ∧
        ((S.evaluate (.ofArgs ["v"] [object "A"]) keep).result = .ok (object "A") ∧
          (S.functor [(object "A", point)] .empty (object "A")).result = .ok point ∧
          (S.evaluate (.ofArgs ["v"] [point]) keep).result =
            .error (.noMethod "first" ["Pt", "Pt"] "Syntax(Shortcuts)")) ∧
        ((S.evaluate (.ofArgs ["x"] [.str "A"]) lift).result = .ok (object "A") ∧
          (S.functor [(object "A", object "B")] .empty (object "A")).result = .ok (object "B") ∧
          Value.equal (object "A") (object "B") = false) ∧
        ((S.evaluate (.ofArgs ["x", "y"] infinities) twin).result = .ok doubled ∧
          (T.functor [] .empty doubled).result = .ok (undefined 1 2) ∧
          (T.evaluate (.ofArgs ["x", "y"] infinities) twin).result = .ok (undefined 1 1) ∧
          Value.equal (undefined 1 2) (undefined 1 1) = false) := by
  intro source object point tagged drop keep lift twin infinities sum doubled undefined
  have hplain : source.Plain := (plain_of_create
    (show Calculus.create shortcuts none .empty = .ok source by cbv)).1
  have hsingle : ∀ c ∈ shortcuts.terms, c.definition?.isSome →
      shortcuts.termsNamed c.name = [c] ∧ pointless.operation? c.name = none := by
    intro c hc hdefinition
    simp only [shortcuts, List.mem_cons, List.not_mem_nil, or_false] at hc
    rcases hc with rfl | rfl | rfl | rfl | rfl | rfl <;>
      first | exact ⟨rfl, rfl⟩ | cases hdefinition
  refine ⟨hplain, fun name => rfl, hsingle, fun n => ⟨⟨?_, ?_, ?_⟩, ⟨?_, ?_, ?_⟩, ⟨?_, ?_, ?_⟩,
    ?_, ?_, ?_, ?_⟩⟩
  all_goals cbv

end Example

end Calculus
end TermAlgebra
