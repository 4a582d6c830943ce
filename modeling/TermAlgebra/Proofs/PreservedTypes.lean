import TermAlgebra.Proofs.ExtendedTheories
import TermAlgebra.Proofs.TabledGenerators

/-!
Functors between two calculi of one theory respect types. The type arguments of an expression are no
parts of it that the functor comes to: they are computed, by accessors and term constructors, from
the types of its arguments. So what is carried along is that the functor keeps the sort and maps the
type arguments, at every depth; the same overloads are then chosen on both sides, and the
computation of a type takes related values to related ones. Only term constructors and accessors
take part in such a computation, and none of them builds a generator, which the table might send
elsewhere.
-/
namespace TermAlgebra

namespace Algebra

open Outcome Value

section Offering

variable {algebra : Algebra} {names : String → Prop} [DecidablePred names]

/-- The algebra with no calls but those of certain names. -/
def offering (algebra : Algebra) (names : String → Prop) [DecidablePred names] : Algebra :=
  { algebra with
    invoke := fun name args strict? =>
      if names name then algebra.invoke name args strict?
      else .fail (.unknownConstructor algebra.name name) }

theorem call_offering {name : String} (h : names name) (args : List Value) :
    (algebra.offering names).call name args = algebra.call name args := if_pos h

theorem call_offering_eq_ok {name : String} {args : List Value} {result : Value}
    (h : (algebra.offering names).call name args = .ok result) :
    names name ∧ algebra.call name args = .ok result := by
  by_cases hname : names name
  · rw [call_offering hname] at h
    exact ⟨hname, h⟩
  · have hfail : (algebra.offering names).call name args =
        .fail (.unknownConstructor algebra.name name) := if_neg hname
    rw [hfail] at h
    exact absurd h (fail_ne_ok _ _)

theorem Silent.offering (h : algebra.Silent) : (algebra.offering names).Silent := by
  intro name args strict?
  by_cases hname : names name
  · simp only [Algebra.offering, if_pos hname]
    exact h name args strict?
  · simp only [Algebra.offering, if_neg hname]
    exact silent_fail _

mutual

/-- A term with no other names at its heads has the same value there. -/
theorem evaluate_offering (env : Environment) (term : Term)
    (h : ∀ head ∈ term.heads, names head) :
    (algebra.offering names).evaluate env term = algebra.evaluate env term := by
  match term with
  | .var name => rfl
  | .app head args =>
    rw [Term.heads, List.forall_mem_cons] at h
    rw [evaluate, evaluate, evaluateAll_offering env args h.2]
    simp only [call_offering h.1]

theorem evaluateAll_offering (env : Environment) (terms : List Term)
    (h : ∀ head ∈ Term.headsAll terms, names head) :
    (algebra.offering names).evaluateAll env terms = algebra.evaluateAll env terms := by
  match terms with
  | [] => rfl
  | term :: rest =>
    rw [Term.headsAll, List.forall_mem_append] at h
    rw [evaluateAll, evaluateAll, evaluate_offering env term h.1,
      evaluateAll_offering env rest h.2]

end

end Offering

/-- The image has the type of the value as the functor maps it: the same sort, and type arguments
alike to the images of the value's own. -/
structure RespectsType (target : Algebra) (images : Images) (value image : Value) : Prop where
  hasSort : ∀ sort, image.hasSort sort = value.hasSort sort
  typeArgs : List.Forall₂
    (fun typeArg other => ∃ own, target.mapped images typeArg = .ok own ∧ Alike own other)
    value.typeArgs image.typeArgs

/-- The functor maps the first value to one alike to the second, and keeps its sort and the sorts of
all its type arguments. -/
inductive MapsTo (target : Algebra) (images : Images) : Value → Value → Prop
  | intro {value image other} (himage : target.mapped images value = .ok image)
      (hsort : ∀ sort, value.hasSort sort = image.hasSort sort)
      (htypes : List.Forall₂ (MapsTo target images) value.typeArgs image.typeArgs)
      (halike : Alike image other) : MapsTo target images value other

variable {target : Algebra} {images : Images}

theorem MapsTo.exists_image {value other : Value} (h : target.MapsTo images value other) :
    ∃ image, target.mapped images value = .ok image ∧ target.MapsTo images value image ∧
      Alike image other := by
  cases h with
  | intro himage hsort htypes halike =>
    exact ⟨_, himage, .intro himage hsort htypes (Alike.refl _), halike⟩

theorem exists_images {values others : List Value}
    (h : List.Forall₂ (target.MapsTo images) values others) : ∃ results,
      List.Forall₂ (fun value image => target.mapped images value = .ok image ∧
        target.MapsTo images value image) values results ∧
      List.Forall₂ Alike results others := by
  induction h with
  | nil => exact ⟨[], List.Forall₂.nil, List.Forall₂.nil⟩
  | cons hhead _ ih =>
    obtain ⟨image, himage, hmaps, halike⟩ := hhead.exists_image
    obtain ⟨results, hresults, halikes⟩ := ih
    exact ⟨image :: results, List.Forall₂.cons ⟨himage, hmaps⟩ hresults,
      List.Forall₂.cons halike halikes⟩

theorem MapsTo.trans_alike {value other other' : Value} (h : target.MapsTo images value other)
    (halike : Alike other other') : target.MapsTo images value other' := by
  cases h with
  | intro himage hsort htypes halike' => exact .intro himage hsort htypes (halike'.trans halike)

theorem mapsTo_datum {value : Value} (h : value.isExpr = false) :
    target.MapsTo images value value := by
  refine .intro (mapped_datum h) (fun _ => rfl) ?_ (Alike.refl value)
  rw [typeArgs_of_not_expr h]
  exact List.Forall₂.nil

theorem respectful_mapsTo : Respectful (target.MapsTo images) where
  hasSort := by
    intro value other h sort
    cases h with
    | intro _ hsort _ halike => rw [hsort, respectful_alike.hasSort halike]
  typeArgs := by
    intro value other h
    cases h with
    | intro _ _ htypes halike =>
      refine forall₂_trans ?_ htypes (respectful_alike.typeArgs halike)
      intro typeArg _ _ _ hmaps hother
      exact hmaps.trans_alike hother

theorem MapsTo.respectsType {value image : Value} (h : target.MapsTo images value image) :
    target.RespectsType images value image where
  hasSort sort := (respectful_mapsTo.hasSort h sort).symm
  typeArgs := by
    refine (respectful_mapsTo.typeArgs h).imp ?_
    intro typeArg other hmaps
    obtain ⟨own, hown, -, halike⟩ := hmaps.exists_image
    exact ⟨own, hown, halike⟩

end Algebra

theorem exists_forall₂ {α β : Type} {R : α → β → Prop} {as : List α}
    (h : ∀ a ∈ as, ∃ b, R a b) : ∃ bs, List.Forall₂ R as bs := by
  induction as with
  | nil => exact ⟨[], List.Forall₂.nil⟩
  | cons a rest ih =>
    obtain ⟨b, hb⟩ := h a List.mem_cons_self
    obtain ⟨bs, hbs⟩ := ih fun own hown => h own (List.mem_cons_of_mem _ hown)
    exact ⟨b :: bs, List.Forall₂.cons hb hbs⟩

namespace Calculus

open TermAlgebra.Algebra Outcome Value

variable {calculus : Calculus} {images : Images}

instance (theory : Theory) : DecidablePred theory.Known :=
  fun _ => inferInstanceAs (Decidable (_ ∨ _))

/-- A constructor with the name of a term constructor builds no generator. -/
theorem Plain.head_of_known (plain : calculus.Plain) {algebra : Algebra} {constructor : Constructor}
    {args typeArgs : List Value} (h : calculus.Builds algebra constructor args typeArgs)
    (hknown : calculus.theory.Known constructor.name) : constructor.head ≠ generatorHead := by
  rcases plain.builds_cases h with ⟨hhead, -⟩ | ⟨t, ht, -, -, hname, -⟩
  · exact hhead
  · rcases hknown with haccessor | hterms
    · rw [h.not_accessor] at haccessor
      cases haccessor
    · rw [hname] at hterms
      exact absurd (plain.accepted.consistent.termsNamed_eq_nil ht) hterms

/-- What is built from arguments that the functor maps to others can be built from these, with type
arguments that it maps to theirs. -/
theorem Plain.builds_mapsTo (plain : calculus.Plain) {self algebra : Algebra}
    (hcalls : Simulates (self.MapsTo images) (algebra.offering calculus.theory.Known) algebra)
    {constructor : Constructor} {args args' typeArgs : List Value}
    (h : calculus.Builds algebra constructor args typeArgs)
    (hargs : List.Forall₂ (self.MapsTo images) args args') :
    ∃ typeArgs', calculus.Builds algebra constructor args' typeArgs' ∧
      List.Forall₂ (self.MapsTo images) typeArgs typeArgs' := by
  have hmem := mem_constructors_of_resolve h.resolve
  obtain ⟨head, types, hexpanded, htypes⟩ := h.typeArgs
  obtain ⟨_, _, hexpanded', -, hsafe, -⟩ := plain.accepted.consistent.expandedResult hmem
  cases hexpanded.symm.trans hexpanded'
  rw [← evaluateAll_offering _ types hsafe.heads] at htypes
  obtain ⟨typeArgs', htypes', hmaps⟩ :=
    hcalls.evaluateAll (Environment.related_ofArgs hargs _) types htypes
  exact ⟨typeArgs', ⟨h.not_accessor, resolve_related respectful_mapsTo hargs h.resolve,
    h.definition?, head, types, hexpanded, htypes'⟩, hmaps⟩

/-- The functor rebuilds a node that is not in the table; the same call on arguments alike to the
images gives the same, up to likeness. -/
theorem Plain.call_mapsTo (plain : calculus.Plain) {m n : Nat} (hm : m < n)
    (hcalls : Simulates ((calculus.algebra n).MapsTo images)
      ((calculus.algebra m).offering calculus.theory.Known) (calculus.algebra m))
    {constructor : Constructor} {args args' typeArgs : List Value}
    (h : calculus.Builds (calculus.algebra m) constructor args typeArgs)
    (hopen : tabledImage? images (.expr constructor.head args typeArgs constructor.sort) = none)
    (hargs : List.Forall₂ ((calculus.algebra n).MapsTo images) args args') :
    ∃ result, (calculus.algebra (m + 1)).call constructor.name args' = .ok result ∧
      (calculus.algebra n).MapsTo images
        (.expr constructor.head args typeArgs constructor.sort) result := by
  obtain ⟨images', himages, halikes⟩ := exists_images hargs
  have hmapped := himages.imp fun _ _ h => h.1
  obtain ⟨types', hbuilds, htypes⟩ :=
    plain.builds_mapsTo hcalls h (himages.imp fun _ _ h => h.2)
  have hcall := plain.call_of_yields (.build hbuilds)
  have himage : (calculus.algebra n).mapped images
      (.expr constructor.head args typeArgs constructor.sort) =
        .ok (.expr constructor.head images' types' constructor.sort) := by
    rw [mapped_expr rfl, functor_untabled hopen, functorAll_of_mapped hmapped, ok_bind,
      plain.constructorName_of_builds h]
    exact plain.call_mono (Nat.succ_le_of_lt hm) hcall
  obtain ⟨result, hresult, halike⟩ := (plain.simulates_alike (m + 1)).call halikes hcall
  exact ⟨result, hresult, .intro himage (fun _ => rfl) htypes halike⟩

/-- Calls of accessors and term constructors on arguments that the functor maps to others. The
induction is on the bound on nesting. -/
theorem Primitive.simulates_mapsTo (primitive : calculus.Primitive) (n : Nat) (images : Images) :
    ∀ m ≤ n, Simulates ((calculus.algebra n).MapsTo images)
      ((calculus.algebra m).offering calculus.theory.Known) (calculus.algebra m) := by
  intro m
  induction m with
  | zero =>
    intro _
    refine ⟨(primitive.silent 0).offering, ?_, fun hmember => hmember⟩
    intro name args args' result _ hcall
    exact absurd (call_offering_eq_ok hcall).2 invoke_zero_ne_ok
  | succ m ih =>
    intro hm
    refine ⟨(primitive.silent (m + 1)).offering, ?_, fun hmember => hmember⟩
    intro name args args' result hargs hcall
    obtain ⟨hknown, hcall⟩ := call_offering_eq_ok hcall
    rcases primitive.yields_cases (primitive.yields_of_invoke hcall) with
      ⟨value, rfl, haccessor, hresult⟩ | ⟨constructor, typeArgs, rfl, hbuilds, rfl⟩
    · cases hargs with
      | cons hvalue hnil =>
        cases hnil
        obtain ⟨result', hresult', hmaps⟩ := access_related respectful_mapsTo hvalue hresult
        exact ⟨result', primitive.call_of_yields (.access haccessor hresult'), hmaps⟩
    · have hopen : tabledImage? images
          (.expr constructor.head args typeArgs constructor.sort) = none := by
        rw [tabledImage?, if_neg (primitive.head_of_known hbuilds hknown)]
      exact primitive.call_mapsTo hm (ih (Nat.le_of_succ_le hm)) hbuilds hopen hargs

/-- The functor maps everything that can be built, if the table respects the types of the generators
in it. The induction is on how the value was built, its type arguments included. -/
theorem Primitive.exists_mapsTo (primitive : calculus.Primitive) {n : Nat}
    (himages : ∀ generator image, (calculus.algebra n).Built generator →
      tabledImage? images generator = some image →
        (calculus.algebra n).RespectsType images generator image)
    {value : Value} (h : calculus.Genuine n value) :
    ∃ image, (calculus.algebra n).MapsTo images value image := by
  induction h with
  | datum hdatum => exact ⟨_, mapsTo_datum hdatum⟩
  | @expr m constructor args typeArgs hm hbuilds hargs htypes ihargs ihtypes =>
    cases htabled : tabledImage? images
        (.expr constructor.head args typeArgs constructor.sort) with
    | some image =>
      have hgenuine : calculus.Genuine n (.expr constructor.head args typeArgs constructor.sort) :=
        .expr hm hbuilds hargs htypes
      have hrespects := himages _ image (primitive.built_of_genuine hgenuine) htabled
      have himage : (calculus.algebra n).mapped images
          (.expr constructor.head args typeArgs constructor.sort) = .ok image := by
        rw [mapped_expr rfl, functor_tabled htabled]
      have hmaps : List.Forall₂ ((calculus.algebra n).MapsTo images) typeArgs image.typeArgs := by
        refine ((List.forall₂_and_left _ _).mpr ⟨ihtypes, hrespects.typeArgs⟩).imp ?_
        rintro typeArg other ⟨⟨other', hmaps⟩, own, hown, halike⟩
        obtain ⟨own', hown', hmaps', -⟩ := hmaps.exists_image
        rw [hown, ok_eq_ok_iff] at hown'
        subst hown'
        exact hmaps'.trans_alike halike
      exact ⟨image, .intro himage (fun sort => (hrespects.hasSort sort).symm) hmaps
        (Alike.refl image)⟩
    | none =>
      obtain ⟨images', himages'⟩ := exists_forall₂ ihargs
      have hcalls := primitive.simulates_mapsTo n images m (Nat.le_of_lt hm)
      obtain ⟨result, -, hmaps⟩ := primitive.call_mapsTo hm hcalls hbuilds htabled himages'
      exact ⟨result, hmaps⟩

/-- Two calculi of one theory build the same values. -/
theorem Plain.built_of_theory_eq {source target : Calculus} (hsource : source.Plain)
    (htarget : target.Plain) (htheory : target.theory = source.theory) {n : Nat} {value : Value}
    (h : (source.algebra n).Built value) : (target.algebra n).Built value := by
  have hincludes : source.theory.Includes target.theory := by
    rw [htheory]
    exact ⟨⟨[], (List.append_nil _).symm⟩, ⟨[], (List.append_nil _).symm⟩⟩
  have hembeds := embeds_of_includes hincludes hsource.accepted.consistent
    htarget.accepted.consistent
  induction h with
  | datum h => exact .datum h
  | call _ _ h ih =>
    have hinvoke := hembeds.invoke hsource htarget ((hsource.silent n _ _ _).eq_ok h)
    exact BuiltBy.call ih trivial (congrArg Outcome.result hinvoke)

/-- Functors respect types: where every generator in the table has an image of its own type, as the
functor maps it, every expression has a value of its own type. -/
theorem Primitive.functor_respects_types {source target : Calculus} (hsource : source.Primitive)
    (htarget : target.Plain) (htheory : target.theory = source.theory) {n : Nat}
    (himages : ∀ generator image, (source.algebra n).Built generator →
      tabledImage? images generator = some image →
        (target.algebra n).RespectsType images generator image)
    {value : Value} (hbuilt : (source.algebra n).Built value) (hexpr : value.isExpr = true) :
    ∃ image, (target.algebra n).functor images .empty value = .ok image ∧
      (target.algebra n).RespectsType images value image := by
  have hprimitive : target.Primitive := by
    refine ⟨htarget, ?_⟩
    rw [htheory]
    exact hsource.definition?
  have hgenuine := htarget.genuine_of_built (hsource.built_of_theory_eq htarget htheory hbuilt)
  obtain ⟨other, hother⟩ := hprimitive.exists_mapsTo (fun generator image hgenerator =>
    himages generator image (htarget.built_of_theory_eq hsource.toPlain htheory.symm hgenerator))
    hgenuine
  obtain ⟨image, himage, hmaps, -⟩ := hother.exists_image
  rw [mapped_expr hexpr] at himage
  exact ⟨image, himage, hmaps.respectsType⟩

section Example

open Standard

/-- An expression equal to a generator of objects is one: it has no parameters. -/
theorem hasSort_of_same_object {n : Nat} {datum value : Value}
    (hbuilt : ((calculusOf category).algebra n).Built value)
    (hsame : Same (objectOf datum) value) : value.hasSort "Ob" = true := by
  obtain ⟨args, typeArgs, sort, rfl, hargs, -⟩ := same_expr_iff.mp hsame
  generalize hvalue : Value.expr generatorHead args typeArgs sort = value at hbuilt ⊢
  cases plain_category.genuine_of_built hbuilt with
  | datum hdatum =>
    rw [← hvalue] at hdatum
    cases hdatum
  | expr _ hbuilds _ _ =>
    injection hvalue with hhead heq _ _
    subst heq
    rcases plain_category.builds_cases hbuilds with
      ⟨hcompound, -⟩ | ⟨t, ht, -, -, -, hsort, -, hlength⟩
    · exact absurd hhead.symm hcompound
    · rw [← hargs.length_eq] at hlength
      rw [hsort]
      simp only [calculusOf, category, List.mem_cons, List.not_mem_nil, or_false] at ht
      rcases ht with rfl | rfl
      · rfl
      · cases hlength

/-- A loop at an object, the object being sent to another one. -/
theorem functor_respects_types_loop :
    let target : Calculus := ⟨"Target", category, .empty⟩
    let object (name : String) := objectOf (.str name)
    let loop (name : String) := morphismOf (.str "f") (object name) (object name)
    let composite (name : String) :=
      compositeOf (loop name) (loop name) (object name) (object name)
    ∃ image, (target.algebra 2).functor [(object "A", object "X")] .empty (composite "A") =
        .ok image ∧
      (target.algebra 2).RespectsType [(object "A", object "X")] (composite "A") image ∧
      image = composite "X" := by
  intro target object loop composite
  have hprimitive := elementary_category.primitive
  have htarget : target.Plain :=
    (plain_of_create (show Calculus.create category (some "Target") .empty = .ok target by cbv)).1
  have hobject : ((calculusOf category).algebra 2).Built (object "A") :=
    built_object categorical_category rfl "A" 1
  have hloop := built_morphism categorical_category rfl hobject hobject rfl rfl "f"
  have hbuilt : ((calculusOf category).algebra 2).Built (composite "A") := by
    refine (makes_composition categorical_category (reads_algebra categorical_category 0)
      (isMorphism_expr _ _ _ _) (isMorphism_expr _ _ _ _)).built rfl ?_
    intro arg harg
    simp only [List.mem_cons, List.not_mem_nil, or_false, or_self] at harg
    rw [harg]
    exact hloop
  have himages (generator image : Value) (h : ((calculusOf category).algebra 2).Built generator)
      (htabled : tabledImage? [(object "A", object "X")] generator = some image) :
      (target.algebra 2).RespectsType [(object "A", object "X")] generator image := by
    obtain ⟨key, hmem, hsame⟩ := mem_of_tabledImage? htabled
    rw [List.mem_singleton] at hmem
    cases hmem
    have hsort := hasSort_of_same_object h hsame
    obtain ⟨args, typeArgs, sort, rfl, -, htypes⟩ := same_expr_iff.mp hsame
    cases htypes
    cases of_decide_eq_true hsort
    exact ⟨fun _ => rfl, List.Forall₂.nil⟩
  obtain ⟨image, himage, hrespects⟩ :=
    hprimitive.functor_respects_types htarget rfl himages hbuilt rfl
  have hresult : ((target.algebra 2).functor [(object "A", object "X")] .empty
      (composite "A")).result = .ok (composite "X") := by cbv
  rw [himage] at hresult
  exact ⟨image, himage, hrespects, Except.ok.inj hresult⟩

end Example

end Calculus
end TermAlgebra
