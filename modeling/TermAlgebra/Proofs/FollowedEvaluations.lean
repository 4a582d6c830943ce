import TermAlgebra.Proofs.DefinedInterpretations
import TermAlgebra.Proofs.PreservedTypes

/-!
How a functor follows the evaluation of a term in its source calculus. The calculus applies default
implementations and reads type arguments as it goes, and the functor only sees the expression that
is left. The two meet at the calls that build: there the functor makes the target's call on the
images of the arguments, which is what the target's own evaluation does. The difficulty is at the
default implementations, for these may drop an argument. The functor never sees it, while the target
evaluates it in vain and may fail.
-/
namespace TermAlgebra

open Outcome TermAlgebra.Algebra

section Results

variable (target : Nat → Algebra)

/-- What the evaluation of a term comes to at each depth. -/
def evaluations (viaMembers : Bool) (env : Environment) (term : Term) (n : Nat) :
    Except Failure Value :=
  ((target n).evaluateVia viaMembers env term).result

def evaluationsAll (viaMembers : Bool) (env : Environment) (terms : List Term) (n : Nat) :
    Except Failure (List Value) :=
  ((target n).evaluateAllVia viaMembers env terms).result

def calls (name : String) (args : List Value) (n : Nat) : Except Failure Value :=
  ((target n).call name args).result

/-- What the functor of a table makes of a value at each depth. -/
def mappings (images : Images) (value : Value) (n : Nat) : Except Failure Value :=
  ((target n).mapped images value).result

def mappingsAll (images : Images) (values : List Value) (n : Nat) : Except Failure (List Value) :=
  ((target n).functorAll images .empty values).result

def HasImage (images : Images) (value image : Value) : Prop :=
  Settles (mappings target images value) (.ok image)

variable {target} {images : Images}

theorem settles_mappingsAll_nil : Settles (mappingsAll target images []) (.ok []) := settles_const _

theorem hasImage_datum {value : Value} (h : value.isExpr = false) :
    HasImage target images value value :=
  settles_of_forall fun _ => congrArg Outcome.result (mapped_datum h)

theorem hasImage_tabled {head sort : String} {args typeArgs : List Value} {image : Value}
    (h : tabledImage? images (.expr head args typeArgs sort) = some image) :
    HasImage target images (.expr head args typeArgs sort) image := by
  refine settles_of_forall fun n => ?_
  rw [mappings, mapped_expr rfl, functor_tabled h]
  rfl

/-- A model's own operation settles the calls of its name. -/
theorem Model.settles_of_operation {model : Model} {name : String} {operation : Operation}
    {args : List Value} {result : Value} (hname : model.operation? name = some operation)
    (hresult : operation args = .ok result) :
    Settles (calls model.algebra name args) (.ok result) := by
  refine (settles_succ_iff rfl).mp (settles_of_forall fun n => ?_)
  change (model.invokeWith _ name args none).result = .ok result
  rw [Model.invokeWith, hname]
  exact congrArg Outcome.result hresult

section Interpretation

variable {theory : Theory} {P : Value → Prop} {admits : TermConstructor → List Value → Prop}
  (hinterprets : Interprets theory target P admits) {viaMembers : Bool} {env : Environment}

include hinterprets

section Terms

variable (henv : ∀ name value, env name = some value → P value)

include henv

theorem evaluations_app {head : String} (hfound : ∀ n, (target n).found viaMembers head = .ok ())
    (args : List Term) : evaluations target viaMembers env (.app head args) = fun n =>
      (evaluationsAll target viaMembers env args n).bind fun values =>
        calls target head values n :=
  funext fun n => (hinterprets.approximates n).evaluateVia_result henv (hfound n) args

theorem evaluationsAll_cons (term : Term) (rest : List Term) :
    evaluationsAll target viaMembers env (term :: rest) = fun n =>
      (evaluations target viaMembers env term n).bind fun value =>
        (evaluationsAll target viaMembers env rest n).bind fun values => .ok (value :: values) :=
  funext fun n => (hinterprets.approximates n).evaluateAllVia_result henv term rest

/-- What the target makes of terms under values with the property has the property. -/
theorem kept_of_evaluationsAll {terms : List Term} {values : List Value}
    (h : Settles (evaluationsAll target viaMembers env terms) (.ok values)) :
    ∀ value ∈ values, P value := by
  obtain ⟨k, hk⟩ := h.eventually
  exact ((hinterprets.approximates k).evaluateAllVia henv terms).keeps.value values
    (hk k (Nat.le_refl k))

end Terms

section Mappings

variable (himages : ∀ entry ∈ images, P entry.2)

include himages

theorem mappings_expr {head sort : String} {args typeArgs : List Value}
    (hdata : ∀ arg ∈ args, arg.AllData P)
    (hopen : tabledImage? images (.expr head args typeArgs sort) = none) :
    mappings target images (.expr head args typeArgs sort) = fun n =>
      (mappingsAll target images args n).bind fun values =>
        calls target (constructorName head sort) values n := by
  funext n
  rw [mappings, mapped_expr rfl]
  exact (hinterprets.approximates n).functor_result himages hdata hopen

theorem mappingsAll_cons {value : Value} {rest : List Value}
    (hdata : ∀ own ∈ value :: rest, own.AllData P) :
    mappingsAll target images (value :: rest) = fun n =>
      (mappings target images value n).bind fun image =>
        (mappingsAll target images rest n).bind fun others => .ok (image :: others) :=
  funext fun n => (hinterprets.approximates n).functorAll_result himages hdata

theorem HasImage.kept {value image : Value} (h : HasImage target images value image)
    (hdata : value.AllData P) : P image := by
  obtain ⟨k, hk⟩ := h.eventually
  exact ((hinterprets.approximates k).mapped himages hdata).keeps.value image (hk k (Nat.le_refl k))

/-- The arguments are mapped to values exactly when each of them has its image. -/
theorem settles_mappingsAll_iff {values results : List Value}
    (hdata : ∀ value ∈ values, value.AllData P) :
    Settles (mappingsAll target images values) (.ok results) ↔
      List.Forall₂ (HasImage target images) values results := by
  induction values generalizing results with
  | nil =>
    constructor
    · intro h
      cases h.unique settles_mappingsAll_nil
      exact .nil
    · rintro ⟨⟩
      exact settles_mappingsAll_nil
  | cons value rest ih =>
    rw [mappingsAll_cons hinterprets himages hdata]
    rw [List.forall_mem_cons] at hdata
    constructor
    · intro h
      obtain ⟨image, others, rfl, himage, hothers⟩ := Settles.exists_of_cons
        (hinterprets.stable_mapped himages hdata.1)
        (hinterprets.stable_functorAll himages hdata.2) h
      exact .cons himage ((ih hdata.2).mp hothers)
    · rintro (_ | ⟨hvalue, hrest⟩)
      exact hvalue.bind (((ih hdata.2).mpr hrest).bind (settles_const _))

end Mappings

end Interpretation

end Results

namespace Calculus

variable (calculus : Calculus)

/-- On the way of a term's evaluation a default implementation is applied to the values. -/
inductive Applies : Bool → Environment → Term → TermConstructor → List Value → Prop
  | here {n viaMembers env head args c definition values}
      (hargs : (calculus.algebra n).evaluateAllVia viaMembers env args = .ok values)
      (hresolve : calculus.resolve head values = .ok ⟨c, .compound⟩)
      (hdefinition : c.definition? = some definition) :
      Applies viaMembers env (.app head args) c values
  | argument {viaMembers env head args arg c values} (harg : arg ∈ args)
      (h : Applies viaMembers env arg c values) : Applies viaMembers env (.app head args) c values
  | body {n viaMembers env head args c definition values c' values'}
      (hargs : (calculus.algebra n).evaluateAllVia viaMembers env args = .ok values)
      (hresolve : calculus.resolve head values = .ok ⟨c, .compound⟩)
      (hdefinition : c.definition? = some definition)
      (h : Applies definition.viaMembers (.ofArgs c.params values) definition.body c' values') :
      Applies viaMembers env (.app head args) c' values'

variable (target : Nat → Algebra) (P : Value → Prop)
  (admits : TermConstructor → List Value → Prop) (images : Images) (bound : Nat)

/-- A value of the calculus, made of data with the property. -/
structure Made (value : Value) : Prop where
  built : (calculus.algebra bound).Built value
  data : value.AllData P

/-- A value of the calculus and its image in the target. -/
structure Carries (value image : Value) : Prop where
  made : calculus.Made P bound value
  hasImage : HasImage target images value image

/-- Reading a parameter of an expression's type and taking images commute. -/
def AccessorsCommute : Prop :=
  ∀ name value result, calculus.theory.isAccessor name = true → calculus.Made P bound value →
    calculus.access name value = .ok result →
    ∃ image image', HasImage target images value image ∧ HasImage target images result image' ∧
      Settles (calls target name [image]) (.ok image')

/-- Where a default implementation is applied the arguments have images, and the target takes
them. -/
def Covered (viaMembers : Bool) (env : Environment) (term : Term) : Prop :=
  ∀ c values, calculus.Applies viaMembers env term c values →
    ∃ results, List.Forall₂ (HasImage target images) values results ∧ admits c results

/-- The target evaluates the term to a value, or it takes the images of all arguments to which
default implementations are applied. -/
def Comparable (viaMembers : Bool) (env env' : Environment) (term : Term) : Prop :=
  (∃ result, Settles (evaluations target viaMembers env' term) (.ok result)) ∨
    calculus.Covered target admits images viaMembers env term

def ComparableAll (viaMembers : Bool) (env env' : Environment) (terms : List Term) : Prop :=
  (∃ results, Settles (evaluationsAll target viaMembers env' terms) (.ok results)) ∨
    ∀ term ∈ terms, calculus.Covered target admits images viaMembers env term

/-- The image of what the term comes to in the calculus, within the bound on nesting, is what it
comes to in the target. -/
def FollowsTerm (n : Nat) (term : Term) : Prop :=
  ∀ ⦃viaMembers env env' value⦄,
    Environment.Related (calculus.Carries target P images bound) env env' →
    (∀ head ∈ term.heads, calculus.theory.Known head) →
    calculus.Comparable target admits images viaMembers env env' term →
    (calculus.algebra n).evaluateVia viaMembers env term = .ok value →
    ∃ result, Settles (mappings target images value) result ∧
      Settles (evaluations target viaMembers env' term) result

def FollowsTerms (n : Nat) (terms : List Term) : Prop :=
  ∀ ⦃viaMembers env env' values⦄,
    Environment.Related (calculus.Carries target P images bound) env env' →
    (∀ head ∈ Term.headsAll terms, calculus.theory.Known head) →
    calculus.ComparableAll target admits images viaMembers env env' terms →
    (calculus.algebra n).evaluateAllVia viaMembers env terms = .ok values →
    ∃ results, Settles (mappingsAll target images values) results ∧
      Settles (evaluationsAll target viaMembers env' terms) results

variable {calculus target P admits images bound}

/-- Values computed from such values are such values. -/
theorem Plain.simulates_made (plain : calculus.Plain) {n : Nat} (hn : n ≤ bound) :
    Simulates (fun value value' => value = value' ∧ calculus.Made P bound value)
      (calculus.algebra n) (calculus.algebra n) where
  silent := plain.silent n
  call hargs hcall := by
    obtain ⟨rfl, hmade⟩ := forall₂_eq_and_iff.mp hargs
    exact ⟨_, hcall, rfl, .call (fun arg harg => (hmade arg harg).built) (plain.call_mono hn hcall),
      plain.allData_call (fun arg harg => (hmade arg harg).data) hcall⟩
  member h := h

theorem Plain.made_of_evaluateAllVia (plain : calculus.Plain) {n : Nat} (hn : n ≤ bound)
    {viaMembers : Bool} {env : Environment}
    (henv : ∀ name value, env name = some value → calculus.Made P bound value)
    {terms : List Term} {values : List Value}
    (h : (calculus.algebra n).evaluateAllVia viaMembers env terms = .ok values) :
    ∀ value ∈ values, calculus.Made P bound value := by
  have henv' : Environment.Related
      (fun value value' => value = value' ∧ calculus.Made P bound value) env env := by
    intro name
    cases hname : env name with
    | none => exact .none
    | some value => exact .some ⟨rfl, henv name value hname⟩
  have hsim : Simulates (fun value value' => value = value' ∧ calculus.Made P bound value)
      (calculus.algebra n) (calculus.algebra n) := plain.simulates_made hn
  obtain ⟨_, -, hrelated⟩ := hsim.evaluateAllVia henv' terms h
  exact (forall₂_eq_and_iff.mp hrelated).2

theorem follows_var (n : Nat) (name : String) :
    calculus.FollowsTerm target P admits images bound n (.var name) := by
  intro viaMembers env env' value henv _ _ hvalue
  have hname := henv name
  rw [evaluateVia_var, variableValue] at hvalue
  cases hfound : env name with
  | none => simp [hfound] at hvalue
  | some own =>
    rw [hfound] at hvalue hname
    cases (ok_eq_ok_iff _ _).mp hvalue
    generalize hfound' : env' name = found' at hname
    cases hname with
    | @some _ image hcarries =>
      refine ⟨.ok image, hcarries.hasImage, settles_of_forall fun m => ?_⟩
      rw [evaluations, evaluateVia_var, variableValue, hfound']
      rfl

theorem follows_nil (n : Nat) : calculus.FollowsTerms target P admits images bound n [] := by
  intro viaMembers env env' values _ _ _ hvalues
  rw [evaluateAllVia_nil] at hvalues
  cases (ok_eq_ok_iff _ _).mp hvalues
  refine ⟨.ok [], settles_mappingsAll_nil, settles_of_forall fun m => ?_⟩
  rw [evaluationsAll, evaluateAllVia_nil]
  rfl

section Environments

variable {env env' : Environment}
  (henv : Environment.Related (calculus.Carries target P images bound) env env')

include henv

theorem made_of_related (name : String) (value : Value) (hvalue : env name = some value) :
    calculus.Made P bound value := by
  have hname := henv name
  rw [hvalue] at hname
  generalize env' name = found at hname
  cases hname with
  | some hcarries => exact hcarries.made

theorem kept_of_related (hinterprets : Interprets calculus.theory target P admits)
    (himages : ∀ entry ∈ images, P entry.2) (name : String) (image : Value)
    (himage : env' name = some image) : P image := by
  have hname := henv name
  rw [himage] at hname
  generalize env name = found at hname
  cases hname with
  | some hcarries => exact hcarries.hasImage.kept hinterprets himages hcarries.made.data

end Environments

section Steps

variable (hinterprets : Interprets calculus.theory target P admits)
  {viaMembers : Bool} {env env' : Environment}

include hinterprets

section Comparisons

variable (henv : ∀ name value, env' name = some value → P value)

include henv

theorem Comparable.args {head : String} {args : List Term}
    (hfound : ∀ n, (target n).found viaMembers head = .ok ())
    (h : calculus.Comparable target admits images viaMembers env env' (.app head args)) :
    calculus.ComparableAll target admits images viaMembers env env' args := by
  rcases h with ⟨result, hresult⟩ | hcovered
  · rw [evaluations_app hinterprets henv hfound] at hresult
    obtain ⟨values, hvalues, -⟩ := Settles.exists_of_bind
      (hinterprets.stable_evaluateAllVia henv viaMembers args) (fun values hvalues =>
        hinterprets.stable_call head (kept_of_evaluationsAll hinterprets henv hvalues)) hresult
    exact .inl ⟨values, hvalues⟩
  · exact .inr fun arg harg c values happlies => hcovered c values (.argument harg happlies)

theorem ComparableAll.cons {term : Term} {rest : List Term}
    (h : calculus.ComparableAll target admits images viaMembers env env' (term :: rest)) :
    calculus.Comparable target admits images viaMembers env env' term ∧
      calculus.ComparableAll target admits images viaMembers env env' rest := by
  rcases h with ⟨results, hresults⟩ | hcovered
  · rw [evaluationsAll_cons hinterprets henv] at hresults
    obtain ⟨value, others, -, hvalue, hothers⟩ := Settles.exists_of_cons
      (hinterprets.stable_evaluateVia henv viaMembers term)
      (hinterprets.stable_evaluateAllVia henv viaMembers rest) hresults
    exact ⟨.inl ⟨value, hvalue⟩, .inl ⟨others, hothers⟩⟩
  · rw [List.forall_mem_cons] at hcovered
    exact ⟨.inr hcovered.1, .inr hcovered.2⟩

/-- At a default implementation the target has the images of the arguments and takes them. -/
theorem Comparable.taken (himages : ∀ entry ∈ images, P entry.2)
    (hconsistent : calculus.theory.Consistent) (hdefines : calculus.theory.DefinesSingly)
    {c : TermConstructor} (hc : c ∈ calculus.theory.terms) {definition : Definition}
    (hdefinition : c.definition? = some definition) {values : List Value}
    (hresolve : calculus.resolve c.name values = .ok ⟨c, .compound⟩) {k : Nat} {args : List Term}
    (hcomputed : (calculus.algebra k).evaluateAllVia viaMembers env args = .ok values)
    (hdata : ∀ value ∈ values, value.AllData P)
    (h : calculus.Comparable target admits images viaMembers env env' (.app c.name args))
    (hfound : ∀ n, (target n).found viaMembers c.name = .ok ())
    {results : Except Failure (List Value)}
    (hvalues : Settles (mappingsAll target images values) results)
    (hargs : Settles (evaluationsAll target viaMembers env' args) results) :
    ∃ others, results = .ok others ∧ admits c others ∧
      ((∃ result, Settles (calls target c.name others) (.ok result)) ∨
        calculus.Covered target admits images definition.viaMembers (.ofArgs c.params values)
          definition.body) := by
  rcases h with ⟨result, hresult⟩ | hcovered
  · rw [evaluations_app hinterprets henv hfound] at hresult
    obtain ⟨others, hothers, hcall⟩ := Settles.exists_of_bind
      (hinterprets.stable_evaluateAllVia henv viaMembers args) (fun values hvalues =>
        hinterprets.stable_call c.name (kept_of_evaluationsAll hinterprets henv hvalues)) hresult
    obtain ⟨bound, hbound⟩ := hcall.eventually
    have hsingle := hdefines.single c hc (by rw [hdefinition]; rfl)
    exact ⟨others, hargs.unique hothers, hinterprets.admits_of_call hconsistent hc hsingle
      (hbound bound (Nat.le_refl bound)), .inl ⟨result, hcall⟩⟩
  · obtain ⟨others, hothers, hadmits⟩ := hcovered c values (.here hcomputed hresolve hdefinition)
    have hmapped := (settles_mappingsAll_iff hinterprets himages hdata).mpr hothers
    exact ⟨others, hvalues.unique hmapped, hadmits, .inr fun c' values' happlies =>
      hcovered c' values' (.body hcomputed hresolve hdefinition happlies)⟩

end Comparisons

/-- A term constructor that the calculus finds the target finds as well. -/
theorem found_of_term {head : String} {n : Nat} (hterm : calculus.theory.termsNamed head ≠ [])
    (h : (calculus.algebra n).found viaMembers head = .ok ()) (m : Nat) :
    (target m).found viaMembers head = .ok () := by
  rw [found_eq_ok_iff, member_algebra] at h
  rw [found_eq_ok_iff]
  exact fun hvia => hinterprets.member_of_term (visible_of_member (h hvia)) hterm m

/-- An accessor that the calculus reads with success the target finds as well. -/
theorem found_of_access (hcommute : calculus.AccessorsCommute target P images bound)
    {head : String} {n : Nat} {value result : Value}
    (haccessor : calculus.theory.isAccessor head = true) (hmade : calculus.Made P bound value)
    (haccess : calculus.access head value = .ok result)
    (h : (calculus.algebra n).found viaMembers head = .ok ()) (m : Nat) :
    (target m).found viaMembers head = .ok () := by
  obtain ⟨image, image', -, -, hcall⟩ := hcommute head value result haccessor hmade haccess
  obtain ⟨k, hk⟩ := hcall.eventually
  rw [found_eq_ok_iff, member_algebra] at h
  rw [found_eq_ok_iff]
  exact fun hvia => hinterprets.member_of_accessor (visible_of_member (h hvia)) haccessor
    (hk k (Nat.le_refl k)) m

/-- A call of a default implementation comes to what the implementation comes to. -/
theorem settles_calls_iff (hconsistent : calculus.theory.Consistent)
    (hdefines : calculus.theory.DefinesSingly) {c : TermConstructor}
    (hc : c ∈ calculus.theory.terms) {definition : Definition}
    (hdefinition : c.definition? = some definition) {args : List Value}
    (hlength : args.length = c.arity) (hadmits : admits c args) (result : Except Failure Value) :
    Settles (calls target c.name args) result ↔
      Settles (evaluations target definition.viaMembers (.ofArgs c.params args)
        definition.body) result := by
  have hsingle := hdefines.single c hc (by rw [hdefinition]; rfl)
  have hsucc : (fun n => calls target c.name args (n + 1)) =
      evaluations target definition.viaMembers (.ofArgs c.params args) definition.body := by
    funext n
    rw [calls, hinterprets.call_of_definition hconsistent hc hsingle hdefinition hlength hadmits n]
    rfl
  rw [← hsucc]
  exact (settles_succ_iff (hinterprets.call_zero c.name args)).symm

variable (himages : ∀ entry ∈ images, P entry.2)

include himages

/-- A call that builds leaves a node at which the functor makes the same call. -/
theorem Plain.follows_build (plain : calculus.Plain) {m : Nat} {constructor : Constructor}
    {values typeArgs : List Value}
    (hbuilds : calculus.Builds (calculus.algebra m) constructor values typeArgs)
    (hknown : calculus.theory.Known constructor.name)
    (hdata : ∀ value ∈ values, value.AllData P)
    (henv : ∀ name value, env' name = some value → P value) {args : List Term}
    (hfound : ∀ n, (target n).found viaMembers constructor.name = .ok ())
    {results : Except Failure (List Value)}
    (hvalues : Settles (mappingsAll target images values) results)
    (hargs : Settles (evaluationsAll target viaMembers env' args) results) :
    ∃ result,
      Settles (mappings target images
        (.expr constructor.head values typeArgs constructor.sort)) result ∧
      Settles (evaluations target viaMembers env' (.app constructor.name args)) result := by
  have hopen : tabledImage? images (.expr constructor.head values typeArgs constructor.sort) =
      none := by rw [tabledImage?, if_neg (plain.head_of_known hbuilds hknown)]
  rw [mappings_expr hinterprets himages hdata hopen, plain.constructorName_of_builds hbuilds,
    evaluations_app hinterprets henv hfound]
  refine hvalues.exists_bind hargs ?_
  rintro others rfl
  obtain ⟨result, hresult⟩ := hinterprets.stable_call constructor.name
    (kept_of_evaluationsAll hinterprets henv hargs)
  exact ⟨result, hresult, hresult⟩

/-- A call of an accessor. -/
theorem follows_access (hcommute : calculus.AccessorsCommute target P images bound)
    {name : String} (haccessor : calculus.theory.isAccessor name = true) {value result : Value}
    (hmade : calculus.Made P bound value)
    (haccess : calculus.access name value = .ok result)
    (henv : ∀ name value, env' name = some value → P value) {args : List Term}
    (hfound : ∀ n, (target n).found viaMembers name = .ok ())
    {results : Except Failure (List Value)}
    (hvalues : Settles (mappingsAll target images [value]) results)
    (hargs : Settles (evaluationsAll target viaMembers env' args) results) :
    ∃ final, Settles (mappings target images result) final ∧
      Settles (evaluations target viaMembers env' (.app name args)) final := by
  obtain ⟨image, image', himage, himage', hcall⟩ := hcommute name value result haccessor hmade
    haccess
  have hmapped : Settles (mappingsAll target images [value]) (.ok [image]) :=
    (settles_mappingsAll_iff hinterprets himages (by simpa using hmade.data)).mpr
      (.cons himage .nil)
  cases hvalues.unique hmapped
  refine ⟨.ok image', himage', ?_⟩
  rw [evaluations_app hinterprets henv hfound]
  exact hargs.bind hcall

/-- A call of a default implementation, if the bodies within a smaller bound are followed. -/
theorem Plain.follows_define (plain : calculus.Plain) (hdefines : calculus.theory.DefinesSingly)
    {m : Nat} (hinner : ∀ term, calculus.FollowsTerm target P admits images bound m term)
    {c : TermConstructor} (hc : c ∈ calculus.theory.terms) {definition : Definition}
    (hdefinition : c.definition? = some definition) {values : List Value}
    (hresolve : calculus.resolve c.name values = .ok ⟨c, .compound⟩)
    (hmade : ∀ value ∈ values, calculus.Made P bound value) {value : Value}
    (hvalue : (calculus.algebra m).applyDefinition definition c.params values = .ok value)
    {k : Nat} {args : List Term}
    (hcomputed : (calculus.algebra k).evaluateAllVia viaMembers env args = .ok values)
    (henv : ∀ name value, env' name = some value → P value)
    (hcomparable : calculus.Comparable target admits images viaMembers env env'
      (.app c.name args))
    (hfound : ∀ n, (target n).found viaMembers c.name = .ok ())
    {results : Except Failure (List Value)}
    (hvalues : Settles (mappingsAll target images values) results)
    (hargs : Settles (evaluationsAll target viaMembers env' args) results) :
    ∃ final, Settles (mappings target images value) final ∧
      Settles (evaluations target viaMembers env' (.app c.name args)) final := by
  have hconsistent := plain.accepted.consistent
  have hdata (value : Value) (hmem : value ∈ values) := (hmade value hmem).data
  obtain ⟨others, rfl, hadmits, hbody⟩ := hcomparable.taken hinterprets henv himages hconsistent
    hdefines hc hdefinition hresolve hcomputed hdata hfound hvalues hargs
  have hothers := (settles_mappingsAll_iff hinterprets himages hdata).mp hvalues
  have hlength : others.length = c.arity := by
    rw [← hothers.length_eq]
    exact ((Constructor.accepts_iff _ _).mp (resolve_eq_ok hresolve).2).1
  have hcarries : List.Forall₂ (calculus.Carries target P images bound) values others :=
    ((List.forall₂_and_left values others).mpr ⟨hmade, hothers⟩).imp fun _ _ h => ⟨h.1, h.2⟩
  have hcalls := settles_calls_iff hinterprets hconsistent hdefines hc hdefinition hlength hadmits
  have hcomparable' : calculus.Comparable target admits images definition.viaMembers
      (.ofArgs c.params values) (.ofArgs c.params others) definition.body :=
    hbody.imp_left fun ⟨result, hresult⟩ => ⟨result, (hcalls _).mp hresult⟩
  obtain ⟨final, hmapped, hfinal⟩ := hinner _ (Environment.related_ofArgs hcarries c.params)
    (hdefines.heads c hc definition hdefinition) hcomparable' hvalue
  refine ⟨final, hmapped, ?_⟩
  rw [evaluations_app hinterprets henv hfound]
  exact hargs.bind ((hcalls final).mpr hfinal)

theorem Plain.follows_cons (plain : calculus.Plain) {n : Nat} (hn : n ≤ bound) {term : Term}
    {rest : List Term} (hterm : calculus.FollowsTerm target P admits images bound n term)
    (hrest : calculus.FollowsTerms target P admits images bound n rest) :
    calculus.FollowsTerms target P admits images bound n (term :: rest) := by
  intro viaMembers env env' values henv hknown hcomparable hvalues
  rw [Term.headsAll, List.forall_mem_append] at hknown
  have hkept := kept_of_related henv hinterprets himages
  have hmade := plain.made_of_evaluateAllVia hn (made_of_related henv) hvalues
  have hsilent := plain.silent n
  rw [evaluateAllVia_cons, (hsilent.evaluateVia term).bind_eq_ok_iff] at hvalues
  obtain ⟨value, hvalue, hvalues⟩ := hvalues
  rw [(hsilent.evaluateAllVia rest).bind_eq_ok_iff] at hvalues
  obtain ⟨others, hothers, hvalues⟩ := hvalues
  cases (ok_eq_ok_iff _ _).mp hvalues
  obtain ⟨hhead, htail⟩ := hcomparable.cons hinterprets hkept
  obtain ⟨result, hmapped, hresult⟩ := hterm henv hknown.1 hhead hvalue
  obtain ⟨results, hmappedAll, hresults⟩ := hrest henv hknown.2 htail hothers
  rw [mappingsAll_cons hinterprets himages fun own hown => (hmade own hown).data,
    evaluationsAll_cons hinterprets hkept]
  refine hmapped.exists_bind hresult fun image _ => ?_
  exact hmappedAll.exists_bind hresults fun images _ => ⟨_, settles_const _, settles_const _⟩

/-- The call at the head reads, applies a default implementation or builds; only where it builds
does the functor follow it step by step. -/
theorem Plain.follows_app (plain : calculus.Plain) (hdefines : calculus.theory.DefinesSingly)
    (hcommute : calculus.AccessorsCommute target P images bound) {n : Nat} (hn : n ≤ bound)
    (hinner : ∀ m < n, ∀ term, calculus.FollowsTerm target P admits images bound m term)
    (head : String) {args : List Term}
    (hargs : calculus.FollowsTerms target P admits images bound n args) :
    calculus.FollowsTerm target P admits images bound n (.app head args) := by
  intro viaMembers env env' value henv hknown hcomparable hvalue
  rw [Term.heads, List.forall_mem_cons] at hknown
  have hkept := kept_of_related henv hinterprets himages
  have hsilent := plain.silent n
  rw [evaluateVia_app, (silent_found head).bind_eq_ok_iff] at hvalue
  obtain ⟨_, hfound, hvalue⟩ := hvalue
  rw [(hsilent.evaluateAllVia args).bind_eq_ok_iff] at hvalue
  obtain ⟨values, hvalues, hcall⟩ := hvalue
  have hmade := plain.made_of_evaluateAllVia hn (made_of_related henv) hvalues
  cases n with
  | zero => exact absurd hcall invoke_zero_ne_ok
  | succ m =>
    cases plain.yields_of_invoke hcall with
    | @access _ own _ haccessor haccess =>
      have hown := hmade own List.mem_cons_self
      have hfound' := found_of_access hinterprets hcommute haccessor hown haccess hfound
      obtain ⟨results, hmapped, hresults⟩ := hargs henv hknown.2
        (hcomparable.args hinterprets hkept hfound') hvalues
      exact follows_access hinterprets himages hcommute haccessor hown haccess hkept hfound' hmapped
        hresults
    | define haccessor hresolve hdefinition hresult =>
      obtain ⟨c, hc, rfl, rfl⟩ := exists_of_definition? hresolve hdefinition
      have hfound' := found_of_term hinterprets (hknown.1.resolve_left (by simp [haccessor])) hfound
      obtain ⟨results, hmapped, hresults⟩ := hargs henv hknown.2
        (hcomparable.args hinterprets hkept hfound') hvalues
      exact plain.follows_define hinterprets himages hdefines (hinner m (Nat.lt_succ_self m)) hc
        hdefinition hresolve hmade hresult hvalues hkept hcomparable hfound' hmapped hresults
    | build hbuilds =>
      have hfound' := found_of_term hinterprets
        (hknown.1.resolve_left (by simp [hbuilds.not_accessor])) hfound
      obtain ⟨results, hmapped, hresults⟩ := hargs henv hknown.2
        (hcomparable.args hinterprets hkept hfound') hvalues
      exact plain.follows_build hinterprets himages hbuilds hknown.1
        (fun value hmem => (hmade value hmem).data) hkept hfound' hmapped hresults

end Steps

mutual

theorem Plain.follows_within (plain : calculus.Plain) (hdefines : calculus.theory.DefinesSingly)
    (hinterprets : Interprets calculus.theory target P admits)
    (himages : ∀ entry ∈ images, P entry.2)
    (hcommute : calculus.AccessorsCommute target P images bound) {n : Nat} (hn : n ≤ bound)
    (hinner : ∀ m < n, ∀ term, calculus.FollowsTerm target P admits images bound m term)
    (term : Term) : calculus.FollowsTerm target P admits images bound n term := by
  match term with
  | .var name => exact follows_var n name
  | .app head args =>
    exact plain.follows_app hinterprets himages hdefines hcommute hn hinner head
      (Plain.follows_within_all plain hdefines hinterprets himages hcommute hn hinner args)

theorem Plain.follows_within_all (plain : calculus.Plain)
    (hdefines : calculus.theory.DefinesSingly)
    (hinterprets : Interprets calculus.theory target P admits)
    (himages : ∀ entry ∈ images, P entry.2)
    (hcommute : calculus.AccessorsCommute target P images bound) {n : Nat} (hn : n ≤ bound)
    (hinner : ∀ m < n, ∀ term, calculus.FollowsTerm target P admits images bound m term)
    (terms : List Term) : calculus.FollowsTerms target P admits images bound n terms := by
  match terms with
  | [] => exact follows_nil n
  | term :: rest =>
    exact plain.follows_cons hinterprets himages hn
      (Plain.follows_within plain hdefines hinterprets himages hcommute hn hinner term)
      (Plain.follows_within_all plain hdefines hinterprets himages hcommute hn hinner rest)

end

/-- The induction is on the bound, for a default implementation is evaluated one level below its
call, and then on the term. -/
theorem Plain.follows (plain : calculus.Plain) (hdefines : calculus.theory.DefinesSingly)
    (hinterprets : Interprets calculus.theory target P admits)
    (himages : ∀ entry ∈ images, P entry.2)
    (hcommute : calculus.AccessorsCommute target P images bound) {n : Nat} (hn : n ≤ bound)
    (term : Term) : calculus.FollowsTerm target P admits images bound n term := by
  induction n using Nat.strongRecOn generalizing term with
  | ind n ih =>
    exact plain.follows_within hdefines hinterprets himages hcommute hn
      (fun m hm => ih m hm (Nat.le_of_lt (Nat.lt_of_lt_of_le hm hn))) term

end Calculus
end TermAlgebra
