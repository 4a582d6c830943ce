import TermAlgebra.Proofs.ComposedImages

/-!
The calls that a functor makes. A target that records its own calls answers them as before, so the
functor into it gives the same results at the same times and leaves the list of the calls behind.
Each of them belongs to a node that the functor comes to and that is not in the table, and its
arguments are what the arguments of that node were mapped to.
-/
namespace TermAlgebra

namespace Outcome

variable {α β : Type}

/-- The two come to the same end; what they record may differ. -/
def Matches (outcome other : Outcome α) : Prop :=
  ∀ stamp, (outcome.run stamp).result = (other.run stamp).result ∧
    (outcome.run stamp).stamp = (other.run stamp).stamp

theorem Matches.refl (outcome : Outcome α) : outcome.Matches outcome := fun _ => ⟨rfl, rfl⟩

theorem Matches.bind {outcome other : Outcome α} {next next' : α → Outcome β}
    (h : outcome.Matches other) (hnext : ∀ value, (next value).Matches (next' value)) :
    (outcome.bind next).Matches (other.bind next') := by
  intro stamp
  obtain ⟨hresult, hstamp⟩ := h stamp
  simp only [Outcome.bind, hresult, hstamp]
  cases (other.run stamp).result with
  | error failure => exact ⟨rfl, rfl⟩
  | ok value => exact hnext value _

/-- An event of a chain is one of its first step or one of the step after that. -/
theorem mem_events_bind {outcome : Outcome α} {next : α → Outcome β} {stamp : Nat} {event : Event}
    (h : event ∈ ((outcome.bind next).run stamp).events) :
    event ∈ (outcome.run stamp).events ∨
      ∃ value, (outcome.run stamp).result = .ok value ∧
        event ∈ ((next value).run (outcome.run stamp).stamp).events := by
  simp only [Outcome.bind] at h
  split at h
  · exact .inl h
  next value hvalue =>
    rcases List.mem_append.mp h with h | h
    · exact .inl h
    · exact .inr ⟨value, hvalue, h⟩

end Outcome

/-- The name under which a node is rebuilt. Data have none. -/
def nodeName : Value → String
  | .expr head _ _ sort => constructorName head sort
  | _ => ""

/-- The action records that it is called, and nothing that happens within the call. -/
def NodeAction.recorded (action : NodeAction) : NodeAction := fun node => ⟨fun stamp =>
  let ending := (action node).run stamp
  ⟨[.visited (nodeName node) node], ending.stamp, ending.result⟩⟩

namespace Algebra

open Outcome

variable (target : Algebra)

/-- The algebra records each of its calls, and nothing that happens within them. -/
def recorded : Algebra where
  name := target.name
  theory := target.theory
  invoke name args strict? := ⟨fun stamp =>
    let ending := (target.invoke name args strict?).run stamp
    ⟨[.applied name args], ending.stamp, ending.result⟩⟩
  member := target.member

variable {target : Algebra} {images : Images}

theorem matches_recorded (name : String) (args : List Value) :
    (target.recorded.call name args).Matches (target.call name args) := fun _ => ⟨rfl, rfl⟩

theorem get?_recordedActions (actions : Table NodeAction) (name : String) :
    (actions.map NodeAction.recorded).get? name =
      (actions.get? name).map NodeAction.recorded := by
  obtain ⟨entries, distinct⟩ := actions
  simp only [Table.get?, Table.map]
  clear distinct
  induction entries with
  | nil => rfl
  | cons entry rest ih =>
    rw [List.map_cons, lookupEntry, lookupEntry, ih]
    split <;> rfl

mutual

/-- Recording the calls and the actions changes nothing for the functor. -/
theorem functor_recorded (actions : Table NodeAction) (value : Value) :
    (target.recorded.functor images (actions.map NodeAction.recorded) value).Matches
      (target.functor images actions value) := by
  match value with
  | .expr head args typeArgs sort =>
    cases htabled : tabledImage? images (.expr head args typeArgs sort) with
    | some image =>
      rw [functor_tabled htabled, functor_tabled htabled]
      exact .refl _
    | none =>
      have hrecorded := get?_recordedActions actions (constructorName head sort)
      cases haction : actions.get? (constructorName head sort) with
      | some action =>
        rw [haction] at hrecorded
        rw [functor_acted htabled hrecorded, functor_acted htabled haction]
        exact fun _ => ⟨rfl, rfl⟩
      | none =>
        rw [haction] at hrecorded
        rw [functor_called htabled hrecorded, functor_called htabled haction]
        exact (functorAll_recorded actions args).bind fun values => matches_recorded _ values
  | .null | .bool _ | .int _ | .float _ | .text _ _ | .list _ | .tuple _ | .dict _ | .fin _ _ =>
    exact .refl _

theorem functorAll_recorded (actions : Table NodeAction) (values : List Value) :
    (target.recorded.functorAll images (actions.map NodeAction.recorded) values).Matches
      (target.functorAll images actions values) := by
  match values with
  | [] => exact .refl _
  | value :: rest =>
    rw [functorAll_acted, functorAll_acted]
    refine Matches.bind ?_ fun image => (functorAll_recorded actions rest).bind fun _ => .refl _
    split
    · exact functor_recorded actions value
    · exact .refl _

end

/-- Each argument has been mapped at some time. -/
theorem exists_of_functorAll {values results : List Value} {stamp : Nat}
    (h : ((target.functorAll images .empty values).run stamp).result = .ok results) :
    List.Forall₂ (fun value result =>
      ∃ stamp', ((target.mapped images value).run stamp').result = .ok result) values results := by
  induction values generalizing results stamp with
  | nil =>
    cases h
    exact .nil
  | cons value rest ih =>
    rw [functorAll_mapped] at h
    obtain ⟨image, _, himage, h⟩ := exists_of_run_bind h
    obtain ⟨others, _, hothers, h⟩ := exists_of_run_bind h
    cases h
    exact .cons ⟨stamp, himage⟩ (ih hothers)

/-- The event is the call for a node on the functor's way through the value. -/
def CallFor (target : Algebra) (images : Images) (event : Event) (value : Value) : Prop :=
  ∃ head args typeArgs sort values stamp,
    Visits images (.expr head args typeArgs sort) value ∧
    event = .applied (constructorName head sort) values ∧
    ((target.functorAll images .empty args).run stamp).result = .ok values

theorem CallFor.within {event : Event} {head sort : String} {args typeArgs : List Value}
    {arg : Value} (h : target.CallFor images event arg) (harg : arg ∈ args)
    (hopen : tabledImage? images (.expr head args typeArgs sort) = none) :
    target.CallFor images event (.expr head args typeArgs sort) := by
  obtain ⟨head', args', typeArgs', sort', values, stamp, hvisits, hevent, hvalues⟩ := h
  exact ⟨head', args', typeArgs', sort', values, stamp, .within hopen harg hvisits, hevent, hvalues⟩

mutual

theorem callFor_of_mem (value : Value) {stamp : Nat} {event : Event}
    (h : event ∈ ((target.recorded.functor images .empty value).run stamp).events) :
    target.CallFor images event value := by
  match value with
  | .expr head args typeArgs sort =>
    cases htabled : tabledImage? images (.expr head args typeArgs sort) with
    | some image =>
      rw [functor_tabled htabled] at h
      cases h
    | none =>
      rw [functor_untabled htabled] at h
      rcases mem_events_bind h with h | ⟨values, hvalues, h⟩
      · obtain ⟨arg, harg, hcall⟩ := callFor_of_mem_all args h
        exact hcall.within harg htabled
      · have hplain := (functorAll_recorded .empty args stamp).1.symm.trans hvalues
        exact ⟨head, args, typeArgs, sort, values, stamp, .here, List.mem_singleton.mp h, hplain⟩
  | .null | .bool _ | .int _ | .float _ | .text _ _ | .list _ | .tuple _ | .dict _ | .fin _ _ =>
    cases h

theorem callFor_of_mem_all (values : List Value) {stamp : Nat} {event : Event}
    (h : event ∈ ((target.recorded.functorAll images .empty values).run stamp).events) :
    ∃ value ∈ values, target.CallFor images event value := by
  match values with
  | [] => cases h
  | value :: rest =>
    rw [functorAll_mapped] at h
    rcases mem_events_bind h with h | ⟨_, -, h⟩
    · rw [mapped] at h
      split at h
      · exact ⟨value, List.mem_cons_self, callFor_of_mem value h⟩
      · cases h
    · rcases mem_events_bind h with h | ⟨_, -, h⟩
      · obtain ⟨value', hmem, hcall⟩ := callFor_of_mem_all rest h
        exact ⟨value', List.mem_cons_of_mem _ hmem, hcall⟩
      · cases h

end

end Algebra
end TermAlgebra
