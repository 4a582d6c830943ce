import TermAlgebra.Proofs.NodePositions
import TermAlgebra.Proofs.RecordedCalls

/-!
What a functor does, in the order in which it does it. At each node that it reaches and that is not
in the table, it calls the action for the node on the node as it stands, or else the target on what
the arguments have come to. Along the nodes in post-order each of them has its turn once. A failure
ends the run where it happens. The induction is on the expression, with the visits made before it
and its position within the whole; what an argument has come to is then found among the visits.
-/
namespace TermAlgebra

/-- A call that is made for a node, and what came of it. -/
structure Visit where
  position : Position
  event : Event
  result : Except Failure Value

def Visit.Answers (visit : Visit) : Prop := ∃ answer, visit.result = .ok answer

/-- What stands at a position has come to a value: a datum to itself, a generator to its image in
the table, and any other node to the answer that it was given when it was visited. -/
inductive ComesTo (images : Images) (visits : List Visit) (position : Position) :
    Value → Value → Prop
  | datum {value : Value} (h : value.isExpr = false) : ComesTo images visits position value value
  | tabled {node image : Value} (h : tabledImage? images node = some image) :
      ComesTo images visits position node image
  | visited {node answer : Value} {event : Event} (h : tabledImage? images node = none)
      (hvisit : ⟨position, event, .ok answer⟩ ∈ visits) :
      ComesTo images visits position node answer

theorem ComesTo.mono {images : Images} {visits visits' : List Visit} {position : Position}
    {value result : Value} (h : ComesTo images visits position value result)
    (hvisits : visits ⊆ visits') : ComesTo images visits' position value result := by
  cases h with
  | datum h => exact .datum h
  | tabled h => exact .tabled h
  | visited h hvisit => exact .visited h (hvisits hvisit)

/-- The arguments of the node at the position, the first of which has a certain place, have come to
the values. -/
def ArgumentsComeTo (images : Images) (visits : List Visit) (position : Position) (place : Nat)
    (args values : List Value) : Prop :=
  List.Forall₂ (fun entry value => ComesTo images visits (position ++ [entry.2]) entry.1 value)
    (args.zipIdx place) values

section Visits

variable (target : Algebra) (images : Images) (actions : Table NodeAction) (root : Value)

/-- The visit that the node at its position calls for, made between two points of time: a call of
the node's action on the node itself, or of its name on what its arguments have come to. -/
inductive Visit.Proper (earlier : List Visit) : (start : Nat) → Visit → (finish : Nat) → Prop
  | act {position head args typeArgs sort action start result finish}
      (hnode : root.nodeAt? position = some (.expr head args typeArgs sort))
      (haction : actions.get? (constructorName head sort) = some action)
      (hresult : ((action (.expr head args typeArgs sort)).run start).result = result)
      (hfinish : ((action (.expr head args typeArgs sort)).run start).stamp = finish) :
      Visit.Proper earlier start
        ⟨position, .visited (constructorName head sort) (.expr head args typeArgs sort), result⟩
        finish
  | call {position head args typeArgs sort values start result finish}
      (hnode : root.nodeAt? position = some (.expr head args typeArgs sort))
      (haction : actions.get? (constructorName head sort) = none)
      (hvalues : ArgumentsComeTo images earlier position 0 args values)
      (hresult : ((target.call (constructorName head sort) values).run start).result = result)
      (hfinish : ((target.call (constructorName head sort) values).run start).stamp = finish) :
      Visit.Proper earlier start
        ⟨position, .applied (constructorName head sort) values, result⟩ finish

/-- Visits made one after the other, each when the one before it is over. -/
inductive Succession : (earlier : List Visit) → (start : Nat) → List Visit → (finish : Nat) → Prop
  | nil {earlier stamp} : Succession earlier stamp [] stamp
  | cons {earlier start visit middle visits finish}
      (hvisit : visit.Proper target images actions root earlier start middle)
      (hvisits : Succession (earlier ++ [visit]) middle visits finish) :
      Succession earlier start (visit :: visits) finish

variable {target images actions root}

theorem Succession.append {earlier visits visits' : List Visit} {start middle finish : Nat}
    (h : Succession target images actions root earlier start visits middle)
    (h' : Succession target images actions root (earlier ++ visits) middle visits' finish) :
    Succession target images actions root earlier start (visits ++ visits') finish := by
  induction h with
  | nil => rwa [List.append_nil] at h'
  | cons hvisit _ ih =>
    rw [List.append_cons] at h'
    exact .cons hvisit (ih h')

end Visits

/-- How far the visits get on an agenda: to its end, where the result is as it should be, or to the
first visit that fails, whose failure is the result. -/
inductive Progress {α : Type} (agenda : List Position) (good : α → Prop) :
    List Visit → Except Failure α → Prop
  | finished {visits value} (hpositions : visits.map Visit.position = agenda)
      (hanswers : ∀ visit ∈ visits, visit.Answers) (hgood : good value) :
      Progress agenda good visits (.ok value)
  | broken {visits visit failure}
      (hpositions : (visits ++ [visit]).map Visit.position <+: agenda)
      (hanswers : ∀ visit ∈ visits, visit.Answers) (hfailure : visit.result = .error failure) :
      Progress agenda good (visits ++ [visit]) (.error failure)

section Tours

open Outcome TermAlgebra.Algebra

variable (target : Algebra) (images : Images) (actions : Table NodeAction) (root : Value)

/-- The operation deals with the agenda and does nothing else. What is good about its value may
depend on all the visits made until then. -/
def Tours {α : Type} (earlier : List Visit) (agenda : List Position)
    (good : List Visit → α → Prop) (outcome : Outcome α) : Prop :=
  ∀ stamp, ∃ visits, (outcome.run stamp).events = visits.map Visit.event ∧
    Succession target images actions root earlier stamp visits (outcome.run stamp).stamp ∧
    Progress agenda (good (earlier ++ visits)) visits (outcome.run stamp).result

variable {target images actions root} {α β : Type} {earlier : List Visit}
  {agenda agenda' : List Position} {good : List Visit → α → Prop} {good' : List Visit → β → Prop}

theorem tours_ok {value : α} (h : good earlier value) :
    Tours target images actions root earlier [] good (ok value) := by
  intro stamp
  refine ⟨[], rfl, .nil, .finished rfl (List.forall_mem_nil _) ?_⟩
  rwa [List.append_nil]

theorem Tours.bind {outcome : Outcome α} {next : α → Outcome β}
    (h : Tours target images actions root earlier agenda good outcome)
    (hnext : ∀ visits value, good (earlier ++ visits) value →
      Tours target images actions root (earlier ++ visits) agenda' good' (next value)) :
    Tours target images actions root earlier (agenda ++ agenda') good' (outcome.bind next) := by
  intro stamp
  obtain ⟨visits, hevents, hvisits, hprogress⟩ := h stamp
  simp only [Outcome.bind]
  generalize hresult : (outcome.run stamp).result = result at hprogress
  cases hprogress with
  | @broken visits visit failure hpositions hanswers hfailure =>
    exact ⟨_, hevents, hvisits, .broken (hpositions.trans (List.prefix_append _ _)) hanswers
      hfailure⟩
  | @finished _ value hpositions hanswers hgood =>
    obtain ⟨visits', hevents', hvisits', hprogress'⟩ :=
      hnext visits value hgood (outcome.run stamp).stamp
    refine ⟨visits ++ visits', ?_, hvisits.append hvisits', ?_⟩
    · rw [List.map_append, ← hevents, ← hevents']
    rw [List.append_assoc] at hprogress'
    dsimp only
    generalize ((next value).run (outcome.run stamp).stamp).result = result' at hprogress'
    cases hprogress' with
    | finished hpositions' hanswers' hgood' =>
      refine .finished (by rw [List.map_append, hpositions, hpositions']) ?_ hgood'
      exact List.forall_mem_append.mpr ⟨hanswers, hanswers'⟩
    | @broken visits' visit failure hpositions' hanswers' hfailure =>
      have hprefix : ((visits ++ visits') ++ [visit]).map Visit.position <+: agenda ++ agenda' := by
        rw [List.append_assoc, List.map_append, hpositions]
        exact (List.prefix_append_right_inj _).mpr hpositions'
      rw [← List.append_assoc visits visits' [visit]]
      exact .broken hprefix (List.forall_mem_append.mpr ⟨hanswers, hanswers'⟩) hfailure

/-- A single visit, after which its node has come to its answer. -/
theorem tours_of_visit {outcome : Outcome Value} {position : Position} {event : Event}
    {node : Value} (hopen : tabledImage? images node = none)
    (hevents : ∀ stamp, (outcome.run stamp).events = [event])
    (hproper : ∀ stamp, Visit.Proper target images actions root earlier stamp
      ⟨position, event, (outcome.run stamp).result⟩ (outcome.run stamp).stamp) :
    Tours target images actions root earlier [position]
      (fun visits answer => ComesTo images visits position node answer) outcome := by
  intro stamp
  refine ⟨[⟨position, event, (outcome.run stamp).result⟩], hevents stamp,
    .cons (hproper stamp) .nil, ?_⟩
  cases (outcome.run stamp).result with
  | error failure =>
    rw [← List.nil_append [(⟨position, event, .error failure⟩ : Visit)]]
    exact .broken (List.prefix_refl _) (List.forall_mem_nil _) rfl
  | ok answer =>
    refine .finished rfl (List.forall_mem_singleton.mpr ⟨answer, rfl⟩) ?_
    exact .visited hopen (List.mem_append_right _ (List.mem_singleton_self _))

end Tours

namespace Algebra

open Outcome

variable {target : Algebra} {images : Images} {actions : Table NodeAction} {root : Value}

theorem tours_call {earlier : List Visit} {position : Position} {head sort : String}
    {args typeArgs values : List Value}
    (hnode : root.nodeAt? position = some (.expr head args typeArgs sort))
    (hopen : tabledImage? images (.expr head args typeArgs sort) = none)
    (haction : actions.get? (constructorName head sort) = none)
    (hvalues : ArgumentsComeTo images earlier position 0 args values) :
    Tours target images actions root earlier [position]
      (fun visits answer => ComesTo images visits position (.expr head args typeArgs sort) answer)
      (target.recorded.call (constructorName head sort) values) :=
  tours_of_visit hopen (fun _ => rfl) fun _ => .call hnode haction hvalues rfl rfl

theorem tours_action {earlier : List Visit} {position : Position} {head sort : String}
    {args typeArgs : List Value} {action : NodeAction}
    (hnode : root.nodeAt? position = some (.expr head args typeArgs sort))
    (hopen : tabledImage? images (.expr head args typeArgs sort) = none)
    (haction : actions.get? (constructorName head sort) = some action) :
    Tours target images actions root earlier [position]
      (fun visits answer => ComesTo images visits position (.expr head args typeArgs sort) answer)
      (action.recorded (.expr head args typeArgs sort)) :=
  tours_of_visit hopen (fun _ => rfl) fun _ => .act hnode haction rfl rfl

theorem nodeAt?_argument {position : Position} {head sort : String} {args typeArgs : List Value}
    (hnode : root.nodeAt? position = some (.expr head args typeArgs sort)) {place : Nat}
    {arg : Value} (harg : args[place]? = some arg) (hexpr : arg.isExpr = true) :
    root.nodeAt? (position ++ [place]) = some arg := by
  rw [Value.nodeAt?_append, hnode, Option.bind_some, Value.nodeAt?, Value.args, harg,
    Option.bind_some, Value.nodeAt?, if_pos hexpr]

theorem stops_eq_false {head sort : String} {args typeArgs : List Value}
    (hopen : tabledImage? images (.expr head args typeArgs sort) = none)
    (haction : actions.get? (constructorName head sort) = none) :
    stops images actions (.expr head args typeArgs sort) = false := by
  rw [stops, isTabled_eq_isSome, hopen, hasAction, haction]
  rfl

mutual

/-- The functor deals with what is due in the node at a position of the whole. -/
theorem tours_functor (value : Value) {earlier : List Visit} {position : Position}
    (hnode : root.nodeAt? position = some value) :
    Tours target images actions root earlier
      ((agenda images actions value).map (position ++ ·))
      (fun visits answer => ComesTo images visits position value answer)
      (target.recorded.functor images (actions.map NodeAction.recorded) value) := by
  match value with
  | .expr head args typeArgs sort =>
    have hrecorded := get?_recordedActions actions (constructorName head sort)
    cases htabled : tabledImage? images (.expr head args typeArgs sort) with
    | some image =>
      have hstops : isTabled images (.expr head args typeArgs sort) = true := by
        rw [isTabled_eq_isSome, htabled]
        rfl
      rw [functor_tabled htabled, agenda_of_stops (by rw [stops, hstops, Bool.true_or]), hstops]
      exact tours_ok (.tabled htabled)
    | none =>
      cases haction : actions.get? (constructorName head sort) with
      | some action =>
        have hopen : isTabled images (.expr head args typeArgs sort) = false := by
          rw [isTabled_eq_isSome, htabled]
          rfl
        have hstops : stops images actions (.expr head args typeArgs sort) = true := by
          rw [stops, hopen, hasAction, haction]
          rfl
        rw [haction] at hrecorded
        rw [functor_acted htabled hrecorded, agenda_of_stops hstops, hopen]
        simpa using tours_action hnode htabled haction
      | none =>
        rw [haction] at hrecorded
        rw [functor_called htabled hrecorded, agenda_of_open (stops_eq_false htabled haction),
          List.map_append]
        refine (tours_functorAll hnode args fun entry hentry =>
          List.mem_zipIdx_iff_getElem?.mp hentry).bind fun visits values hvalues => ?_
        simpa using tours_call hnode htabled haction hvalues
  | .null | .bool _ | .int _ | .float _ | .text _ _ | .list _ | .tuple _ | .dict _ | .fin _ _ =>
    cases Value.isExpr_of_nodeAt? hnode

theorem tours_functorAll {earlier : List Visit} {position : Position} {head sort : String}
    {args typeArgs : List Value}
    (hnode : root.nodeAt? position = some (.expr head args typeArgs sort)) (values : List Value)
    {place : Nat} (hvalues : ∀ entry ∈ values.zipIdx place, args[entry.2]? = some entry.1) :
    Tours target images actions root earlier
      ((agendaAll images actions place values).map (position ++ ·))
      (fun visits results => ArgumentsComeTo images visits position place values results)
      (target.recorded.functorAll images (actions.map NodeAction.recorded) values) := by
  match values with
  | [] => exact tours_ok .nil
  | value :: rest =>
    rw [List.zipIdx_cons, List.forall_mem_cons] at hvalues
    rw [functorAll_acted, agendaAll_cons, List.map_append]
    have hvalue : Tours target images actions root earlier
        (((agenda images actions value).map (place :: ·)).map (position ++ ·))
        (fun visits result => ComesTo images visits (position ++ [place]) value result)
        (if value.isExpr then
            target.recorded.functor images (actions.map NodeAction.recorded) value
          else ok value) := by
      cases hexpr : value.isExpr with
      | true =>
        have h : Tours target images actions root earlier
            ((agenda images actions value).map (position ++ [place] ++ ·))
            (fun visits answer => ComesTo images visits (position ++ [place]) value answer)
            (target.recorded.functor images (actions.map NodeAction.recorded) value) :=
          tours_functor value (nodeAt?_argument hnode hvalues.1 hexpr)
        simpa [Function.comp_def] using h
      | false =>
        rw [agenda_datum hexpr]
        exact tours_ok (.datum hexpr)
    refine hvalue.bind fun visits result hresult => ?_
    rw [← List.append_nil (List.map _ (agendaAll images actions (place + 1) rest))]
    refine (tours_functorAll hnode rest hvalues.2).bind fun visits' results hresults => ?_
    exact tours_ok (.cons (hresult.mono (List.subset_append_left _ _)) hresults)

end

/-- A functor visits the nodes on its agenda one after the other, each of them once and as it should
be, and nothing else. If a visit fails, it is the last one, and the functor fails with it; otherwise
all of the agenda is done, and the result is what the whole has come to. -/
theorem functor_visits_in_order (target : Algebra) (images : Images) (actions : Table NodeAction)
    (head : String) (args typeArgs : List Value) (sort : String) (stamp : Nat) :
    let node := Value.expr head args typeArgs sort
    let plain := (target.functor images actions node).run stamp
    let recorded :=
      (target.recorded.functor images (actions.map NodeAction.recorded) node).run stamp
    recorded.result = plain.result ∧ recorded.stamp = plain.stamp ∧
      (agenda images actions node).Nodup ∧
      ∃ visits, recorded.events = visits.map Visit.event ∧
        Succession target images actions node [] stamp visits plain.stamp ∧
        Progress (agenda images actions node) (ComesTo images visits [] node) visits
          plain.result := by
  intro node plain recorded
  have hmatches : (target.recorded.functor images (actions.map NodeAction.recorded) node).Matches
      (target.functor images actions node) := functor_recorded actions node
  have htour : Tours target images actions node [] ((agenda images actions node).map ([] ++ ·))
      (fun visits answer => ComesTo images visits [] node answer)
      (target.recorded.functor images (actions.map NodeAction.recorded) node) :=
    tours_functor node rfl
  obtain ⟨hresult, hstamp⟩ := hmatches stamp
  obtain ⟨visits, hevents, hvisits, hprogress⟩ := htour stamp
  simp only [List.nil_append, List.map_id'] at hprogress
  rw [hstamp] at hvisits
  rw [hresult] at hprogress
  exact ⟨hresult, hstamp, nodup_agenda node, visits, hevents, hvisits, hprogress⟩

end Algebra
end TermAlgebra
