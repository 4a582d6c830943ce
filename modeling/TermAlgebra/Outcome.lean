import TermAlgebra.Failure

/-!
Outcomes of operations: a result or a failure, together with the events that were recorded on the
way to it. A failure ends an operation and keeps the events recorded before it. Operations hand on
the next unused stamp, with which arithmetic marks the data that it leaves without a number.
-/
namespace TermAlgebra

inductive Event where
  /-- A traced override was called. -/
  | overrode (algebra name : String) (args : List Value) (strict : Bool)
  /-- A traced operation of a model was called. -/
  | applied (name : String) (args : List Value)
  /-- A traced action was called on a node of an expression. -/
  | visited (name : String) (node : Value)

/-- What is there when an operation has come to its end. -/
structure Ending (α : Type) where
  events : List Event
  stamp : Nat
  result : Except Failure α

/-- An operation that starts from the next unused stamp. -/
structure Outcome (α : Type) where
  run : (stamp : Nat) → Ending α

namespace Outcome

variable {α β : Type}

def ofExcept (result : Except Failure α) : Outcome α := ⟨fun stamp => ⟨[], stamp, result⟩⟩

def ok (value : α) : Outcome α := ofExcept (.ok value)

def fail (failure : Failure) : Outcome α := ofExcept (.error failure)

/-- Records an event. -/
def emit (event : Event) : Outcome Unit := ⟨fun stamp => ⟨[event], stamp, .ok ()⟩⟩

/-- A stamp that nothing else bears. -/
def freshStamp : Outcome Nat := ⟨fun stamp => ⟨[], stamp + 1, .ok stamp⟩⟩

def bind (outcome : Outcome α) (next : α → Outcome β) : Outcome β := ⟨fun stamp =>
  let ending := outcome.run stamp
  match ending.result with
  | .error failure => ⟨ending.events, ending.stamp, .error failure⟩
  | .ok value =>
      let rest := (next value).run ending.stamp
      ⟨ending.events ++ rest.events, rest.stamp, rest.result⟩⟩

/-- The outcome with its failure for a result, if it fails. -/
def attempt (outcome : Outcome α) : Outcome (Except Failure α) := ⟨fun stamp =>
  let ending := outcome.run stamp
  ⟨ending.events, ending.stamp, .ok ending.result⟩⟩

/-- Stamp 0 is taken by the data of documents. -/
def firstStamp : Nat := 1

/-- The result of an operation that starts by itself. -/
def result (outcome : Outcome α) : Except Failure α := (outcome.run firstStamp).result

instance : Monad Outcome where
  pure := ok
  bind := bind

theorem pure_eq (value : α) : (pure value : Outcome α) = ok value := rfl

theorem bind_eq (outcome : Outcome α) (next : α → Outcome β) :
    outcome >>= next = outcome.bind next := rfl

@[simp] theorem ok_bind (value : α) (next : α → Outcome β) :
    (ok value).bind next = next value := rfl

@[simp] theorem fail_bind (failure : Failure) (next : α → Outcome β) :
    (fail failure : Outcome α).bind next = fail failure := rfl

@[simp] theorem bind_ok (outcome : Outcome α) : outcome.bind ok = outcome := by
  obtain ⟨run⟩ := outcome
  simp only [bind, ok, ofExcept, mk.injEq]
  funext stamp
  rcases run stamp with ⟨events, stamp, failure | value⟩ <;> simp

theorem bind_assoc {γ : Type} (outcome : Outcome α) (f : α → Outcome β) (g : β → Outcome γ) :
    (outcome.bind f).bind g = outcome.bind fun value => (f value).bind g := by
  obtain ⟨run⟩ := outcome
  simp only [bind, mk.injEq]
  funext stamp
  rcases run stamp with ⟨events, stamp, failure | value⟩
  · rfl
  · cases h : (f value).run stamp with
    | mk events' stamp' result => cases result <;> simp [h]

instance : LawfulMonad Outcome := LawfulMonad.mk' Outcome
  (fun outcome => by simp [Functor.map])
  (fun value next => by simp [bind_eq, pure_eq])
  (fun outcome f g => bind_assoc outcome f g)

end Outcome
end TermAlgebra
