import TermAlgebra.Value.Basic

/-!
Equality of values. Truth values, integers and floating-point numbers are compared exactly as
numbers; lists and tuples element by element, dictionaries by content; the sort of an expression
does not count. Inside a container two data that are not numbers but one and the same datum count
as equal; compared directly they do not. The relation is reflexive, so that deciding it need not
look into a part that both values share: an expression may hold one part very many times over.
-/
namespace TermAlgebra

/-- A number by its value. An integer has one form, whether it is written as an integer or in
floating point. -/
inductive Number where
  | integer (n : Int)
  | fraction (negative : Bool) (mantissa : Nat) (exponent : Int)
  | infinite (negative : Bool)
  | undefined (stamp : Nat)
deriving DecidableEq

def Binary64.toNumber : Binary64 → Number
  | .finite negative mantissa exponent =>
      let unit := twoTo (-exponent).toNat
      if mantissa % unit = 0 then
        .integer (signed negative (mantissa / unit * twoTo exponent.toNat))
      else .fraction negative mantissa exponent
  | .infinite negative => .infinite negative
  | .nan stamp => .undefined stamp

namespace Value

def number? : Value → Option Number
  | .bool b => some (.integer (if b then 1 else 0))
  | .int n => some (.integer n)
  | .float x => some x.toNumber
  | _ => none

mutual

/-- Equality of the elements of a container, of keys, and of the members of a set. -/
def same : Value → Value → Bool
  | .null, .null => true
  | .text a _, .text b _ => a == b
  | .list a, .list b => sameAll a b
  | .tuple a, .tuple b => sameAll a b
  | .dict a, .dict b => a.length == b.length && sameEntries a b
  | .fin a codomain, .fin b codomain' => sameAll a b && same codomain codomain'
  | .expr head args typeArgs _, .expr head' args' typeArgs' _ =>
      head == head' && sameAll args args' && sameAll typeArgs typeArgs'
  | a, b =>
      match a.number?, b.number? with
      | some x, some y => x == y
      | _, _ => false

def sameAll : List Value → List Value → Bool
  | [], [] => true
  | a :: as, b :: bs => same a b && sameAll as bs
  | _, _ => false

/-- Whether each entry of the first list has its like in the second. -/
def sameEntries : List (Value × Value) → List (Value × Value) → Bool
  | [], _ => true
  | (key, value) :: rest, entries =>
      entries.any (fun entry => same key entry.1 && same value entry.2) &&
        sameEntries rest entries

end

mutual

theorem same_refl (value : Value) : same value value = true := by
  match value with
  | .null => rfl
  | .bool b => simp [same, number?]
  | .int n => simp [same, number?]
  | .float x => simp [same, number?]
  | .text characters symbolic => simp [same]
  | .list items => rw [same, sameAll_refl items]
  | .tuple items => rw [same, sameAll_refl items]
  | .dict entries => simp [same, sameEntries_of_subset entries entries fun _ h => h]
  | .fin mapping codomain => rw [same, sameAll_refl mapping, same_refl codomain]; rfl
  | .expr head args typeArgs sort =>
    rw [same, sameAll_refl args, sameAll_refl typeArgs]
    simp

theorem sameAll_refl (values : List Value) : sameAll values values = true := by
  match values with
  | [] => rfl
  | value :: rest => rw [sameAll, same_refl value, sameAll_refl rest]; rfl

theorem sameEntries_of_subset (part entries : List (Value × Value)) (h : ∀ e ∈ part, e ∈ entries) :
    sameEntries part entries = true := by
  match part with
  | [] => rfl
  | (key, value) :: rest =>
    have hlike : entries.any (fun entry => same key entry.1 && same value entry.2) = true :=
      List.any_eq_true.2 ⟨(key, value), h _ List.mem_cons_self, by
        rw [same_refl key, same_refl value]; rfl⟩
    rw [sameEntries, hlike, sameEntries_of_subset rest entries fun e he =>
      h e (List.mem_cons_of_mem _ he)]
    rfl

end

mutual

/-- Decides equality. A part that both values share is not looked into. -/
def decideSame : (a b : Value) → { answer : Bool // answer = same a b }
  | .list a, .list b => ⟨(decideAll a b).1, by rw [(decideAll a b).2, same]⟩
  | .tuple a, .tuple b => ⟨(decideAll a b).1, by rw [(decideAll a b).2, same]⟩
  | .dict a, .dict b =>
      ⟨a.length == b.length && (decideEntries a b).1, by rw [(decideEntries a b).2, same]⟩
  | .fin a codomain, .fin b codomain' =>
      ⟨(decideAll a b).1 && (decideSame codomain codomain').1, by
        rw [(decideAll a b).2, (decideSame codomain codomain').2, same]⟩
  | .expr head args typeArgs _, .expr head' args' typeArgs' _ =>
      ⟨head == head' && (decideAll args args').1 && (decideAll typeArgs typeArgs').1, by
        rw [(decideAll args args').2, (decideAll typeArgs typeArgs').2, same]⟩
  | a, b => ⟨same a b, rfl⟩

def decideAll : (as bs : List Value) → { answer : Bool // answer = sameAll as bs }
  | [], [] => ⟨true, rfl⟩
  | a :: as, b :: bs =>
      ⟨withPtrEq a b (fun _ => (decideSame a b).1) (fun h => by
          rw [(decideSame a b).2, h, same_refl]) && (decideAll as bs).1, by
        rw [withPtrEq, (decideSame a b).2, (decideAll as bs).2, sameAll]⟩
  | [], _ :: _ => ⟨false, rfl⟩
  | _ :: _, [] => ⟨false, rfl⟩

def decideEntries : (as bs : List (Value × Value)) →
    { answer : Bool // answer = sameEntries as bs }
  | [], _ => ⟨true, rfl⟩
  | (key, value) :: rest, entries =>
      ⟨entries.any (fun entry =>
          withPtrEq key entry.1 (fun _ => (decideSame key entry.1).1) (fun h => by
            rw [(decideSame key entry.1).2, h, same_refl]) &&
          withPtrEq value entry.2 (fun _ => (decideSame value entry.2).1) (fun h => by
            rw [(decideSame value entry.2).2, h, same_refl])) &&
        (decideEntries rest entries).1, by
        rw [(decideEntries rest entries).2, sameEntries]
        congr 2
        funext entry
        rw [withPtrEq, withPtrEq, (decideSame key entry.1).2, (decideSame value entry.2).2]⟩

end

/-- The two values are equal as elements of a container. -/
def Same (a b : Value) : Prop := same a b = true

instance decidableSame (a b : Value) : Decidable (Same a b) :=
  decidable_of_iff
    (withPtrEq a b (fun _ => (decideSame a b).1) (fun h => by
      rw [(decideSame a b).2, h, same_refl]) = true) (by
    rw [withPtrEq, (decideSame a b).2, Same])

@[simp] theorem decide_Same (a b : Value) : decide (Same a b) = same a b := by
  by_cases h : same a b = true
  · rw [decide_eq_true (show Same a b from h), h]
  · rw [decide_eq_false (show ¬Same a b from h), Bool.eq_false_iff.2 h]

def isUndefined : Value → Bool
  | .float (.nan _) => true
  | _ => false

def equal (a b : Value) : Bool := !a.isUndefined && Same a b

mutual

/-- Values that can be keys: those without a list or a dictionary in them. -/
def hashable : Value → Bool
  | .list _ => false
  | .dict _ => false
  | .tuple items => hashableAll items
  | .fin mapping codomain => hashableAll mapping && hashable codomain
  | .expr _ args typeArgs _ => hashableAll args && hashableAll typeArgs
  | _ => true

def hashableAll : List Value → Bool
  | [] => true
  | value :: rest => hashable value && hashableAll rest

end

/-- The datum under a key. -/
def lookup (key : Value) : List (Value × Value) → Option Value
  | [] => none
  | (own, value) :: rest => if Same own key then some value else lookup key rest

/-- A key that is there keeps its place and itself, and takes the new datum. -/
def insert (key value : Value) : List (Value × Value) → List (Value × Value)
  | [] => [(key, value)]
  | (own, old) :: rest =>
      if Same own key then (own, value) :: rest else (own, old) :: insert key value rest

/-- The values without repetition. -/
def distinct (values : List Value) : List Value :=
  values.foldl (fun seen value => if seen.any (Same value ·) then seen else seen ++ [value]) []

end Value
end TermAlgebra
