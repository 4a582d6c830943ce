import TermAlgebra.Algebra.Model
import TermAlgebra.Value.Arithmetic

/-!
Operations from which models can be put together: recording the call, returning an argument or a
fixed value, counting, sums and products, and functions between finite sets. Such a function lists
the images of the elements 0, 1, 2, … of its domain beside its codomain.
-/
namespace TermAlgebra.Operation

/-- The arguments themselves, behind the operation's name. -/
def tagged (name : String) : Operation := fun args => .ok (.tuple (.str name :: args))

def argument (pick : List Value → Option Value) : Operation := fun args =>
  match pick args with
  | some value => .ok value
  | none => .fail .missingArgument

def constant (value : Value) : Operation := fun _ => .ok value

def count : Operation := fun args => .ok (.int args.length)

/-- A datum without a number that an operation has made is told from all others. -/
def marked : Value → Outcome Value
  | .float (.nan _) => do return .float (.nan (← .freshStamp))
  | value => pure value

/-- An operation on two values that makes its result anew. -/
def binary (combine : Value → Value → Except Failure Value) : Operation
  | [a, b] => do marked (← .ofExcept (combine a b))
  | _ => .fail .badCall

def sum : Operation := binary Value.add

def product : Operation := binary Value.mul

def traced (name : String) (operation : Operation) : Operation := fun args => do
  if args.any fun value => value.str?.isNone then .fail .missingArgument
  .emit (.applied name args)
  operation args

/-- The values listed by a datum; a text lists its characters and a dictionary its keys. -/
def listed? : Value → Option (List Value)
  | .list items => some items
  | .tuple items => some items
  | .dict entries => some (entries.map Prod.fst)
  | .text characters _ => some (characters.toList.map fun c => .str (String.singleton c))
  | _ => none

/-- A finite function from the list of its images and its codomain; its domain goes without
saying. -/
def finite : Operation
  | [images, _, codomain] =>
      match listed? images with
      | some mapping => .ok (.fin mapping codomain)
      | none => .fail .badCall
  | _ => .fail .badCall

def finiteIdentity : Operation
  | [size] =>
      match size.integer? with
      | some n => do
          .ofExcept (Value.checkSize n.toNat)
          return .fin ((List.range n.toNat).map fun (i : Nat) => .int i) size
      | none => .fail .badCall
  | _ => .fail .badCall

def finiteDomain : Operation
  | [.fin mapping _] => .ok (.int mapping.length)
  | [_] => .fail .notExpression
  | _ => .fail .badCall

def finiteCodomain : Operation
  | [.fin _ codomain] => .ok codomain
  | [_] => .fail .notExpression
  | _ => .fail .badCall

/-- The image of an element; negative elements count from the end. -/
def image (images : Array Value) (element : Value) : Except Failure Value :=
  match element.integer? with
  | none => .error .badCall
  | some i =>
      let place := if i < 0 then i + images.size else i
      if place < 0 then .error .missingArgument
      else match images[place.toNat]? with
        | some value => .ok value
        | none => .error .missingArgument

/-- The composite in diagrammatic order. -/
def finiteCompose : Operation
  | [.fin mapping _, .fin images codomain] => do
      let mapping ← .ofExcept (mapping.mapM (image images.toArray))
      return .fin mapping codomain
  | [_, _] => .fail .notExpression
  | _ => .fail .badCall

end TermAlgebra.Operation
