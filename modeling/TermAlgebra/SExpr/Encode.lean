import TermAlgebra.Value.Parts

/-!
S-expressions. An expression is encoded as a list of the name under which it is rebuilt and its
encoded arguments. Truth values, numbers, texts and nothing encode as themselves, and other data
as their text. A generator whose datum is known by reference is encoded as the datum alone.
-/
namespace TermAlgebra.SExpr

def encodeDatum (value : Value) : Value :=
  match value with
  | .null => value
  | .bool _ => value
  | .int _ => value
  | .float _ => value
  | .text .. => value
  | value => .str value.repr

mutual

def encode : Value → Value
  | .expr head args _ sort => .list (.str (constructorName head sort) :: encodeAll args)
  | value => encodeDatum value

def encodeAll : List Value → List Value
  | [] => []
  | value :: rest => encode value :: encodeAll rest

end

variable (byReference : Value → Bool)

mutual

/-- A generator without a datum cannot be asked about. -/
def encodeReferring : Value → Except Failure Value
  | .expr head args _ sort =>
      if head = generatorHead then
        match args with
        | [] => .error .missingArgument
        | datum :: rest =>
            if byReference datum then .ok (encode datum)
            else do
              let first ← encodeReferring datum
              let others ← encodeReferringAll rest
              return .list (.str sort :: first :: others)
      else do
        let items ← encodeReferringAll args
        return .list (.str head :: items)
  | value => .ok (encodeDatum value)

def encodeReferringAll : List Value → Except Failure (List Value)
  | [] => .ok []
  | value :: rest => do
      let first ← encodeReferring value
      let others ← encodeReferringAll rest
      return first :: others

end

end TermAlgebra.SExpr
