import TermAlgebra.Table
import TermAlgebra.Text.Digit

/-!
Reading command line arguments by a grammar of options and positional arguments. An argument that
begins with a dash is an option unless it is a lone dash, a negative number or holds a space. A long
option may be shortened as far as it stays unambiguous, a value may be attached with an equals sign,
and short options without values may share a dash. After a double dash everything is positional.
-/
namespace TermAlgebra.CommandLine

/-- Reading ends early with a request for help or a breach of the grammar. -/
inductive Stop where
  | help
  | misuse
deriving DecidableEq

inductive Effect where
  | help
  | flag (key : String)
  | value (key : String) (choices? : Option (List String))

structure OptionRule where
  names : List String
  effect : Effect

def OptionRule.takesValue (rule : OptionRule) : Bool :=
  match rule.effect with
  | .value .. => true
  | _ => false

/-- Each positional argument is kept under its key. A grammar that takes commands hands everything
from the first positional argument on to the command. -/
structure Grammar where
  options : List OptionRule
  positionals : List String := []
  takesCommand : Bool := false
  required : List String := []

/-- An argument that is an option, as far as it is known to the grammar, with the text attached to
it. -/
structure Match where
  rule? : Option OptionRule
  name : String
  attached? : Option (List Char) := none

inductive Item where
  | positional (text : String)
  | doubleDash
  | option (text : String) (found : Match)

def Item.text : Item → String
  | .positional text => text
  | .doubleDash => "--"
  | .option text _ => text

/-- The parts before and after the first equals sign. -/
def splitValue : List Char → List Char × Option (List Char)
  | [] => ([], none)
  | '=' :: rest => ([], some rest)
  | c :: rest => (c :: (splitValue rest).1, (splitValue rest).2)

/-- The text without a line feed at its end. -/
def withoutLineEnd (text : List Char) : List Char :=
  if text.getLast? = some '\n' then text.dropLast else text

/-- Digits of any script may stand before and after the point. -/
def isNegativeNumber (text : List Char) : Bool :=
  match withoutLineEnd text with
  | '-' :: rest =>
      match rest.dropWhile Text.isDigit with
      | [] => !rest.isEmpty
      | '.' :: fraction => !fraction.isEmpty && fraction.all Text.isDigit
      | _ => false
  | _ => false

namespace Grammar

variable (grammar : Grammar)

def named? (name : String) : Option OptionRule :=
  grammar.options.find? fun rule => rule.names.contains name

/-- The options that a shortened argument can stand for. -/
def candidates (text : List Char) : List Match :=
  grammar.options.flatMap fun rule => rule.names.filterMap fun name =>
    match text with
    | '-' :: '-' :: _ =>
        let (start, attached?) := splitValue text
        if start.isPrefixOf name.toList then some ⟨some rule, name, attached?⟩ else none
    | _ =>
        if text.take 2 = name.toList then some ⟨some rule, name, some (text.drop 2)⟩
        else if text.isPrefixOf name.toList then some ⟨some rule, name, none⟩
        else none

/-- The option that an argument is, if it is one. -/
def option? (text : String) : Except Stop (Option Match) :=
  let characters := text.toList
  let (start, attached?) := splitValue characters
  if characters.head? ≠ some '-' then .ok none
  else match grammar.named? text with
    | some rule => .ok (some ⟨some rule, text, none⟩)
    | none =>
        if characters.length = 1 then .ok none
        else match grammar.named? (String.ofList start), attached? with
          | some rule, some value => .ok (some ⟨some rule, String.ofList start, some value⟩)
          | _, _ =>
              match grammar.candidates characters with
              | [found] => .ok (some found)
              | _ :: _ => .error .misuse
              | [] =>
                  if isNegativeNumber characters || characters.contains ' ' then .ok none
                  else .ok (some ⟨none, text, none⟩)

def items : List String → Except Stop (List Item)
  | [] => .ok []
  | text :: rest =>
      if text = "--" then .ok (.doubleDash :: rest.map .positional)
      else do
        let item := match ← grammar.option? text with
          | some found => Item.option text found
          | none => Item.positional text
        return item :: (← items rest)

/-- What the options of one argument amount to: the options with their attached values, and an
option that may still take the following argument. -/
structure Cluster where
  uses : List (OptionRule × Option (List Char)) := []
  last? : Option OptionRule := none

/-- The options that share the dash of an option with a text attached to it. Only short options
without values can share theirs, and every further character must be a short option too. -/
def cluster (rule : OptionRule) (short : Bool) : List Char → Except Stop Cluster
  | [] => if rule.takesValue then .ok { uses := [(rule, some [])] } else .error .misuse
  | c :: rest =>
      if rule.takesValue then .ok { uses := [(rule, some (c :: rest))] }
      else if !short then .error .misuse
      else match grammar.named? (String.ofList ['-', c]) with
        | none => .error .misuse
        | some next =>
            if rest.isEmpty then .ok { uses := [(rule, none)], last? := some next }
            else do
              let others ← cluster next true rest
              return { others with uses := (rule, none) :: others.uses }

/-- Whether a single dash begins the name of an option. -/
def isShort (name : String) : Bool := (name.toList.drop 1).head? ≠ some '-'

def clusterOf (rule : OptionRule) (found : Match) : Except Stop Cluster :=
  match found.attached? with
  | none => .ok { last? := some rule }
  | some attached => grammar.cluster rule (isShort found.name) attached

end Grammar

/-- What has been read so far. A value is missing where an option was given with nothing but a
double dash for its value. -/
structure Parsed where
  values : Table (Option String) := .empty
  flags : List String := []
  command? : Option (List String) := none
  extras : List String := []

namespace Parsed

def setValue (parsed : Parsed) (key : String) (value? : Option String) : Parsed :=
  { parsed with values := parsed.values.insert key value? }

/-- A double dash is taken out of the value of an option, so that nothing is left of it. -/
def use (parsed : Parsed) (rule : OptionRule) (value : List Char) : Except Stop Parsed :=
  match rule.effect with
  | .help => .error .help
  | .flag key => .ok { parsed with flags := key :: parsed.flags }
  | .value key choices? =>
      let text := String.ofList value
      if text = "--" then .ok (parsed.setValue key none)
      else if choices?.all fun choices => choices.contains text then
        .ok (parsed.setValue key (some text))
      else .error .misuse

def useAll (parsed : Parsed) (uses : List (OptionRule × Option (List Char))) :
    Except Stop Parsed :=
  uses.foldlM (fun parsed (rule, value?) => parsed.use rule (value?.getD [])) parsed

end Parsed

/-- A positional argument together with a double dash on either side. -/
def takePositional? : List Item → Option (String × List Item)
  | .doubleDash :: .positional text :: rest => some (text, rest)
  | .positional text :: .doubleDash :: rest => some (text, rest)
  | .positional text :: rest => some (text, rest)
  | _ => none

theorem takePositional?_length {items rest : List Item} {text : String}
    (h : takePositional? items = some (text, rest)) : rest.length < items.length := by
  unfold takePositional? at h
  split at h <;> simp only [Option.some.injEq, Prod.mk.injEq, reduceCtorEq] at h <;>
    obtain ⟨_, rfl⟩ := h <;> simp only [List.length_cons] <;> omega

namespace Grammar

variable (grammar : Grammar)

/-- Reads the items in order; `due` holds the keys of the positional arguments to come. -/
def readItems (parsed : Parsed) (due : List String) : List Item → Except Stop Parsed
  | [] => .ok parsed
  | .option text found :: rest =>
      match found.rule? with
      | none => readItems { parsed with extras := parsed.extras ++ [text] } due rest
      | some rule =>
          match grammar.clusterOf rule found with
          | .error stop => .error stop
          | .ok cluster =>
              match cluster.last? with
              | none =>
                  match parsed.useAll cluster.uses with
                  | .error stop => .error stop
                  | .ok parsed => readItems parsed due rest
              | some last =>
                  if last.takesValue then
                    match rest with
                    | .positional value :: rest =>
                        match parsed.useAll (cluster.uses ++ [(last, some value.toList)]) with
                        | .error stop => .error stop
                        | .ok parsed => readItems parsed due rest
                    | _ => .error .misuse
                  else
                    match parsed.useAll (cluster.uses ++ [(last, none)]) with
                    | .error stop => .error stop
                    | .ok parsed => readItems parsed due rest
  | item :: rest =>
      match _h : takePositional? (item :: rest), due with
      | some (text, after), key :: due =>
          readItems (parsed.setValue key (some text)) due after
      | some _, [] =>
          if grammar.takesCommand then
            .ok { parsed with command? := some ((item :: rest).map Item.text) }
          else readItems { parsed with extras := parsed.extras ++ [item.text] } due rest
      | none, due => readItems { parsed with extras := parsed.extras ++ [item.text] } due rest
termination_by items => items.length
decreasing_by
  all_goals first
    | exact takePositional?_length _h
    | simp only [List.length_cons]; omega

/-- Reads all arguments. Whatever is required must be there; what is not understood is kept. -/
def read (args : List String) : Except Stop Parsed := do
  let items ← grammar.items args
  let parsed ← grammar.readItems {} grammar.positionals items
  if grammar.required.all parsed.values.contains then return parsed else throw .misuse

end Grammar
end TermAlgebra.CommandLine
