import TermAlgebra.Table.Weight
import TermAlgebra.Theory.Basic

/-!
The ways to reach the parameters of a constructor. An explicit parameter is reached by its own
name. Where the declared type of a reached parameter has a variable as a type argument, the
accessor of that place, applied to the way to the parameter, is a way to the variable; the first
way found to an implicit variable leads on into the variable's own declared type. For
`compose(f::Hom(A,B), g::Hom(B,C))` the ways to `B` are `codom(f)` and `dom(g)`.
-/
namespace TermAlgebra

/-- The variables at the argument places of a type, each with the accessor of its place. -/
def Theory.typeVariables (theory : Theory) : Term → List (String × String)
  | .var _ => []
  | .app head args =>
      match theory.type? head with
      | none => []
      | some constructor =>
          if constructor.arity = args.length then
            (constructor.params.zip args).filterMap fun
              | (param, .var name) => some (param, name)
              | _ => none
          else []

/-- The ways found to each parameter, in order of discovery. -/
abbrev Paths := Table (List Term)

namespace TermConstructor

variable (theory : Theory) (constructor : TermConstructor)

/-- The accessors on a parameter, by its declared type, that yield variables. -/
def steps (name : String) : List (String × String) :=
  match constructor.context.get? name with
  | none => []
  | some type => theory.typeVariables type

/-- The ways one step beyond a way to a parameter, each with the variable that it reaches. -/
def extend (name : String) (path : Term) : List (Term × String) :=
  (constructor.steps theory name).map fun (accessor, target) => (.app accessor [path], target)

/-- What the declared types of parameters not yet reached can still add. -/
def unexplored (found : Paths) : Nat :=
  constructor.context.weight (fun type => (theory.typeVariables type).length)
    fun name => (found.get? name).isSome

theorem isSome_get?_insert {found : Paths} {name key : String} (paths : List Term)
    (h : (found.get? key).isSome) : ((found.insert name paths).get? key).isSome := by
  rw [Table.get?_insert]
  split <;> simp_all

theorem unexplored_insert_le (found : Paths) (name : String) (paths : List Term) :
    constructor.unexplored theory (found.insert name paths) ≤ constructor.unexplored theory found :=
  constructor.context.weight_le _ fun _ => isSome_get?_insert paths

theorem unexplored_insert_new {found : Paths} {name : String} (paths : List Term)
    (h : found.get? name = none) :
    constructor.unexplored theory (found.insert name paths) +
      (constructor.steps theory name).length ≤ constructor.unexplored theory found := by
  unfold steps
  split
  · exact constructor.unexplored_insert_le theory found name paths
  · rename_i type htype
    have hgrow (key : String) (hkey : (found.get? key).isSome) :
        ((found.insert name paths).get? key).isSome := isSome_get?_insert paths hkey
    have hopen : (found.get? name).isSome = false := by simp [h]
    have hdone : ((found.insert name paths).get? name).isSome = true := by
      simp [Table.get?_insert]
    have := constructor.context.weight_lt (fun type => (theory.typeVariables type).length) hgrow
      htype hopen hdone
    simp only [unexplored]
    omega

/-- Follows the pending ways in turn, depth first. -/
def explore (found : Paths) : List (Term × String) → Paths
  | [] => found
  | (path, name) :: pending =>
      match _h : found.get? name with
      | some paths => explore (found.insert name (paths ++ [path])) pending
      | none =>
          explore (found.insert name [path]) (constructor.extend theory name path ++ pending)
termination_by pending => constructor.unexplored theory found + pending.length
decreasing_by
  · have := constructor.unexplored_insert_le theory found name (paths ++ [path])
    simp only [List.length_cons]
    omega
  · have := constructor.unexplored_insert_new theory [path] _h
    simp only [List.length_cons, List.length_append, extend, List.length_map]
    omega

/-- All ways to every parameter that can be reached. -/
def paths : Paths :=
  constructor.explore theory (.ofList (constructor.params.map fun param => (param, [.var param])))
    (constructor.params.flatMap fun param => constructor.extend theory param (.var param))

/-- Replaces every reached parameter by the first way to it. -/
def firstPath? (found : Paths) (name : String) : Option Term := (found.get? name).bind List.head?

/-- The result type over the explicit parameters alone. -/
def expandedResult : Term :=
  constructor.result.subst (firstPath? (constructor.paths theory))

def expandEquation (equation : Equation) : Equation :=
  equation.subst (firstPath? (constructor.paths theory))

end TermConstructor
end TermAlgebra
