import TermAlgebra.Table.Weight
import TermAlgebra.Theory.Paths

/-!
Building a nullary term builds the nullary terms in its expanded result type. The search below finds
the names whose construction comes back to themselves.
-/
namespace TermAlgebra

namespace Term

variable (isConstant : String → Bool)

mutual

/-- The constants applied anywhere in a term. -/
def constantsIn : Term → List String
  | .var _ => []
  | .app head args =>
      (if args.isEmpty && isConstant head then [head] else []) ++ constantsInAll args

def constantsInAll : List Term → List String
  | [] => []
  | term :: rest => constantsIn term ++ constantsInAll rest

end

end Term

/-- Names with the names next to them. -/
abbrev Graph := Table (List String)

namespace Graph

def next (graph : Graph) (name : String) : List String := (Table.get? graph name).getD []

/-- What the names not yet seen can still add. -/
def unseen (graph : Graph) (seen : List String) : Nat :=
  graph.weight List.length seen.contains

/-- Whether the target can be reached from the pending names, these included. What is next to a name
is searched before the names that were pending beside it, and a name is searched once: the names
that were seen before lead to the target only through pending ones. -/
def reaches (graph : Graph) (target : String) (seen : List String) : List String → Bool
  | [] => false
  | name :: pending =>
      if name = target then true
      else if _h : seen.contains name then reaches graph target seen pending
      else reaches graph target (name :: seen) (graph.next name ++ pending)
termination_by pending => graph.unseen seen + pending.length
decreasing_by
  · simp
  · have hgrow (key : String) (hkey : seen.contains key) : (name :: seen).contains key := by
      simp_all
    simp only [unseen, next, List.length_cons, List.length_append]
    cases hnext : Table.get? graph name with
    | none =>
      have := Table.weight_le graph List.length hgrow
      simp only [Option.getD_none, List.length_nil]
      omega
    | some targets =>
      have := Table.weight_lt graph List.length hgrow hnext (by simpa using _h) (by simp)
      simp only [Option.getD_some]
      omega

/-- Whether one step or more lead from the name back to itself. -/
def onCycle (graph : Graph) (name : String) : Bool := graph.reaches name [] (graph.next name)

end Graph

namespace Theory

variable (theory : Theory)

def isConstant (name : String) : Bool := (theory.termsNamed name).any (·.isNullary)

/-- From each nullary constructor to the constants in the expanded result types of its nullary
declarations. -/
def constantGraph : Graph :=
  (theory.terms.filter (·.isNullary)).foldl (fun graph constructor =>
    graph.insert constructor.name (graph.next constructor.name ++
      (constructor.expandedResult theory).constantsIn theory.isConstant)) Table.empty

end Theory
end TermAlgebra
