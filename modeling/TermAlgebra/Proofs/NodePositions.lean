import Mathlib.Data.List.Nodup
import TermAlgebra.Proofs.FunctorValues

/-!
Where the nodes of an expression stand, and which of them a functor deals with. A node that stands
in an expression more than once has several positions, and each of them counts. A functor does not
go beyond a node that its table or an action takes care of; of all positions in post-order, those
are due that are not beyond such a node, apart from those for which the table has an image.
-/
namespace TermAlgebra

/-- The places of the arguments that lead to a node. -/
abbrev Position := List Nat

namespace Value

def args : Value → List Value
  | .expr _ args _ _ => args
  | _ => []

/-- The node at a position. Data are no nodes. -/
def nodeAt? : Value → Position → Option Value
  | value, [] => if value.isExpr then some value else none
  | value, place :: position => value.args[place]?.bind fun arg => nodeAt? arg position

theorem nodeAt?_append (value : Value) (position rest : Position) :
    value.nodeAt? (position ++ rest) =
      (value.nodeAt? position).bind fun node => node.nodeAt? rest := by
  induction position generalizing value with
  | nil =>
    rw [List.nil_append, nodeAt?]
    cases hexpr : value.isExpr with
    | true => rfl
    | false =>
      have hargs : value.args = [] := by cases value <;> first | rfl | cases hexpr
      cases rest with
      | nil => simp [nodeAt?, hexpr]
      | cons place rest => simp [nodeAt?, hargs]
  | cons place position ih =>
    rw [List.cons_append, nodeAt?, nodeAt?]
    cases value.args[place]? with
    | none => rfl
    | some arg => exact ih arg

theorem isExpr_of_nodeAt? {value node : Value} {position : Position}
    (h : value.nodeAt? position = some node) : node.isExpr = true := by
  induction position generalizing value with
  | nil =>
    rw [nodeAt?, Option.ite_none_right_eq_some] at h
    cases h.2
    exact h.1
  | cons place position ih =>
    obtain ⟨arg, -, harg⟩ := Option.bind_eq_some_iff.mp h
    exact ih harg

mutual

/-- The positions of all nodes: those in the arguments from left to right, then that of the node
itself. -/
def postorder : Value → List Position
  | .expr _ args _ _ => postorderAll 0 args ++ [[]]
  | _ => []

/-- The positions in a list of arguments, the first of which has a certain place. -/
def postorderAll (place : Nat) : List Value → List Position
  | [] => []
  | value :: rest => (postorder value).map (place :: ·) ++ postorderAll (place + 1) rest

end

theorem postorder_datum {value : Value} (h : value.isExpr = false) : value.postorder = [] := by
  cases value <;> first | rfl | cases h

theorem postorderAll_eq_flatMap (place : Nat) (values : List Value) :
    postorderAll place values =
      (values.zipIdx place).flatMap fun (value, place) => value.postorder.map (place :: ·) := by
  induction values generalizing place with
  | nil => rfl
  | cons value rest ih => rw [postorderAll, ih, List.zipIdx_cons, List.flatMap_cons]

theorem mem_postorderAll {place first : Nat} {position : Position} {values : List Value} :
    place :: position ∈ postorderAll first values ↔
      ∃ value, (value, place) ∈ values.zipIdx first ∧ position ∈ value.postorder := by
  rw [postorderAll_eq_flatMap, List.mem_flatMap]
  constructor
  · rintro ⟨⟨value, place'⟩, hmem, hposition⟩
    obtain ⟨position', hmem', heq⟩ := List.mem_map.mp hposition
    cases heq
    exact ⟨value, hmem, hmem'⟩
  · rintro ⟨value, hmem, hposition⟩
    exact ⟨(value, place), hmem, List.mem_map.mpr ⟨position, hposition, rfl⟩⟩

theorem nil_not_mem_postorderAll (place : Nat) (values : List Value) :
    [] ∉ postorderAll place values := by
  rw [postorderAll_eq_flatMap]
  simp

/-- The post-order has exactly the positions at which there are nodes. -/
theorem mem_postorder {value : Value} {position : Position} :
    position ∈ value.postorder ↔ (value.nodeAt? position).isSome = true := by
  induction position generalizing value with
  | nil => cases value <;> simp [postorder, nodeAt?, isExpr]
  | cons place position ih =>
    cases value with
    | expr head args typeArgs sort =>
      have hlast : place :: position ∉ [([] : Position)] := by simp
      rw [postorder, List.mem_append, or_iff_left hlast, mem_postorderAll, nodeAt?, Value.args]
      constructor
      · rintro ⟨arg, hmem, hposition⟩
        rw [List.mem_zipIdx_iff_getElem?] at hmem
        rw [hmem, Option.bind_some]
        exact ih.mp hposition
      · intro h
        cases hget : args[place]? with
        | none => simp [hget] at h
        | some arg =>
          rw [hget, Option.bind_some] at h
          exact ⟨arg, List.mem_zipIdx_iff_getElem?.mpr hget, ih.mpr h⟩
    | _ => simp [postorder, nodeAt?, Value.args]

mutual

/-- No position comes twice. -/
theorem nodup_postorder (value : Value) : value.postorder.Nodup := by
  match value with
  | .expr head args typeArgs sort =>
    rw [postorder, List.nodup_append]
    refine ⟨nodup_postorderAll 0 args, List.nodup_singleton _, ?_⟩
    rintro position hposition _ hnil rfl
    rw [List.mem_singleton.mp hnil] at hposition
    exact nil_not_mem_postorderAll 0 args hposition
  | .null | .bool _ | .int _ | .float _ | .text _ _ | .list _ | .tuple _ | .dict _ | .fin _ _ =>
    exact List.nodup_nil

theorem nodup_postorderAll (place : Nat) (values : List Value) :
    (postorderAll place values).Nodup := by
  match values with
  | [] => exact List.nodup_nil
  | value :: rest =>
    rw [postorderAll, List.nodup_append]
    refine ⟨List.Nodup.map List.cons_injective (nodup_postorder value), nodup_postorderAll _ rest,
      ?_⟩
    rintro _ hvalue _ hrest rfl
    obtain ⟨position, -, rfl⟩ := List.mem_map.mp hvalue
    obtain ⟨_, hmem, -⟩ := mem_postorderAll.mp hrest
    have hplace := (List.mem_zipIdx hmem).1
    omega

end

end Value

section Agenda

variable (images : Images) (actions : Table NodeAction)

/-- The node is a generator that can be a key, and is one. -/
def isTabled (node : Value) : Bool :=
  match node with
  | .expr head _ _ _ =>
      head = generatorHead && node.hashable && images.any fun entry => Value.same entry.1 node
  | _ => false

/-- There is an action for nodes of this name. -/
def hasAction : Value → Bool
  | .expr head _ _ sort => (actions.get? (constructorName head sort)).isSome
  | _ => false

/-- The functor does not go beyond the node. -/
def stops (node : Value) : Bool := isTabled images node || hasAction actions node

/-- None of the nodes that enclose the position stops the functor. -/
def isReached (value : Value) (position : Position) : Bool :=
  (List.range position.length).all fun n =>
    (value.nodeAt? (position.take n)).all fun node => !stops images actions node

/-- The functor has something to do at the position: it gets there and needs more than the table. -/
def isDue (value : Value) (position : Position) : Bool :=
  isReached images actions value position && !(value.nodeAt? position).any (isTabled images)

/-- The positions at which there is something to do, in post-order. -/
def agenda (value : Value) : List Position :=
  value.postorder.filter (isDue images actions value)

/-- The positions to deal with in a list of arguments. -/
def agendaAll (place : Nat) (values : List Value) : List Position :=
  (values.zipIdx place).flatMap fun (value, place) =>
    (agenda images actions value).map (place :: ·)

variable {images actions}

theorem nodup_agenda (value : Value) : (agenda images actions value).Nodup :=
  (Value.nodup_postorder value).filter _

/-- A generator in the table is passed over wherever it stands; a composite that comes twice has its
turn twice. -/
example :
    let x := Value.expr "generator" [.text "x" false] [] "Hom"
    let y := Value.expr "generator" [.text "y" false] [] "Hom"
    let yx := Value.expr "compose" [y, x] [] "Hom"
    agenda [(x, .int 1)] .empty (.expr "otimes" [yx, x, yx] [] "Hom") =
      [[0, 0], [0], [2, 0], [2], []] := by decide

theorem agenda_datum {value : Value} (h : value.isExpr = false) :
    agenda images actions value = [] := by
  rw [agenda, Value.postorder_datum h, List.filter_nil]

theorem agendaAll_cons (place : Nat) (value : Value) (rest : List Value) :
    agendaAll images actions place (value :: rest) =
      (agenda images actions value).map (place :: ·) ++
        agendaAll images actions (place + 1) rest := by
  rw [agendaAll, List.zipIdx_cons, List.flatMap_cons, agendaAll]

theorem isSome_lookup (key : Value) (images : Images) :
    (key.lookup images).isSome = images.any fun entry => Value.same entry.1 key := by
  induction images with
  | nil => rfl
  | cons entry rest ih =>
    obtain ⟨own, image⟩ := entry
    rw [Value.lookup, List.any_cons]
    by_cases hsame : Value.Same own key
    · rw [if_pos hsame, show Value.same own key = true from hsame]
      rfl
    · rw [if_neg hsame, ih, Bool.eq_false_iff.mpr hsame, Bool.false_or]

/-- These are the nodes for which the table has an image. -/
theorem isTabled_eq_isSome (node : Value) :
    isTabled images node = (tabledImage? images node).isSome := by
  cases node with
  | expr head args typeArgs sort =>
    rw [isTabled, tabledImage?, ← isSome_lookup]
    by_cases hgenerator : head = generatorHead
    · rw [if_pos hgenerator, decide_eq_true hgenerator, Bool.true_and, generatorImage?]
      cases Value.lookup _ images <;> simp
    · rw [if_neg hgenerator, decide_eq_false hgenerator, Bool.false_and, Bool.false_and]
      rfl
  | _ => rfl

section Nodes

variable {head sort : String} {args typeArgs : List Value}

theorem isDue_root :
    isDue images actions (.expr head args typeArgs sort) [] =
      !isTabled images (.expr head args typeArgs sort) := by
  simp [isDue, isReached, Value.nodeAt?, Value.isExpr]

theorem isReached_within (place : Nat) (position : Position) :
    isReached images actions (.expr head args typeArgs sort) (place :: position) =
      (!stops images actions (.expr head args typeArgs sort) &&
        args[place]?.all fun arg => isReached images actions arg position) := by
  rw [isReached, List.length_cons, List.range_succ_eq_map, List.all_cons, List.all_map]
  congr 1
  cases hget : args[place]? with
  | none => simp [Value.nodeAt?, Value.args, hget]
  | some arg => simp [Value.nodeAt?, Value.args, hget, isReached, Function.comp_def]

theorem isDue_within {place : Nat} {arg : Value} (hget : args[place]? = some arg)
    (hopen : stops images actions (.expr head args typeArgs sort) = false)
    (position : Position) :
    isDue images actions (.expr head args typeArgs sort) (place :: position) =
      isDue images actions arg position := by
  rw [isDue, isReached_within, hopen, isDue, Value.nodeAt?, Value.args, hget, Option.bind_some]
  rfl

/-- Nothing is due beyond a node that stops the functor. -/
theorem agenda_of_stops (hstops : stops images actions (.expr head args typeArgs sort) = true) :
    agenda images actions (.expr head args typeArgs sort) =
      if isTabled images (.expr head args typeArgs sort) then [] else [[]] := by
  have hbeyond : (Value.postorderAll 0 args).filter
      (isDue images actions (.expr head args typeArgs sort)) = [] := by
    rw [List.filter_eq_nil_iff]
    intro position hmem
    cases position with
    | nil => exact absurd hmem (Value.nil_not_mem_postorderAll 0 args)
    | cons place position => simp [isDue, isReached_within, hstops]
  rw [agenda, Value.postorder, List.filter_append, hbeyond, List.nil_append, List.filter_singleton,
    isDue_root]
  cases isTabled images (.expr head args typeArgs sort) <;> rfl

theorem filter_postorderAll {values : List Value} {place : Nat}
    (hopen : stops images actions (.expr head args typeArgs sort) = false)
    (hvalues : ∀ entry ∈ values.zipIdx place, args[entry.2]? = some entry.1) :
    (Value.postorderAll place values).filter
        (isDue images actions (.expr head args typeArgs sort)) =
      agendaAll images actions place values := by
  induction values generalizing place with
  | nil => rfl
  | cons value rest ih =>
    rw [List.zipIdx_cons, List.forall_mem_cons] at hvalues
    have hvalue : (isDue images actions (.expr head args typeArgs sort) ∘ (place :: ·)) =
        isDue images actions value := funext fun position => isDue_within hvalues.1 hopen position
    rw [Value.postorderAll, List.filter_append, List.filter_map, hvalue, ih hvalues.2,
      agendaAll_cons, agenda]

/-- If the functor goes on, what is due in the arguments comes before the node. -/
theorem agenda_of_open (hopen : stops images actions (.expr head args typeArgs sort) = false) :
    agenda images actions (.expr head args typeArgs sort) =
      agendaAll images actions 0 args ++ [[]] := by
  have htabled : isTabled images (.expr head args typeArgs sort) = false :=
    (Bool.or_eq_false_iff.mp hopen).1
  rw [agenda, Value.postorder, List.filter_append, filter_postorderAll hopen fun entry hentry =>
    List.mem_zipIdx_iff_getElem?.mp hentry, List.filter_singleton, isDue_root, htabled]
  rfl

end Nodes

end Agenda

end TermAlgebra
