import Mathlib.Data.List.Perm.Basic
import TermAlgebra.Proofs.TheoryLookups
import TermAlgebra.Theory.Domain

/-!
What the search for ways to parameters finds. The search only ever adds to the end of what it has,
so the first way to a parameter stays the first. At its end it has found the explicit parameters as
themselves and, from the first way to each parameter it reached, one way along each accessor of the
parameter's declared type that yields a variable; and nothing else.
-/
namespace TermAlgebra

section Entries

variable {α : Type} {name : String} {value : α} {entries : List (String × α)}

theorem insertEntry_of_lookupEntry_none (h : lookupEntry name entries = none) :
    insertEntry name value entries = entries ++ [(name, value)] := by
  induction entries with
  | nil => rfl
  | cons entry rest ih =>
    obtain ⟨key, old⟩ := entry
    have hkey : key ≠ name := by
      rintro rfl
      simp [lookupEntry] at h
    rw [lookupEntry, if_neg hkey] at h
    rw [insertEntry, if_neg hkey, ih h, List.cons_append]

theorem keys_insertEntry_of_lookupEntry_some {old : α}
    (h : lookupEntry name entries = some old) :
    (insertEntry name value entries).map Prod.fst = entries.map Prod.fst := by
  induction entries with
  | nil => cases h
  | cons entry rest ih =>
    obtain ⟨key, own⟩ := entry
    by_cases hkey : key = name
    · simp [insertEntry, hkey]
    · rw [lookupEntry, if_neg hkey] at h
      simp [insertEntry, hkey, ih h]

end Entries

namespace Paths

/-- All ways found, each with the parameter that it reaches. -/
def ways (found : Paths) : List (Term × String) :=
  found.entries.flatMap fun (name, paths) => paths.map fun path => (path, name)

theorem mem_ways {found : Paths} {path : Term} {name : String} :
    (path, name) ∈ ways found ↔ ∃ paths, found.get? name = some paths ∧ path ∈ paths := by
  simp only [ways, List.mem_flatMap, List.mem_map, Prod.mk.injEq, Table.get?_eq_some_iff]
  constructor
  · rintro ⟨⟨key, paths⟩, hmem, own, hpath, rfl, rfl⟩
    exact ⟨paths, hmem, hpath⟩
  · rintro ⟨paths, hmem, hpath⟩
    exact ⟨(name, paths), hmem, path, hpath, rfl, rfl⟩

theorem ways_insert_again {found : Paths} {name : String} {paths : List Term} (path : Term)
    (h : found.get? name = some paths) :
    (ways (found.insert name (paths ++ [path]))).Perm (ways found ++ [(path, name)]) := by
  obtain ⟨entries, distinct⟩ := found
  simp only [ways, Table.insert, Table.get?] at h ⊢
  clear distinct
  induction entries with
  | nil => cases h
  | cons entry rest ih =>
    obtain ⟨key, own⟩ := entry
    by_cases hkey : key = name
    · rw [lookupEntry, if_pos hkey] at h
      cases h
      subst hkey
      simp only [insertEntry, if_true, List.flatMap_cons, List.map_append, List.map_cons,
        List.map_nil, List.append_assoc]
      exact List.Perm.append_left _ List.perm_append_comm
    · rw [lookupEntry, if_neg hkey] at h
      simp only [insertEntry, if_neg hkey, List.flatMap_cons, List.append_assoc]
      exact List.Perm.append_left _ (ih h)

theorem ways_insert_new {found : Paths} {name : String} (path : Term)
    (h : found.get? name = none) :
    ways (found.insert name [path]) = ways found ++ [(path, name)] := by
  simp only [ways, Table.insert, insertEntry_of_lookupEntry_none h, List.flatMap_append,
    List.flatMap_cons, List.flatMap_nil, List.map_cons, List.map_nil, List.append_nil]

end Paths

namespace TermConstructor

variable {theory : Theory} {constructor : TermConstructor}

theorem explore_again {found : Paths} {path : Term} {name : String} {paths : List Term}
    (pending : List (Term × String)) (h : found.get? name = some paths) :
    constructor.explore theory found ((path, name) :: pending) =
      constructor.explore theory (found.insert name (paths ++ [path])) pending := by
  rw [explore.eq_2]
  split
  · rename_i paths' h'
    cases h.symm.trans h'
    rfl
  · rename_i h'
    cases h.symm.trans h'

theorem explore_new {found : Paths} {path : Term} {name : String}
    (pending : List (Term × String)) (h : found.get? name = none) :
    constructor.explore theory found ((path, name) :: pending) =
      constructor.explore theory (found.insert name [path])
        (constructor.extend theory name path ++ pending) := by
  rw [explore.eq_2]
  split
  · rename_i paths' h'
    cases h.symm.trans h'
  · rfl

/-- The ways found depend on the theory only through the accessors on declared types. -/
theorem explore_congr {theory' : Theory}
    (h : ∀ name, constructor.steps theory name = constructor.steps theory' name)
    (found : Paths) (pending : List (Term × String)) :
    constructor.explore theory found pending = constructor.explore theory' found pending := by
  induction found, pending using explore.induct theory constructor with
  | case1 found => rw [explore.eq_1, explore.eq_1]
  | case2 found path name pending paths hfound ih =>
    rw [explore_again pending hfound, explore_again pending hfound, ih]
  | case3 found path name pending hfound ih =>
    rw [explore_new pending hfound, explore_new pending hfound, ih]
    simp only [extend, h]

theorem paths_congr {theory' : Theory}
    (h : ∀ name, constructor.steps theory name = constructor.steps theory' name) :
    constructor.paths theory = constructor.paths theory' := by
  simp only [paths, explore_congr h, extend, h]

/-- Accessors yield the variables at the argument places of a type. -/
theorem mem_typeVariables {type : Term} {accessor target : String} :
    (accessor, target) ∈ theory.typeVariables type ↔
      ∃ (head : String) (args : List Term) (t : TypeConstructor) (i : Nat),
      type = .app head args ∧ theory.type? head = some t ∧ t.arity = args.length ∧
      t.params[i]? = some accessor ∧ args[i]? = some (Term.var target) := by
  cases type with
  | var name => simp [Theory.typeVariables]
  | app head args =>
    rw [Theory.typeVariables]
    cases hfind : theory.type? head with
    | none => simp [hfind]
    | some t =>
      by_cases harity : t.arity = args.length
      · simp only [if_pos harity, List.mem_filterMap]
        constructor
        · rintro ⟨⟨param, arg⟩, hmem, heq⟩
          obtain ⟨i, hi⟩ := List.mem_iff_getElem?.mp hmem
          rw [List.getElem?_zip_eq_some] at hi
          cases arg with
          | var own =>
            cases heq
            exact ⟨head, args, t, i, rfl, hfind, harity, hi⟩
          | app => cases heq
        · rintro ⟨head', args', t', i, heq, hfind', -, hparam, harg⟩
          cases heq
          cases hfind.symm.trans hfind'
          refine ⟨(accessor, .var target), ?_, rfl⟩
          exact List.mem_iff_getElem?.mpr ⟨i, List.getElem?_zip_eq_some.mpr ⟨hparam, harg⟩⟩
      · simp only [if_neg harity, List.not_mem_nil, false_iff]
        rintro ⟨head', args', t', i, heq, hfind', harity', -⟩
        cases heq
        cases hfind.symm.trans hfind'
        exact harity harity'

theorem mem_steps {name accessor target : String} :
    (accessor, target) ∈ constructor.steps theory name ↔
      ∃ (head : String) (args : List Term) (t : TypeConstructor) (i : Nat),
      constructor.context.get? name = some (.app head args) ∧ theory.type? head = some t ∧
      t.arity = args.length ∧ t.params[i]? = some accessor ∧ args[i]? = some (Term.var target) := by
  rw [steps]
  cases hget : constructor.context.get? name with
  | none => simp
  | some type =>
    simp only [Option.some.injEq]
    exact mem_typeVariables

/-- How the search ends that starts from some ways found and some pending. -/
structure Explored (theory : Theory) (constructor : TermConstructor) (found : Paths)
    (pending : List (Term × String)) (result : Paths) (added : List String) : Prop where
  keys : result.keys = found.keys ++ added
  kept : ∀ {name paths}, found.get? name = some paths →
    ∃ more, result.get? name = some (paths ++ more)
  reached : ∀ name ∈ added, ∃ path, firstPath? result name = some path
  ways : (Paths.ways result).Perm (Paths.ways found ++ pending ++ added.flatMap fun name =>
    constructor.extend theory name ((firstPath? result name).getD (.var name)))

theorem explored_nil (found : Paths) : Explored theory constructor found [] found [] where
  keys := (List.append_nil _).symm
  kept h := ⟨[], by rw [List.append_nil]; exact h⟩
  reached := by simp
  ways := by simp

theorem Explored.again {found result : Paths} {path : Term} {name : String} {paths : List Term}
    {pending : List (Term × String)} {added : List String}
    (h : Explored theory constructor (found.insert name (paths ++ [path])) pending result added)
    (hfound : found.get? name = some paths) :
    Explored theory constructor found ((path, name) :: pending) result added where
  keys := by
    rw [h.keys]
    exact congrArg (· ++ added) (keys_insertEntry_of_lookupEntry_some hfound)
  kept := by
    intro key own hown
    by_cases hkey : key = name
    · subst hkey
      cases hfound.symm.trans hown
      obtain ⟨more, hmore⟩ := h.kept
        (by rw [Table.get?_insert, if_pos rfl] : _ = some (paths ++ [path]))
      exact ⟨path :: more, by rw [hmore, List.append_assoc]; rfl⟩
    · exact h.kept (by rw [Table.get?_insert, if_neg hkey, hown])
  reached := h.reached
  ways := by
    refine h.ways.trans ?_
    refine List.Perm.append_right _ ?_
    refine ((Paths.ways_insert_again path hfound).append_right pending).trans ?_
    simp

theorem Explored.new {found result : Paths} {path : Term} {name : String}
    {pending : List (Term × String)} {added : List String}
    (h : Explored theory constructor (found.insert name [path])
      (constructor.extend theory name path ++ pending) result added)
    (hfound : found.get? name = none) :
    Explored theory constructor found ((path, name) :: pending) result (name :: added) := by
  have hfirst : firstPath? result name = some path := by
    obtain ⟨more, hmore⟩ := h.kept
      (by rw [Table.get?_insert, if_pos rfl] : _ = some [path])
    simp [firstPath?, hmore]
  refine ⟨?_, ?_, ?_, ?_⟩
  · have hkeys : (found.insert name [path]).keys = found.keys ++ [name] := by
      simp only [Table.keys, Table.insert, insertEntry_of_lookupEntry_none hfound,
        List.map_append, List.map_cons, List.map_nil]
    rw [h.keys, hkeys, List.append_assoc]
    rfl
  · intro key own hown
    have hkey : key ≠ name := by
      rintro rfl
      cases hown.symm.trans hfound
    exact h.kept (by rw [Table.get?_insert, if_neg hkey, hown])
  · intro key hkey
    rcases List.mem_cons.mp hkey with rfl | hkey
    · exact ⟨path, hfirst⟩
    · exact h.reached key hkey
  · refine h.ways.trans ?_
    rw [Paths.ways_insert_new path hfound, List.flatMap_cons, hfirst, Option.getD_some]
    simp only [List.append_assoc, List.cons_append, List.nil_append]
    refine List.Perm.append_left _ (List.Perm.cons _ ?_)
    rw [← List.append_assoc, ← List.append_assoc]
    exact List.Perm.append_right _ List.perm_append_comm

/-- Every search ends so. -/
theorem explored_explore (found : Paths) (pending : List (Term × String)) :
    ∃ added, Explored theory constructor found pending
      (constructor.explore theory found pending) added := by
  induction found, pending using explore.induct theory constructor with
  | case1 found =>
    rw [explore.eq_1]
    exact ⟨[], explored_nil found⟩
  | case2 found path name pending paths hfound ih =>
    obtain ⟨added, h⟩ := ih
    rw [explore_again pending hfound]
    exact ⟨added, h.again hfound⟩
  | case3 found path name pending hfound ih =>
    obtain ⟨added, h⟩ := ih
    rw [explore_new pending hfound]
    exact ⟨name :: added, h.new hfound⟩

/-- The explicit parameters, each reached as itself. -/
def explicitPaths (constructor : TermConstructor) : Paths :=
  .ofList (constructor.params.map fun param => (param, [.var param]))

theorem get?_explicitPaths (constructor : TermConstructor) (name : String) :
    constructor.explicitPaths.get? name =
      if name ∈ constructor.params then some [.var name] else none := by
  rw [explicitPaths, Table.get?_ofList]
  exact lastEntry_map (fun param => [Term.var param]) _ name

/-- The search from the explicit parameters and the ways one step beyond them. -/
theorem explored_paths (theory : Theory) (constructor : TermConstructor) :
    ∃ added, Explored theory constructor constructor.explicitPaths
      (constructor.params.flatMap fun param => constructor.extend theory param (.var param))
      (constructor.paths theory) added := explored_explore _ _

theorem firstPath?_of_mem_params {param : String} (hparam : param ∈ constructor.params) :
    firstPath? (constructor.paths theory) param = some (.var param) := by
  obtain ⟨added, h⟩ := explored_paths theory constructor
  obtain ⟨more, hmore⟩ := h.kept
    (by rw [get?_explicitPaths, if_pos hparam] : _ = some [Term.var param])
  simp [firstPath?, hmore]

/-- Whatever is reached is an explicit parameter or was reached on the way. -/
theorem Explored.first {pending : List (Term × String)} {result : Paths} {added : List String}
    (h : Explored theory constructor constructor.explicitPaths pending result added)
    {name : String} {paths : List Term} (hget : result.get? name = some paths) :
    name ∈ constructor.params ∨ name ∈ added := by
  have hkey : name ∈ result.keys := Table.mem_keys_iff.mpr ⟨paths, hget⟩
  rw [h.keys, List.mem_append] at hkey
  rcases hkey with hkey | hkey
  · obtain ⟨own, hown⟩ := Table.mem_keys_iff.mp hkey
    rw [get?_explicitPaths] at hown
    split at hown
    · rename_i hparam
      exact Or.inl hparam
    · cases hown
  · exact Or.inr hkey

theorem get?_paths_eq_some {name : String} {paths : List Term}
    (h : (constructor.paths theory).get? name = some paths) :
    ∃ path rest, paths = path :: rest ∧
      firstPath? (constructor.paths theory) name = some path := by
  obtain ⟨added, hexplored⟩ := explored_paths theory constructor
  have hfirst : ∃ path, firstPath? (constructor.paths theory) name = some path := by
    rcases hexplored.first h with hparam | hadded
    · exact ⟨_, firstPath?_of_mem_params hparam⟩
    · exact hexplored.reached name hadded
  obtain ⟨path, hpath⟩ := hfirst
  cases paths with
  | nil => simp [firstPath?, h] at hpath
  | cons first rest =>
    refine ⟨path, rest, ?_, hpath⟩
    simp only [firstPath?, h, Option.bind_some, List.head?_cons, Option.some.injEq] at hpath
    rw [hpath]

theorem firstPath?_mem_ways {found : Paths} {name : String} {path : Term}
    (h : firstPath? found name = some path) : (path, name) ∈ Paths.ways found := by
  obtain ⟨paths, hget, hhead⟩ := Option.bind_eq_some_iff.mp h
  exact Paths.mem_ways.mpr ⟨paths, hget, List.mem_of_head? hhead⟩

/-- A way is an explicit parameter itself, or leads from the first way to a parameter along an
accessor of its declared type. -/
theorem mem_ways_paths {path : Term} {name : String} :
    (path, name) ∈ Paths.ways (constructor.paths theory) ↔
      (name ∈ constructor.params ∧ path = .var name) ∨
      ∃ origin first accessor, firstPath? (constructor.paths theory) origin = some first ∧
        (accessor, name) ∈ constructor.steps theory origin ∧ path = .app accessor [first] := by
  obtain ⟨added, h⟩ := explored_paths theory constructor
  have hextend (origin : String) (first : Term) :
      (path, name) ∈ constructor.extend theory origin first ↔
        ∃ accessor, (accessor, name) ∈ constructor.steps theory origin ∧
          path = .app accessor [first] := by
    simp only [extend, List.mem_map, Prod.exists, Prod.mk.injEq]
    constructor
    · rintro ⟨accessor, target, hstep, rfl, rfl⟩
      exact ⟨accessor, hstep, rfl⟩
    · rintro ⟨accessor, hstep, rfl⟩
      exact ⟨accessor, name, hstep, rfl, rfl⟩
  have hexplicit : (path, name) ∈ Paths.ways constructor.explicitPaths ↔
      name ∈ constructor.params ∧ path = .var name := by
    rw [Paths.mem_ways, get?_explicitPaths]
    by_cases hparam : name ∈ constructor.params <;> simp [hparam]
  rw [h.ways.mem_iff, List.mem_append, List.mem_append, hexplicit, or_assoc]
  refine or_congr_right ⟨?_, ?_⟩
  · rintro (hpending | hadded)
    · obtain ⟨param, hparam, hmem⟩ := List.mem_flatMap.mp hpending
      obtain ⟨accessor, hstep, rfl⟩ := (hextend _ _).mp hmem
      exact ⟨param, _, accessor, firstPath?_of_mem_params hparam, hstep, rfl⟩
    · obtain ⟨origin, horigin, hmem⟩ := List.mem_flatMap.mp hadded
      obtain ⟨first, hfirst⟩ := h.reached origin horigin
      rw [hfirst, Option.getD_some] at hmem
      obtain ⟨accessor, hstep, rfl⟩ := (hextend _ _).mp hmem
      exact ⟨origin, first, accessor, hfirst, hstep, rfl⟩
  · rintro ⟨origin, first, accessor, hfirst, hstep, rfl⟩
    obtain ⟨paths, hget, -⟩ := Option.bind_eq_some_iff.mp hfirst
    rcases h.first hget with hparam | hadded
    · cases (firstPath?_of_mem_params hparam).symm.trans hfirst
      exact Or.inl (List.mem_flatMap.mpr ⟨origin, hparam, (hextend _ _).mpr ⟨accessor, hstep, rfl⟩⟩)
    · refine Or.inr (List.mem_flatMap.mpr ⟨origin, hadded, ?_⟩)
      rw [hfirst, Option.getD_some]
      exact (hextend _ _).mpr ⟨accessor, hstep, rfl⟩

/-- Ways are found by following accessors from ways found before: what holds of the explicit
parameters, and passes along accessors, holds of all ways. -/
theorem ways_induction {P : Term → String → Prop}
    (hexplicit : ∀ param ∈ constructor.params, P (.var param) param)
    (hstep : ∀ {origin first accessor name},
      firstPath? (constructor.paths theory) origin = some first → P first origin →
      (accessor, name) ∈ constructor.steps theory origin → P (.app accessor [first]) name)
    {path : Term} {name : String}
    (h : (path, name) ∈ Paths.ways (constructor.paths theory)) : P path name := by
  match path with
  | .var _ =>
    rcases mem_ways_paths.mp h with ⟨hparam, heq⟩ | ⟨_, _, _, _, _, heq⟩
    · cases heq
      exact hexplicit name hparam
    · cases heq
  | .app head args =>
    rcases mem_ways_paths.mp h with ⟨_, heq⟩ | ⟨origin, first, accessor, hfirst, hmem, heq⟩
    · cases heq
    · cases heq
      exact hstep hfirst (ways_induction hexplicit hstep (firstPath?_mem_ways hfirst)) hmem

/-- The equations that follow from the declared types relate the first way to a parameter with the
others. -/
theorem mem_derivedEquations {equation : Equation} :
    equation ∈ constructor.derivedEquations theory ↔ ∃ name first others other,
      (constructor.paths theory).get? name = some (first :: others) ∧ other ∈ others ∧
        equation = ⟨first, other⟩ := by
  simp only [derivedEquations, List.mem_flatMap, Prod.exists, Table.get?_eq_some_iff]
  constructor
  · rintro ⟨name, found, hmem, hequation⟩
    cases found with
    | nil => simp at hequation
    | cons first others =>
      obtain ⟨other, hother, rfl⟩ := List.mem_map.mp hequation
      exact ⟨name, first, others, other, hmem, hother, rfl⟩
  · rintro ⟨name, first, others, other, hmem, hother, rfl⟩
    exact ⟨name, first :: others, hmem, List.mem_map.mpr ⟨other, hother, rfl⟩⟩

end TermConstructor
end TermAlgebra
