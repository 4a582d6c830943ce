import Mathlib.Algebra.BigOperators.Ring.Finset
import Mathlib.Data.Set.Card
import TermAlgebra.Proofs.ReachedParameters

/-!
The search for ways to parameters ends, enters no declared type twice, and finds each way one
accessor beyond the first way to a reached parameter exactly as often as the parameter's declared
type has a place for it. The search decides from the ways it has already found whether to enter a
type. What it finds is therefore first counted from the parameters entered along one run, and only
then from the declared types alone: the first ways settle once and for all which parameters these
are.
-/
namespace TermAlgebra

section Counting

open Classical

variable {α β : Type}

/-- How many places of a list hold an entry. -/
theorem encard_occurrences (entry : α) (entries : List α) :
    {place : Nat | entries[place]? = some entry}.encard =
      (entries.countP fun own => decide (own = entry) : Nat) := by
  induction entries with
  | nil => simp
  | cons first rest ih =>
    have hsplit : {place : Nat | (first :: rest)[place]? = some entry} =
        {place | place = 0 ∧ first = entry} ∪
          Nat.succ '' {place | rest[place]? = some entry} := by
      ext place
      cases place with
      | zero => simp
      | succ place => simp
    have hdisjoint : Disjoint {place : Nat | place = 0 ∧ first = entry}
        (Nat.succ '' {place | rest[place]? = some entry}) := by
      rw [Set.disjoint_left]
      rintro _ ⟨rfl, -⟩ ⟨place, -, hplace⟩
      cases hplace
    have hfirst : {place : Nat | place = 0 ∧ first = entry}.encard =
        if first = entry then 1 else 0 := by
      by_cases h : first = entry <;> simp [h]
    rw [hsplit, Set.encard_union_eq hdisjoint, Nat.succ_injective.encard_image, ih, hfirst,
      List.countP_cons]
    by_cases h : first = entry <;> simp [h, add_comm]

/-- Pairs are counted one first component at a time. -/
theorem encard_pairs {origins : List α} (hnodup : origins.Nodup) (Q : α → β → Prop) :
    {pair : α × β | pair.1 ∈ origins ∧ Q pair.1 pair.2}.encard =
      (origins.map fun origin => {place | Q origin place}.encard).sum := by
  induction origins with
  | nil => simp
  | cons first rest ih =>
    rw [List.nodup_cons] at hnodup
    have hsplit : {pair : α × β | pair.1 ∈ first :: rest ∧ Q pair.1 pair.2} =
        Prod.mk first '' {place | Q first place} ∪
          {pair | pair.1 ∈ rest ∧ Q pair.1 pair.2} := by
      ext ⟨origin, place⟩
      simp only [List.mem_cons, Set.mem_ofPred_eq, Set.mem_union, Set.mem_image, Prod.mk.injEq]
      constructor
      · rintro ⟨rfl | hmem, hplace⟩
        · exact Or.inl ⟨place, hplace, rfl, rfl⟩
        · exact Or.inr ⟨hmem, hplace⟩
      · rintro (⟨own, hown, rfl, rfl⟩ | ⟨hmem, hplace⟩)
        · exact ⟨Or.inl rfl, hown⟩
        · exact ⟨Or.inr hmem, hplace⟩
    have hdisjoint : Disjoint (Prod.mk first '' {place | Q first place})
        {pair : α × β | pair.1 ∈ rest ∧ Q pair.1 pair.2} := by
      rw [Set.disjoint_left]
      rintro _ ⟨place, -, rfl⟩ ⟨hmem, -⟩
      exact hnodup.1 hmem
    rw [hsplit, Set.encard_union_eq hdisjoint,
      (Prod.mk_right_injective first).encard_image, ih hnodup.2, List.map_cons, List.sum_cons]

end Counting

theorem Table.entries_foldl_insert {α : Type} (table : Table α) {entries : List (String × α)}
    (hnodup : (table.entries.map Prod.fst ++ entries.map Prod.fst).Nodup) :
    (entries.foldl (fun table entry => table.insert entry.1 entry.2) table).entries =
      table.entries ++ entries := by
  induction entries generalizing table with
  | nil => simp
  | cons entry rest ih =>
    obtain ⟨key, value⟩ := entry
    have hkey : key ∉ table.entries.map Prod.fst := fun hmem =>
      List.disjoint_of_nodup_append hnodup hmem List.mem_cons_self
    have hentries : (table.insert key value).entries = table.entries ++ [(key, value)] :=
      insertEntry_of_lookupEntry_none (lookupEntry_eq_none_iff.mpr hkey)
    rw [List.foldl_cons, ih, hentries, List.append_assoc]
    · rfl
    · simpa [hentries] using hnodup

/-- A list whose keys are distinct is its own table. -/
theorem Table.entries_ofList {α : Type} {entries : List (String × α)}
    (hnodup : (entries.map Prod.fst).Nodup) : (Table.ofList entries).entries = entries :=
  Table.entries_foldl_insert .empty (by simpa [Table.empty] using hnodup)

theorem Theory.type?_of_nodup {theory : Theory} (hnodup : theory.typeNames.Nodup)
    {t : TypeConstructor} (ht : t ∈ theory.types) : theory.type? t.name = some t := by
  cases hfind : theory.type? t.name with
  | none => exact absurd (List.mem_map.mpr ⟨t, ht, rfl⟩) (type?_eq_none_iff.mp hfind)
  | some s =>
    obtain ⟨hs, hname⟩ := type?_eq_some hfind
    rw [List.inj_on_of_nodup_map hnodup hs ht hname]

namespace Paths

/-- The ways found to a parameter. -/
def waysTo (found : Paths) (name : String) : List Term := (found.get? name).getD []

theorem mem_waysTo {found : Paths} {name : String} {path : Term} :
    path ∈ found.waysTo name ↔ (path, name) ∈ ways found := by
  rw [mem_ways, waysTo]
  cases found.get? name <;> simp

theorem waysTo_ne_nil_iff {found : Paths} {name : String} :
    found.waysTo name ≠ [] ↔ ∃ path, TermConstructor.firstPath? found name = some path := by
  rw [waysTo, TermConstructor.firstPath?]
  cases found.get? name with
  | none => simp
  | some paths => cases paths <;> simp

open Classical in
theorem countP_ways (found : Paths) (path : Term) (name : String) :
    (ways found).countP (fun way => decide (way = (path, name))) =
      (found.waysTo name).countP fun own => decide (own = path) := by
  obtain ⟨entries, distinct⟩ := found
  simp only [ways, waysTo, Table.get?]
  induction entries with
  | nil => simp [lookupEntry]
  | cons entry rest ih =>
    obtain ⟨key, own⟩ := entry
    rw [List.map_cons, List.nodup_cons] at distinct
    rw [List.flatMap_cons, List.countP_append, ih distinct.2, List.countP_map, lookupEntry]
    by_cases hkey : key = name
    · subst hkey
      rw [lookupEntry_eq_none_iff.mpr distinct.1]
      simp [Function.comp_def]
    · simp [hkey, Function.comp_def]

end Paths

namespace TermConstructor

variable {theory : Theory} {constructor : TermConstructor}

/-- The runs of the search, from the ways found and those pending to the ways found in the end,
with the parameters whose declared types the run enters, in order. -/
inductive Searches (theory : Theory) (constructor : TermConstructor) :
    Paths → List (Term × String) → List String → Paths → Prop
  | done (found : Paths) : Searches theory constructor found [] [] found
  | again {found result : Paths} {path : Term} {name : String} {paths : List Term}
      {pending : List (Term × String)} {entered : List String} :
      found.get? name = some paths →
      Searches theory constructor (found.insert name (paths ++ [path])) pending entered result →
      Searches theory constructor found ((path, name) :: pending) entered result
  | enter {found result : Paths} {path : Term} {name : String}
      {pending : List (Term × String)} {entered : List String} :
      found.get? name = none →
      Searches theory constructor (found.insert name [path])
        (constructor.extend theory name path ++ pending) entered result →
      Searches theory constructor found ((path, name) :: pending) (name :: entered) result

/-- The ways pending at the start: one accessor beyond the explicit parameters. -/
def firstSteps (theory : Theory) (constructor : TermConstructor) : List (Term × String) :=
  constructor.params.flatMap fun param => constructor.extend theory param (.var param)

/-- The search ends, whatever the declared types are. -/
theorem searches_explore (found : Paths) (pending : List (Term × String)) :
    ∃ entered, Searches theory constructor found pending entered
      (constructor.explore theory found pending) := by
  induction found, pending using explore.induct theory constructor with
  | case1 found =>
    rw [explore.eq_1]
    exact ⟨[], .done found⟩
  | case2 found path name pending paths hfound ih =>
    obtain ⟨entered, h⟩ := ih
    rw [explore_again pending hfound]
    exact ⟨entered, .again hfound h⟩
  | case3 found path name pending hfound ih =>
    obtain ⟨entered, h⟩ := ih
    rw [explore_new pending hfound]
    exact ⟨name :: entered, .enter hfound h⟩

theorem Searches.explored {found result : Paths} {pending : List (Term × String)}
    {entered : List String} (h : Searches theory constructor found pending entered result) :
    Explored theory constructor found pending result entered := by
  induction h with
  | done found => exact explored_nil found
  | again hfound _ ih => exact ih.again hfound
  | enter hfound _ ih => exact ih.new hfound

theorem Searches.eq_explore {found result : Paths} {pending : List (Term × String)}
    {entered : List String} (h : Searches theory constructor found pending entered result) :
    result = constructor.explore theory found pending := by
  induction h with
  | done found => rw [explore.eq_1]
  | again hfound _ ih => rw [explore_again _ hfound, ih]
  | enter hfound _ ih => rw [explore_new _ hfound, ih]

/-- The declared type of the origin is an application of a type constructor, and the target is its
argument at the place of the accessor. -/
def LeadsTo (theory : Theory) (constructor : TermConstructor) (origin : String) (place : Nat)
    (accessor target : String) : Prop :=
  ∃ t ∈ theory.types, ∃ args, constructor.context.get? origin = some (.app t.name args) ∧
    t.arity = args.length ∧ t.params[place]? = some accessor ∧
    args[place]? = some (Term.var target)

/-- Accessors of declared types lead from an explicit parameter to the parameter. -/
inductive Reached (theory : Theory) (constructor : TermConstructor) : String → Prop
  | explicit {param : String} : param ∈ constructor.params → Reached theory constructor param
  | along {origin target accessor : String} {place : Nat} : Reached theory constructor origin →
      LeadsTo theory constructor origin place accessor target →
      Reached theory constructor target

/-- A chain of accessors applied to an explicit parameter. -/
inductive Chain (theory : Theory) (constructor : TermConstructor) : Term → Prop
  | explicit {param : String} : param ∈ constructor.params →
      Chain theory constructor (.var param)
  | along {accessor : String} {way : Term} : theory.isAccessor accessor = true →
      Chain theory constructor way → Chain theory constructor (.app accessor [way])

theorem mem_steps_iff_leadsTo (htypes : theory.typeNames.Nodup) {origin accessor target : String} :
    (accessor, target) ∈ constructor.steps theory origin ↔
      ∃ place, LeadsTo theory constructor origin place accessor target := by
  rw [mem_steps]
  constructor
  · rintro ⟨head, args, t, place, htype, hfind, harity, hparam, harg⟩
    obtain ⟨ht, rfl⟩ := Theory.type?_eq_some hfind
    exact ⟨place, t, ht, args, htype, harity, hparam, harg⟩
  · rintro ⟨place, t, ht, args, htype, harity, hparam, harg⟩
    exact ⟨t.name, args, t, place, htype, Theory.type?_of_nodup htypes ht, harity, hparam, harg⟩

theorem LeadsTo.isAccessor {origin accessor target : String} {place : Nat}
    (h : LeadsTo theory constructor origin place accessor target) :
    theory.isAccessor accessor = true := by
  obtain ⟨t, ht, args, -, -, hparam, -⟩ := h
  exact List.any_eq_true.mpr ⟨t, ht, List.contains_iff_mem.mpr (List.mem_of_getElem? hparam)⟩

theorem leadsTo_iff (htypes : theory.typeNames.Nodup) {t : TypeConstructor} (ht : t ∈ theory.types)
    {origin : String} {args : List Term}
    (htype : constructor.context.get? origin = some (.app t.name args)) {place : Nat}
    {accessor target : String} : LeadsTo theory constructor origin place accessor target ↔
      t.arity = args.length ∧
        (t.params.zip args)[place]? = some (accessor, Term.var target) := by
  rw [List.getElem?_zip_eq_some]
  constructor
  · rintro ⟨s, hs, own, hown, harity, hparam, harg⟩
    obtain ⟨hname, rfl⟩ : t.name = s.name ∧ args = own := by simpa using htype.symm.trans hown
    obtain rfl := List.inj_on_of_nodup_map htypes ht hs hname
    exact ⟨harity, hparam, harg⟩
  · rintro ⟨harity, hparam, harg⟩
    exact ⟨t, ht, args, htype, harity, hparam, harg⟩

open Classical in
/-- A step is listed once for every place of the declared type that allows it. -/
theorem countP_steps (htypes : theory.typeNames.Nodup) (origin accessor target : String) :
    ((constructor.steps theory origin).countP
        fun step => decide (step = (accessor, target)) : Nat) =
      {place | LeadsTo theory constructor origin place accessor target}.encard := by
  rw [steps]
  cases hget : constructor.context.get? origin with
  | none => simp [LeadsTo, hget]
  | some type =>
    cases type with
    | var name => simp [LeadsTo, hget, Theory.typeVariables]
    | app head args =>
      simp only [Theory.typeVariables]
      cases hfind : theory.type? head with
      | none =>
        have hnone (place : Nat) : ¬ LeadsTo theory constructor origin place accessor target := by
          rintro ⟨t, ht, own, htype, -⟩
          cases hget.symm.trans htype
          cases hfind.symm.trans (Theory.type?_of_nodup htypes ht)
        simp [hnone]
      | some t =>
        obtain ⟨ht, rfl⟩ := Theory.type?_eq_some hfind
        by_cases harity : t.arity = args.length
        · simp only [leadsTo_iff htypes ht hget, harity, true_and, if_true, encard_occurrences]
          rw [List.countP_filterMap]
          congr 2
          funext pair
          obtain ⟨param, arg⟩ := pair
          cases arg <;> simp
        · simp [leadsTo_iff htypes ht hget, harity]

open Classical in
theorem countP_extend (htypes : theory.typeNames.Nodup) (origin accessor target : String)
    (first way : Term) :
    ((constructor.extend theory origin first).countP
        fun step => decide (step = (.app accessor [way], target)) : Nat) =
      {place | first = way ∧ LeadsTo theory constructor origin place accessor target}.encard := by
  rw [extend, List.countP_map]
  by_cases hway : first = way
  · subst hway
    simp only [true_and, ← countP_steps htypes]
    congr 2
    funext step
    simp [Prod.ext_iff]
  · simp [hway, Function.comp_def]

theorem keys_explicitPaths (hparams : constructor.params.Nodup) :
    constructor.explicitPaths.keys = constructor.params := by
  have hkeys : (constructor.params.map fun param => (param, [Term.var param])).map Prod.fst =
      constructor.params := by
    simp [List.map_map, Function.comp_def]
  rw [Table.keys, explicitPaths, Table.entries_ofList (by rwa [hkeys]), hkeys]

section Run

variable {entered : List String} {result : Paths}
  (hrun : Searches theory constructor constructor.explicitPaths (constructor.firstSteps theory)
    entered result)

include hrun

theorem Searches.eq_paths : result = constructor.paths theory := hrun.eq_explore

/-- The parameters reached are the explicit ones and those entered, each once. -/
theorem Searches.nodup (hparams : constructor.params.Nodup) :
    (constructor.params ++ entered).Nodup := by
  rw [← keys_explicitPaths hparams, ← hrun.explored.keys]
  exact result.distinct

theorem Searches.exists_first {name : String} (h : name ∈ constructor.params ++ entered) :
    ∃ first, firstPath? result name = some first := by
  rcases List.mem_append.mp h with hparam | hentered
  · exact ⟨_, hrun.eq_paths ▸ firstPath?_of_mem_params hparam⟩
  · exact hrun.explored.reached name hentered

theorem Searches.mem_of_first {name : String} {first : Term}
    (h : firstPath? result name = some first) : name ∈ constructor.params ++ entered := by
  obtain ⟨paths, hget, -⟩ := Option.bind_eq_some_iff.mp h
  exact List.mem_append.mpr (hrun.explored.first hget)

/-- Every way was pending one accessor beyond the first way to a reached parameter. -/
theorem Searches.ways_perm : (Paths.ways result).Perm (Paths.ways constructor.explicitPaths ++
    (constructor.params ++ entered).flatMap fun name =>
      constructor.extend theory name ((firstPath? result name).getD (.var name))) := by
  have hfirst : constructor.firstSteps theory = constructor.params.flatMap fun name =>
      constructor.extend theory name ((firstPath? result name).getD (.var name)) := by
    rw [firstSteps, List.flatMap_congr]
    intro param hparam
    rw [hrun.eq_paths, firstPath?_of_mem_params hparam, Option.getD_some]
  rw [List.flatMap_append, ← hfirst, ← List.append_assoc]
  exact hrun.explored.ways

/-- A way along an accessor is found once for every place of the declared type of a parameter
reached first by the rest of the way. -/
theorem Searches.encard_along (htypes : theory.typeNames.Nodup)
    (hparams : constructor.params.Nodup) (accessor target : String) (way : Term) :
    {place : Nat | (result.waysTo target)[place]? = some (.app accessor [way])}.encard =
      {step : String × Nat | firstPath? result step.1 = some way ∧
        LeadsTo theory constructor step.1 step.2 accessor target}.encard := by
  classical
  have hexplicit : (Paths.ways constructor.explicitPaths).countP
      (fun own => decide (own = (.app accessor [way], target))) = 0 := by
    rw [Paths.countP_ways, List.countP_eq_zero, Paths.waysTo, get?_explicitPaths]
    split <;> simp
  have hreached (origin : String) (hmem : origin ∈ constructor.params ++ entered) :
      ((constructor.extend theory origin ((firstPath? result origin).getD (.var origin))).countP
        (fun own => decide (own = (.app accessor [way], target))) : ENat) =
      {place | firstPath? result origin = some way ∧
        LeadsTo theory constructor origin place accessor target}.encard := by
    obtain ⟨first, hfirst⟩ := hrun.exists_first hmem
    simp only [hfirst, Option.getD_some, Option.some.injEq]
    exact countP_extend htypes origin accessor target first way
  -- A parameter that has a way is explicit or was entered, so the run knows every origin.
  have horigin : {step : String × Nat | firstPath? result step.1 = some way ∧
        LeadsTo theory constructor step.1 step.2 accessor target} =
      {step : String × Nat | step.1 ∈ constructor.params ++ entered ∧
        firstPath? result step.1 = some way ∧
          LeadsTo theory constructor step.1 step.2 accessor target} := by
    ext step
    exact ⟨fun h => ⟨hrun.mem_of_first h.1, h⟩, fun h => h.2⟩
  rw [encard_occurrences, ← Paths.countP_ways, hrun.ways_perm.countP_eq, List.countP_append,
    hexplicit, Nat.zero_add, List.countP_flatMap, Nat.cast_list_sum, List.map_map, horigin,
    encard_pairs (hrun.nodup hparams) fun origin place => firstPath? result origin = some way ∧
      LeadsTo theory constructor origin place accessor target]
  exact congrArg List.sum (List.map_congr_left hreached)

end Run

/-- The ways found are the direct ways along the accessors of declared types. -/
structure Direct (theory : Theory) (constructor : TermConstructor) (found : Paths) : Prop where
  explicit : ∀ param ∈ constructor.params,
    ∃ others, found.waysTo param = .var param :: others
  chain : ∀ name, ∀ way ∈ found.waysTo name, Chain theory constructor way
  along : ∀ accessor way name, .app accessor [way] ∈ found.waysTo name ↔
    ∃ origin place, firstPath? found origin = some way ∧
      LeadsTo theory constructor origin place accessor name
  often : ∀ accessor way name,
    {place : Nat | (found.waysTo name)[place]? = some (.app accessor [way])}.encard =
      {step : String × Nat | firstPath? found step.1 = some way ∧
        LeadsTo theory constructor step.1 step.2 accessor name}.encard
  reached : ∀ name, found.waysTo name ≠ [] ↔ Reached theory constructor name

theorem explicit_waysTo {param : String} (hparam : param ∈ constructor.params) :
    ∃ others, (constructor.paths theory).waysTo param = .var param :: others := by
  have hfirst : firstPath? (constructor.paths theory) param = some (.var param) :=
    firstPath?_of_mem_params hparam
  obtain ⟨paths, hget, hhead⟩ := Option.bind_eq_some_iff.mp hfirst
  obtain ⟨others, rfl⟩ := List.head?_eq_some_iff.mp hhead
  exact ⟨others, by rw [Paths.waysTo, hget, Option.getD_some]⟩

theorem along_mem_waysTo (htypes : theory.typeNames.Nodup) {accessor name : String} {way : Term} :
    .app accessor [way] ∈ (constructor.paths theory).waysTo name ↔
      ∃ origin place, firstPath? (constructor.paths theory) origin = some way ∧
        LeadsTo theory constructor origin place accessor name := by
  rw [Paths.mem_waysTo, mem_ways_paths]
  constructor
  · rintro (⟨-, hway⟩ | ⟨origin, first, own, hfirst, hstep, hway⟩)
    · cases hway
    · obtain ⟨rfl, rfl⟩ : accessor = own ∧ way = first := by simpa using hway
      obtain ⟨place, hplace⟩ := (mem_steps_iff_leadsTo htypes).mp hstep
      exact ⟨origin, place, hfirst, hplace⟩
  · rintro ⟨origin, place, hfirst, hplace⟩
    exact Or.inr ⟨origin, way, accessor, hfirst,
      (mem_steps_iff_leadsTo htypes).mpr ⟨place, hplace⟩, rfl⟩

theorem chain_of_mem_ways (htypes : theory.typeNames.Nodup) {way : Term} {name : String}
    (h : (way, name) ∈ Paths.ways (constructor.paths theory)) :
    Chain theory constructor way ∧ Reached theory constructor name := by
  refine ways_induction (P := fun way name => Chain theory constructor way ∧
    Reached theory constructor name) ?_ ?_ h
  · intro param hparam
    exact ⟨.explicit hparam, .explicit hparam⟩
  · rintro origin first accessor name - ⟨hchain, hreached⟩ hstep
    obtain ⟨place, hplace⟩ := (mem_steps_iff_leadsTo htypes).mp hstep
    exact ⟨.along hplace.isAccessor hchain, .along hreached hplace⟩

theorem Reached.exists_first (htypes : theory.typeNames.Nodup) {name : String}
    (h : Reached theory constructor name) :
    ∃ first, firstPath? (constructor.paths theory) name = some first := by
  induction h with
  | explicit hparam => exact ⟨_, firstPath?_of_mem_params hparam⟩
  | along _ hplace ih =>
    obtain ⟨first, hfirst⟩ := ih
    have hmem := (along_mem_waysTo htypes).mpr ⟨_, _, hfirst, hplace⟩
    exact Paths.waysTo_ne_nil_iff.mp (List.ne_nil_of_mem hmem)

/-- The search ends, and however it ran, it entered the declared type of no parameter twice and of
no explicit one again, and found exactly the direct ways. -/
theorem direct_of_searches (htypes : theory.typeNames.Nodup)
    (hparams : constructor.params.Nodup) :
    (∃ entered, Searches theory constructor constructor.explicitPaths
      (constructor.firstSteps theory) entered (constructor.paths theory)) ∧
    ∀ entered result, Searches theory constructor constructor.explicitPaths
        (constructor.firstSteps theory) entered result →
      result = constructor.paths theory ∧ entered.Nodup ∧
        (∀ name ∈ entered, name ∉ constructor.params) ∧ Direct theory constructor result := by
  refine ⟨searches_explore _ _, fun entered result hrun => ?_⟩
  have hnodup := List.nodup_append'.mp (hrun.nodup hparams)
  refine ⟨hrun.eq_paths, hnodup.2.1, fun name hentered hparam => hnodup.2.2 hparam hentered, ?_⟩
  have hoften := hrun.encard_along htypes hparams
  obtain rfl := hrun.eq_paths
  refine ⟨fun _ => explicit_waysTo, ?_, fun _ _ _ => along_mem_waysTo htypes,
    fun accessor way name => hoften accessor name way, ?_⟩
  · intro name way hway
    exact (chain_of_mem_ways htypes (Paths.mem_waysTo.mp hway)).1
  · intro name
    rw [Paths.waysTo_ne_nil_iff]
    constructor
    · rintro ⟨first, hfirst⟩
      exact (chain_of_mem_ways htypes (firstPath?_mem_ways hfirst)).2
    · exact Reached.exists_first htypes

def span : TypeConstructor where
  name := "Span"
  params := ["left", "right"]
  context := .ofList [("left", .app anySort []), ("right", .app anySort [])]

def spans : Theory where
  name := "Spans"
  types := [span]
  terms := []

/-- A span whose ends are declared in a circle. -/
def circle : TermConstructor where
  name := "circle"
  params := ["x"]
  result := .app "Span" [.var "y", .var "z"]
  context := .ofList [("x", .app "Span" [.var "y", .var "y"]),
    ("y", .app "Span" [.var "z", .var "x"]), ("z", .app "Span" [.var "z", .var "y"])]

theorem direct_circle : spans.typeNames.Nodup ∧ circle.params.Nodup ∧
    ∃ entered, Searches spans circle circle.explicitPaths (circle.firstSteps spans) entered
        (circle.paths spans) ∧
      entered.Nodup ∧ Direct spans circle (circle.paths spans) := by
  have htypes : spans.typeNames.Nodup := by decide
  have hparams : circle.params.Nodup := by decide
  obtain ⟨⟨entered, hrun⟩, hall⟩ := direct_of_searches htypes hparams
  obtain ⟨-, hnodup, -, hdirect⟩ := hall entered _ hrun
  exact ⟨htypes, hparams, entered, hrun, hnodup, hdirect⟩

end TermConstructor
end TermAlgebra
