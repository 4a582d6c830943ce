import TermAlgebra.Proofs.AcceptedTheories

/-!
Looking up the declarations of a theory. Under distinct type names a type constructor is found under
its name, whichever way it is looked up; the owners of an accessor are the type constructors with a
parameter of that name. In a consistent theory every parameter of a constructor is declared, with a
type that applies a type constructor to as many arguments as it has parameters.
-/
namespace TermAlgebra

theorem lookupEntry_eq_some_of_mem {α : Type} {name : String} {value : α}
    {entries : List (String × α)} (hnodup : (entries.map Prod.fst).Nodup)
    (hmem : (name, value) ∈ entries) : lookupEntry name entries = some value := by
  induction entries with
  | nil => simp at hmem
  | cons entry rest ih =>
    obtain ⟨key, own⟩ := entry
    rw [List.map_cons, List.nodup_cons] at hnodup
    rcases List.mem_cons.mp hmem with heq | hrest
    · cases heq
      simp [lookupEntry]
    · have hne : key ≠ name := by
        rintro rfl
        exact hnodup.1 (List.mem_map.mpr ⟨(key, value), hrest, rfl⟩)
      rw [lookupEntry, if_neg hne]
      exact ih hnodup.2 hrest

theorem lookupEntry_eq_none_iff {α : Type} {name : String} {entries : List (String × α)} :
    lookupEntry name entries = none ↔ name ∉ entries.map Prod.fst := by
  induction entries with
  | nil => simp [lookupEntry]
  | cons entry rest ih =>
    obtain ⟨key, own⟩ := entry
    by_cases h : key = name
    · simp [lookupEntry, h]
    · simp [lookupEntry, h, Ne.symm h, ih]

/-- Where no key arrives again, the last datum is the only one. -/
theorem lastEntry_eq_lookupEntry {α : Type} (name : String) {entries : List (String × α)}
    (hnodup : (entries.map Prod.fst).Nodup) :
    lastEntry name entries = lookupEntry name entries := by
  induction entries with
  | nil => rfl
  | cons entry rest ih =>
    obtain ⟨key, own⟩ := entry
    rw [List.map_cons, List.nodup_cons] at hnodup
    rw [lastEntry, lookupEntry, ih hnodup.2]
    by_cases h : key = name
    · subst h
      have hnone : lookupEntry key rest = none := lookupEntry_eq_none_iff.mpr hnodup.1
      simp [hnone]
    · simp [h]

theorem mem_of_lastEntry {α : Type} {name : String} {value : α} {entries : List (String × α)}
    (h : lastEntry name entries = some value) : (name, value) ∈ entries := by
  induction entries with
  | nil => cases h
  | cons entry rest ih =>
    obtain ⟨key, own⟩ := entry
    rw [lastEntry] at h
    cases hrest : lastEntry name rest with
    | some found =>
      rw [hrest] at h
      cases h
      exact List.mem_cons_of_mem _ (ih hrest)
    | none =>
      simp only [hrest, Option.orElse_none, Option.ite_none_right_eq_some, Option.some.injEq] at h
      obtain ⟨rfl, rfl⟩ := h
      exact List.mem_cons_self

theorem exists_lastEntry {α : Type} {name : String} {entries : List (String × α)}
    (h : name ∈ entries.map Prod.fst) : ∃ value, lastEntry name entries = some value := by
  induction entries with
  | nil => cases h
  | cons entry rest ih =>
    obtain ⟨key, own⟩ := entry
    rw [lastEntry]
    cases hrest : lastEntry name rest with
    | some value => exact ⟨value, rfl⟩
    | none =>
      rcases List.mem_cons.mp h with rfl | hmem
      · exact ⟨own, by simp⟩
      · obtain ⟨value, hvalue⟩ := ih hmem
        cases hrest.symm.trans hvalue

theorem lastEntry_map {α : Type} (f : String → α) (names : List String) (name : String) :
    lastEntry name (names.map fun own => (own, f own)) =
      if name ∈ names then some (f name) else none := by
  induction names with
  | nil => rfl
  | cons own rest ih =>
    rw [List.map_cons, lastEntry, ih]
    by_cases hrest : name ∈ rest
    · simp [hrest]
    · by_cases hown : own = name
      · simp [hown, hrest]
      · simp [hrest, hown, Ne.symm hown]

theorem Table.get?_eq_some_iff {α : Type} {table : Table α} {name : String} {value : α} :
    table.get? name = some value ↔ (name, value) ∈ table.entries :=
  ⟨Table.mem_of_get?_eq_some, lookupEntry_eq_some_of_mem table.distinct⟩

theorem Table.contains_iff {α : Type} {table : Table α} {name : String} :
    table.contains name = true ↔ ∃ value, table.get? name = some value := by
  simp only [Table.contains, Table.keys, List.contains_iff_mem, List.mem_map]
  constructor
  · rintro ⟨⟨key, value⟩, hmem, rfl⟩
    exact ⟨value, Table.get?_eq_some_iff.mpr hmem⟩
  · rintro ⟨value, hget⟩
    exact ⟨(name, value), Table.mem_of_get?_eq_some hget, rfl⟩

theorem Table.mem_keys_iff {α : Type} {table : Table α} {name : String} :
    name ∈ table.keys ↔ ∃ value, table.get? name = some value := by
  rw [← contains_iff, contains, List.contains_iff_mem]

namespace Theory

variable {theory : Theory}

theorem type?_eq_some {name : String} {t : TypeConstructor} (h : theory.type? name = some t) :
    t ∈ theory.types ∧ t.name = name := by
  refine ⟨List.mem_of_find?_eq_some h, ?_⟩
  simpa using List.find?_some h

theorem type?_eq_none_iff {name : String} :
    theory.type? name = none ↔ name ∉ theory.typeNames := by
  simp only [type?, typeNames, List.find?_eq_none, decide_eq_true_eq, List.mem_map]
  constructor
  · rintro h ⟨t, ht, rfl⟩
    exact h t ht rfl
  · intro h t ht hname
    exact h ⟨t, ht, hname⟩

theorem Consistent.type_eq (h : theory.Consistent) {s t : TypeConstructor}
    (hs : s ∈ theory.types) (ht : t ∈ theory.types) (hname : s.name = t.name) : s = t :=
  List.inj_on_of_nodup_map h.typeNames_nodup hs ht hname

theorem Consistent.type?_of_mem (h : theory.Consistent) {t : TypeConstructor}
    (ht : t ∈ theory.types) : theory.type? t.name = some t := by
  cases hfind : theory.type? t.name with
  | none => exact absurd (List.mem_map.mpr ⟨t, ht, rfl⟩) (type?_eq_none_iff.mp hfind)
  | some s =>
    obtain ⟨hs, hname⟩ := type?_eq_some hfind
    rw [h.type_eq hs ht hname]

/-- The name of a type constructor is no term constructor's. -/
theorem Consistent.termsNamed_eq_nil (h : theory.Consistent) {t : TypeConstructor}
    (ht : t ∈ theory.types) : theory.termsNamed t.name = [] := by
  apply List.filter_eq_nil_iff.mpr
  intro c hc hname
  rw [decide_eq_true_eq] at hname
  exact h.term_not_type c hc (List.mem_map.mpr ⟨t, ht, hname.symm⟩)

/-- The numbers of parameters agree with the type constructors that are looked up. -/
theorem Consistent.arity?_eq (h : theory.Consistent) (name : String) :
    theory.arity? name = (theory.type? name).map (·.arity) := by
  have hnodup : ((theory.types.map fun t => (t.name, t.arity)).map Prod.fst).Nodup := by
    rw [List.map_map]
    exact h.typeNames_nodup
  rw [arity?, lastEntry_eq_lookupEntry name hnodup]
  cases hfind : theory.type? name with
  | none =>
    refine lookupEntry_eq_none_iff.mpr ?_
    rw [List.map_map]
    exact type?_eq_none_iff.mp hfind
  | some t =>
    obtain ⟨ht, rfl⟩ := type?_eq_some hfind
    exact lookupEntry_eq_some_of_mem hnodup (List.mem_map.mpr ⟨t, ht, rfl⟩)

/-- The owners of an accessor are the type constructors with a parameter of its name. -/
theorem mem_accessorOwners {name owner : String} {i : Nat} :
    (owner, i) ∈ theory.accessorOwners name ↔
      ∃ t ∈ theory.types, t.name = owner ∧ t.params[i]? = some name := by
  simp only [accessorOwners, accessorPlaces, List.mem_filterMap, List.mem_flatMap, List.mem_map]
  constructor
  · rintro ⟨place, ⟨t, ht, ⟨p, j⟩, hp, rfl⟩, hplace⟩
    simp only [Option.ite_none_right_eq_some, Option.some.injEq, Prod.mk.injEq] at hplace
    obtain ⟨rfl, rfl, rfl⟩ := hplace
    exact ⟨t, ht, rfl, List.mk_mem_zipIdx_iff_getElem?.mp hp⟩
  · rintro ⟨t, ht, rfl, hget⟩
    exact ⟨(name, t.name, i), ⟨t, ht, (name, i), List.mk_mem_zipIdx_iff_getElem?.mpr hget, rfl⟩,
      by simp⟩

theorem isAccessor_iff {name : String} :
    theory.isAccessor name = true ↔ ∃ t ∈ theory.types, name ∈ t.params := by
  simp [isAccessor]

theorem accessorOwners_eq_nil_iff {name : String} :
    theory.accessorOwners name = [] ↔ theory.isAccessor name = false := by
  rw [← Bool.not_eq_true, isAccessor_iff, List.eq_nil_iff_forall_not_mem]
  constructor
  · rintro h ⟨t, ht, hname⟩
    obtain ⟨i, hget⟩ := List.mem_iff_getElem?.mp hname
    exact h (t.name, i) (mem_accessorOwners.mpr ⟨t, ht, rfl, hget⟩)
  · rintro h ⟨owner, i⟩ hmem
    obtain ⟨t, ht, -, hget⟩ := mem_accessorOwners.mp hmem
    exact h ⟨t, ht, List.mem_of_getElem? hget⟩

/-- A type without issues. -/
theorem typeIssues_eq_nil {place : Place} {type : Term} (h : theory.typeIssues place type = []) :
    ∃ head args, type = .app head args ∧ ((head = anySort ∧ args = []) ∨
      ∃ t, theory.type? head = some t ∧ t.arity = args.length ∧
        theory.termIssuesAll place args = []) := by
  cases type with
  | var name => simp [typeIssues] at h
  | app head args =>
    refine ⟨head, args, rfl, ?_⟩
    by_cases hany : head = anySort ∧ args = []
    · exact Or.inl hany
    · right
      have hcond : ¬(head = anySort && args.isEmpty) = true := by simpa using hany
      rw [typeIssues, if_neg hcond] at h
      cases hfind : theory.type? head with
      | none => simp [hfind] at h
      | some t =>
        simp only [hfind, List.append_eq_nil_iff, ite_eq_left_iff, List.cons_ne_nil,
          imp_false, not_not] at h
        exact ⟨t, rfl, h.1, h.2⟩

/-- A constructor declares its parameters with types that have no issues; beside those of its type
constructor, a generator has the parameter for the datum. -/
theorem Consistent.typeIssues_of_get? (h : theory.Consistent) {c : TermConstructor}
    (hc : c ∈ theory.interface) {name : String} {type : Term}
    (hget : c.context.get? name = some type) : theory.typeIssues (.parameter name) type = [] := by
  rcases List.mem_append.mp hc with hterm | hgenerator
  · have hnil := h.termConstructorIssues c hterm
    simp only [Theory.termConstructorIssues, List.append_eq_nil_iff,
      List.flatMap_eq_nil_iff] at hnil
    exact hnil.1.1.1.2 (name, type) (Table.mem_of_get?_eq_some hget)
  · obtain ⟨t, ht, rfl⟩ := List.mem_map.mp hgenerator
    rw [TypeConstructor.generator, Table.get?_ofList] at hget
    rcases List.mem_cons.mp (mem_of_lastEntry hget) with heq | hentry
    · cases heq
      rfl
    · have hnil := h.typeConstructorIssues t ht
      simp only [Theory.typeConstructorIssues, List.append_eq_nil_iff,
        List.flatMap_eq_nil_iff] at hnil
      exact (hnil.2 (name, type) hentry).1

/-- A declared type applies a type constructor to as many terms as it has parameters. -/
theorem Consistent.declared_type (h : theory.Consistent) {c : TermConstructor}
    (hc : c ∈ theory.interface) {name : String} {type : Term}
    (hget : c.context.get? name = some type) :
    ∃ head args, type = .app head args ∧ ((head = anySort ∧ args = []) ∨
      ∃ t, theory.type? head = some t ∧ t.arity = args.length) := by
  obtain ⟨head, args, rfl, hany | ⟨t, ht, harity, -⟩⟩ :=
    typeIssues_eq_nil (h.typeIssues_of_get? hc hget)
  · exact ⟨head, args, rfl, Or.inl hany⟩
  · exact ⟨head, args, rfl, Or.inr ⟨t, ht, harity⟩⟩

theorem AcceptedUnshared.owners_length_le (h : theory.AcceptedUnshared) (name : String) :
    (theory.accessorOwners name).length ≤ 1 := by
  by_contra hlength
  have hne : theory.accessorOwners name ≠ [] := by
    intro hnil
    simp [hnil] at hlength
  have haccessor : theory.isAccessor name = true := by
    by_contra hnot
    exact hne (accessorOwners_eq_nil_iff.mpr (by simpa using hnot))
  have hissue : Issue.sharedAccessor name ((theory.accessorOwners name).map Prod.fst) ∈
      theory.accessorIssues name := by
    simp only [accessorIssues, List.mem_append, List.mem_ite_nil_right, List.mem_singleton]
    exact Or.inr ⟨by omega, trivial⟩
  have hfinding := mem_findings_of_name (List.mem_append.mpr (Or.inr
    (List.mem_flatMap.mpr ⟨name, mem_accessorNames.mpr haccessor, hissue⟩)))
  obtain ⟨diagnostics, hcheck, hnone⟩ := h
  exact (hnone _ ((mem_check_iff hcheck).mpr hfinding)).2 rfl

/-- An accessor that is not shared belongs to one place of one type constructor. -/
theorem AcceptedUnshared.accessorOwners_eq (h : theory.AcceptedUnshared) {t : TypeConstructor}
    (ht : t ∈ theory.types) {i : Nat} {name : String} (hget : t.params[i]? = some name) :
    theory.accessorOwners name = [(t.name, i)] := by
  have hmem : (t.name, i) ∈ theory.accessorOwners name :=
    mem_accessorOwners.mpr ⟨t, ht, rfl, hget⟩
  have hlength := h.owners_length_le name
  cases howners : theory.accessorOwners name with
  | nil => simp [howners] at hmem
  | cons owner rest =>
    rw [howners] at hlength hmem
    cases rest with
    | nil => rw [List.mem_singleton.mp hmem]
    | cons other rest => simp at hlength

end Theory
end TermAlgebra
