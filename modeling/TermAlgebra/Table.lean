/-!
Tables from names to data, in order of first arrival. A name that arrives again keeps its place and
takes the new datum.
-/
namespace TermAlgebra

def lookupEntry {α : Type} (name : String) : List (String × α) → Option α
  | [] => none
  | (key, value) :: rest => if key = name then some value else lookupEntry name rest

/-- The datum that arrived last under a name. -/
def lastEntry {α : Type} (name : String) : List (String × α) → Option α
  | [] => none
  | (key, value) :: rest =>
      (lastEntry name rest).orElse fun _ => if key = name then some value else none

def insertEntry {α : Type} (name : String) (value : α) :
    List (String × α) → List (String × α)
  | [] => [(name, value)]
  | (key, old) :: rest =>
      if key = name then (key, value) :: rest else (key, old) :: insertEntry name value rest

theorem mem_insertEntry_keys {α : Type} (name key : String) (value : α)
    (entries : List (String × α)) :
    key ∈ (insertEntry name value entries).map Prod.fst ↔
      key = name ∨ key ∈ entries.map Prod.fst := by
  induction entries with
  | nil => simp [insertEntry]
  | cons entry rest ih =>
    obtain ⟨k, old⟩ := entry
    by_cases h : k = name
    · subst h; simp [insertEntry]
    · simp only [insertEntry, if_neg h, List.map_cons, List.mem_cons, ih]
      constructor <;> (rintro (h | h | h) <;> simp [h])

theorem insertEntry_keys_nodup {α : Type} (name : String) (value : α)
    (entries : List (String × α)) (h : (entries.map Prod.fst).Nodup) :
    ((insertEntry name value entries).map Prod.fst).Nodup := by
  induction entries with
  | nil => simp [insertEntry]
  | cons entry rest ih =>
    obtain ⟨k, old⟩ := entry
    rw [List.map_cons, List.nodup_cons] at h
    by_cases hk : k = name
    · rw [insertEntry, if_pos hk, List.map_cons, List.nodup_cons]
      exact h
    · rw [insertEntry, if_neg hk, List.map_cons, List.nodup_cons]
      refine ⟨fun hmem => ?_, ih h.2⟩
      rcases (mem_insertEntry_keys name k value rest).1 hmem with heq | hmem
      · exact hk heq
      · exact h.1 hmem

structure Table (α : Type) where
  entries : List (String × α)
  distinct : (entries.map Prod.fst).Nodup

namespace Table

variable {α β : Type}

def empty : Table α := ⟨[], List.nodup_nil⟩

instance : Inhabited (Table α) := ⟨empty⟩

def insert (table : Table α) (name : String) (value : α) : Table α :=
  ⟨insertEntry name value table.entries, insertEntry_keys_nodup name value _ table.distinct⟩

def ofList (entries : List (String × α)) : Table α :=
  entries.foldl (fun table entry => table.insert entry.1 entry.2) empty

def get? (table : Table α) (name : String) : Option α := lookupEntry name table.entries

def keys (table : Table α) : List String := table.entries.map Prod.fst

def contains (table : Table α) (name : String) : Bool := table.keys.contains name

def map (f : α → β) (table : Table α) : Table β :=
  ⟨table.entries.map fun entry => (entry.1, f entry.2), by
    simpa [List.map_map, Function.comp_def] using table.distinct⟩

theorem get?_insert (table : Table α) (name key : String) (value : α) :
    (table.insert name value).get? key = if key = name then some value else table.get? key := by
  obtain ⟨entries, distinct⟩ := table
  simp only [get?, insert]
  clear distinct
  induction entries with
  | nil => simp [insertEntry, lookupEntry, eq_comm]
  | cons entry rest ih =>
    obtain ⟨k, old⟩ := entry
    by_cases hk : k = name
    · subst hk
      simp only [insertEntry, if_true, lookupEntry, eq_comm (a := key)]
      split <;> rfl
    · simp only [insertEntry, if_neg hk, lookupEntry, ih]
      split
      · rename_i h
        rw [if_neg (h ▸ hk)]
      · rfl

theorem get?_foldl_insert (table : Table α) (entries : List (String × α)) (name : String) :
    (entries.foldl (fun table entry => table.insert entry.1 entry.2) table).get? name =
      (lastEntry name entries).orElse fun _ => table.get? name := by
  induction entries generalizing table with
  | nil => rfl
  | cons entry rest ih =>
    obtain ⟨key, value⟩ := entry
    rw [List.foldl_cons, ih, get?_insert, lastEntry]
    cases lastEntry name rest <;> simp [eq_comm (a := name)]
    split <;> rfl

/-- A table made from a list answers with what arrived last. -/
theorem get?_ofList (entries : List (String × α)) (name : String) :
    (ofList entries).get? name = lastEntry name entries := by
  rw [ofList, get?_foldl_insert]
  cases lastEntry name entries <;> rfl

theorem mem_of_get?_eq_some {table : Table α} {name : String} {value : α}
    (h : table.get? name = some value) : (name, value) ∈ table.entries := by
  obtain ⟨entries, distinct⟩ := table
  simp only [get?] at h ⊢
  clear distinct
  induction entries with
  | nil => simp [lookupEntry] at h
  | cons entry rest ih =>
    obtain ⟨k, old⟩ := entry
    by_cases hk : k = name
    · simp_all [lookupEntry]
    · exact List.mem_cons_of_mem _ (ih (by simpa [lookupEntry, hk] using h))

end Table
end TermAlgebra
