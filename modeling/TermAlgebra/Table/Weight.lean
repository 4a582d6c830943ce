import TermAlgebra.Table

/-!
The work that a search over a table still has before it. Each entry not yet dealt with weighs one
more than what it adds to the search, so that dealing with it makes the search lighter.
-/
namespace TermAlgebra.Table

variable {α : Type}

def entriesWeight (cost : α → Nat) (done : String → Bool) : List (String × α) → Nat
  | [] => 0
  | (name, value) :: rest =>
      (if done name then 0 else cost value + 1) + entriesWeight cost done rest

def weight (table : Table α) (cost : α → Nat) (done : String → Bool) : Nat :=
  entriesWeight cost done table.entries

theorem entriesWeight_le (entries : List (String × α)) (cost : α → Nat)
    {done done' : String → Bool} (h : ∀ name, done name → done' name) :
    entriesWeight cost done' entries ≤ entriesWeight cost done entries := by
  induction entries with
  | nil => exact Nat.le_refl 0
  | cons entry rest ih =>
    have hentry := h entry.1
    by_cases hd : done entry.1
    · simp only [entriesWeight, hd, hentry hd, if_true]
      omega
    · by_cases hd' : done' entry.1 <;> simp only [entriesWeight, hd, hd', if_true] <;> omega

theorem weight_le (table : Table α) (cost : α → Nat) {done done' : String → Bool}
    (h : ∀ name, done name → done' name) : table.weight cost done' ≤ table.weight cost done :=
  entriesWeight_le table.entries cost h

/-- Dealing with an entry of the list takes off what it adds to the search, and one more. -/
theorem entriesWeight_lt (entries : List (String × α)) (cost : α → Nat)
    {done done' : String → Bool} {name : String} {value : α} (h : ∀ name, done name → done' name)
    (hmem : (name, value) ∈ entries) (hopen : done name = false) (hdone : done' name = true) :
    entriesWeight cost done' entries + cost value + 1 ≤ entriesWeight cost done entries := by
  induction entries with
  | nil => simp at hmem
  | cons entry rest ih =>
    rcases List.mem_cons.1 hmem with heq | hmem
    · subst heq
      have hrest := entriesWeight_le rest cost h
      simp only [entriesWeight, hopen, hdone, if_true, Bool.false_eq_true, if_false]
      omega
    · have hrest := ih hmem
      have hentry := h entry.1
      by_cases hd : done entry.1
      · simp only [entriesWeight, hd, hentry hd, if_true]
        omega
      · by_cases hd' : done' entry.1 <;> simp only [entriesWeight, hd, hd', if_true] <;> omega

theorem weight_lt (table : Table α) (cost : α → Nat) {done done' : String → Bool} {name : String}
    {value : α} (h : ∀ name, done name → done' name) (hget : table.get? name = some value)
    (hopen : done name = false) (hdone : done' name = true) :
    table.weight cost done' + cost value + 1 ≤ table.weight cost done :=
  entriesWeight_lt table.entries cost h (mem_of_get?_eq_some hget) hopen hdone

end TermAlgebra.Table
