import Mathlib.Data.List.Forall2
import TermAlgebra.Value.Equality

/-!
Equality of values is an equivalence, except at two places. A datum without a number does not equal
itself when it is compared directly, and a dictionary is compared by looking up each of its keys,
which is symmetric only because its keys are distinct. Values without either are regular.
-/
namespace TermAlgebra

/-- If each element of a list meets one of a list of the same length, and no two meet the same one,
then every element of the second list is met. -/
theorem exists_of_pairwise_apart {α β : Type} {R : α → β → Prop} {as : List α} {bs : List β}
    (hlength : as.length = bs.length) (hapart : as.Pairwise fun a a' => ∀ b, R a b → ¬R a' b)
    (h : ∀ a ∈ as, ∃ b ∈ bs, R a b) : ∀ b ∈ bs, ∃ a ∈ as, R a b := by
  induction as generalizing bs with
  | nil =>
    cases List.length_eq_zero_iff.mp hlength.symm
    simp
  | cons a rest ih =>
    rw [List.pairwise_cons] at hapart
    obtain ⟨b, hb, hab⟩ := h a List.mem_cons_self
    obtain ⟨before, after, rfl⟩ := List.append_of_mem hb
    have hrest : ∀ a' ∈ rest, ∃ b' ∈ before ++ after, R a' b' := by
      intro a' ha'
      obtain ⟨b', hb', hab'⟩ := h a' (List.mem_cons_of_mem _ ha')
      simp only [List.mem_append, List.mem_cons] at hb' ⊢
      rcases hb' with hb' | rfl | hb'
      · exact ⟨b', Or.inl hb', hab'⟩
      · exact absurd hab' (hapart.1 a' ha' b' hab)
      · exact ⟨b', Or.inr hb', hab'⟩
    have hlength' : rest.length = (before ++ after).length := by
      simp only [List.length_cons, List.length_append] at hlength ⊢
      omega
    intro b' hb'
    simp only [List.mem_append, List.mem_cons] at hb'
    rcases hb' with hb' | rfl | hb'
    · obtain ⟨a', ha', hR⟩ := ih hlength' hapart.2 hrest b' (List.mem_append_left _ hb')
      exact ⟨a', List.mem_cons_of_mem _ ha', hR⟩
    · exact ⟨a, List.mem_cons_self, hab⟩
    · obtain ⟨a', ha', hR⟩ := ih hlength' hapart.2 hrest b' (List.mem_append_right _ hb')
      exact ⟨a', List.mem_cons_of_mem _ ha', hR⟩

namespace Value

theorem sameAll_iff {as bs : List Value} : sameAll as bs = true ↔ List.Forall₂ Same as bs := by
  induction as generalizing bs with
  | nil => cases bs <;> simp [sameAll]
  | cons a as ih => cases bs <;> simp [sameAll, ih, Same]

theorem sameEntries_iff {entries entries' : List (Value × Value)} :
    sameEntries entries entries' = true ↔
      ∀ e ∈ entries, ∃ e' ∈ entries', Same e.1 e'.1 ∧ Same e.2 e'.2 := by
  induction entries with
  | nil => simp [sameEntries]
  | cons e rest ih =>
    obtain ⟨key, value⟩ := e
    simp only [sameEntries, Bool.and_eq_true, List.any_eq_true, ih, List.forall_mem_cons, Same]

section Shapes

variable {b : Value}

theorem same_null_iff : Same .null b ↔ b = .null := by
  cases b <;> simp [Same, same, number?]

theorem same_text_iff {characters : String} {symbolic : Bool} :
    Same (.text characters symbolic) b ↔ ∃ symbolic', b = .text characters symbolic' := by
  cases b <;> simp [Same, same, number?]
  exact eq_comm

/-- Numbers of all kinds are the same when they have the same value. -/
theorem same_number_iff {a : Value} {number : Number} (h : a.number? = some number) :
    Same a b ↔ b.number? = some number := by
  rw [Same]
  cases a <;> cases b <;> simp_all [same, number?]
  all_goals exact eq_comm

theorem same_list_iff {items : List Value} :
    Same (.list items) b ↔ ∃ items', b = .list items' ∧ List.Forall₂ Same items items' := by
  cases b <;> simp [Same, same, number?, sameAll_iff]

theorem same_tuple_iff {items : List Value} :
    Same (.tuple items) b ↔ ∃ items', b = .tuple items' ∧ List.Forall₂ Same items items' := by
  cases b <;> simp [Same, same, number?, sameAll_iff]

theorem same_dict_iff {entries : List (Value × Value)} :
    Same (.dict entries) b ↔ ∃ entries', b = .dict entries' ∧
      entries.length = entries'.length ∧
      ∀ e ∈ entries, ∃ e' ∈ entries', Same e.1 e'.1 ∧ Same e.2 e'.2 := by
  cases b <;> simp [Same, same, number?, sameEntries_iff]

theorem same_fin_iff {mapping : List Value} {codomain : Value} :
    Same (.fin mapping codomain) b ↔ ∃ mapping' codomain', b = .fin mapping' codomain' ∧
      List.Forall₂ Same mapping mapping' ∧ Same codomain codomain' := by
  cases b <;> simp [Same, same, number?, sameAll_iff]

theorem same_expr_iff {head : String} {args typeArgs : List Value} {sort : String} :
    Same (.expr head args typeArgs sort) b ↔ ∃ args' typeArgs' sort',
      b = .expr head args' typeArgs' sort' ∧ List.Forall₂ Same args args' ∧
        List.Forall₂ Same typeArgs typeArgs' := by
  cases b <;> simp [Same, same, number?, sameAll_iff]
  rw [and_assoc, eq_comm (a := head)]

end Shapes

theorem same_expr {head head' sort sort' : String} {args args' typeArgs typeArgs' : List Value} :
    Same (.expr head args typeArgs sort) (.expr head' args' typeArgs' sort') ↔
      head = head' ∧ List.Forall₂ Same args args' ∧ List.Forall₂ Same typeArgs typeArgs' := by
  rw [same_expr_iff]
  constructor
  · rintro ⟨_, _, _, heq, hargs, htypes⟩
    cases heq
    exact ⟨rfl, hargs, htypes⟩
  · rintro ⟨rfl, hargs, htypes⟩
    exact ⟨_, _, _, rfl, hargs, htypes⟩

/-- Induction on the parts of a value. The three kinds of numbers are one case. -/
theorem parts_induction {P : Value → Prop} (number : ∀ v n, v.number? = some n → P v)
    (null : P .null) (text : ∀ characters symbolic, P (.text characters symbolic))
    (list : ∀ items, (∀ item ∈ items, P item) → P (.list items))
    (tuple : ∀ items, (∀ item ∈ items, P item) → P (.tuple items))
    (dict : ∀ entries, (∀ e ∈ entries, P e.1) → (∀ e ∈ entries, P e.2) → P (.dict entries))
    (fin : ∀ mapping codomain, (∀ image ∈ mapping, P image) → P codomain →
      P (.fin mapping codomain))
    (expr : ∀ head args typeArgs sort, (∀ arg ∈ args, P arg) →
      (∀ typeArg ∈ typeArgs, P typeArg) → P (.expr head args typeArgs sort))
    (value : Value) : P value := by
  have hpart : ∀ part, sizeOf part < sizeOf value → P part := fun part _ =>
    parts_induction number null text list tuple dict fin expr part
  match value with
  | .bool _ | .int _ | .float _ => exact number _ _ rfl
  | .null => exact null
  | .text characters symbolic => exact text characters symbolic
  | .list items =>
    refine list items fun item hitem => hpart item ?_
    have := List.sizeOf_lt_of_mem hitem
    simp only [Value.list.sizeOf_spec]
    omega
  | .tuple items =>
    refine tuple items fun item hitem => hpart item ?_
    have := List.sizeOf_lt_of_mem hitem
    simp only [Value.tuple.sizeOf_spec]
    omega
  | .dict entries =>
    have hentry : ∀ key value, (key, value) ∈ entries →
        sizeOf key + sizeOf value < sizeOf (Value.dict entries) := by
      intro key value he
      have := List.sizeOf_lt_of_mem he
      simp only [Value.dict.sizeOf_spec, Prod.mk.sizeOf_spec] at this ⊢
      omega
    refine dict entries (fun e he => hpart e.1 ?_) (fun e he => hpart e.2 ?_)
    · have := hentry e.1 e.2 he
      omega
    · have := hentry e.1 e.2 he
      omega
  | .fin mapping codomain =>
    refine fin mapping codomain (fun image himage => hpart image ?_) (hpart codomain ?_)
    · have := List.sizeOf_lt_of_mem himage
      simp only [Value.fin.sizeOf_spec]
      omega
    · simp only [Value.fin.sizeOf_spec]
      omega
  | .expr head args typeArgs sort =>
    refine expr head args typeArgs sort (fun arg harg => hpart arg ?_)
      (fun typeArg htypeArg => hpart typeArg ?_)
    · have := List.sizeOf_lt_of_mem harg
      simp only [Value.expr.sizeOf_spec]
      omega
    · have := List.sizeOf_lt_of_mem htypeArg
      simp only [Value.expr.sizeOf_spec]
      omega
termination_by sizeOf value

theorem forall₂_trans {α β γ : Type} {R : α → β → Prop} {S : β → γ → Prop} {T : α → γ → Prop}
    {as : List α} {bs : List β} {cs : List γ} (h : ∀ a ∈ as, ∀ b c, R a b → S b c → T a c)
    (hab : List.Forall₂ R as bs) (hbc : List.Forall₂ S bs cs) : List.Forall₂ T as cs := by
  induction hab generalizing cs with
  | nil =>
    cases hbc
    exact .nil
  | @cons a b as bs hhead _ ih =>
    cases hbc with
    | cons hhead' hrest' =>
      exact .cons (h a List.mem_cons_self b _ hhead hhead')
        (ih (fun a' ha' => h a' (List.mem_cons_of_mem _ ha')) hrest')

theorem Same.trans {a b c : Value} (hab : Same a b) (hbc : Same b c) : Same a c := by
  induction a using parts_induction generalizing b c with
  | number a n h =>
    exact (same_number_iff h).mpr ((same_number_iff ((same_number_iff h).mp hab)).mp hbc)
  | null =>
    rw [same_null_iff.mp hab] at hbc
    exact hbc
  | text characters symbolic =>
    obtain ⟨_, rfl⟩ := same_text_iff.mp hab
    exact same_text_iff.mpr (same_text_iff.mp hbc)
  | list items ih =>
    obtain ⟨_, rfl, hitems⟩ := same_list_iff.mp hab
    obtain ⟨_, rfl, hitems'⟩ := same_list_iff.mp hbc
    exact same_list_iff.mpr ⟨_, rfl, forall₂_trans ih hitems hitems'⟩
  | tuple items ih =>
    obtain ⟨_, rfl, hitems⟩ := same_tuple_iff.mp hab
    obtain ⟨_, rfl, hitems'⟩ := same_tuple_iff.mp hbc
    exact same_tuple_iff.mpr ⟨_, rfl, forall₂_trans ih hitems hitems'⟩
  | dict entries ihkey ihvalue =>
    obtain ⟨_, rfl, hlength, hentries⟩ := same_dict_iff.mp hab
    obtain ⟨_, rfl, hlength', hentries'⟩ := same_dict_iff.mp hbc
    refine same_dict_iff.mpr ⟨_, rfl, hlength.trans hlength', fun e he => ?_⟩
    obtain ⟨e', he', hkey, hvalue⟩ := hentries e he
    obtain ⟨e'', he'', hkey', hvalue'⟩ := hentries' e' he'
    exact ⟨e'', he'', ihkey e he hkey hkey', ihvalue e he hvalue hvalue'⟩
  | fin mapping codomain ih ihcodomain =>
    obtain ⟨_, _, rfl, hmapping, hcodomain⟩ := same_fin_iff.mp hab
    obtain ⟨_, _, rfl, hmapping', hcodomain'⟩ := same_fin_iff.mp hbc
    exact same_fin_iff.mpr ⟨_, _, rfl, forall₂_trans ih hmapping hmapping',
      ihcodomain hcodomain hcodomain'⟩
  | expr head args typeArgs sort ihargs ihtypes =>
    obtain ⟨_, _, _, rfl, hargs, htypes⟩ := same_expr_iff.mp hab
    obtain ⟨_, _, _, rfl, hargs', htypes'⟩ := same_expr_iff.mp hbc
    exact same_expr.mpr ⟨rfl, forall₂_trans ihargs hargs hargs',
      forall₂_trans ihtypes htypes htypes'⟩

/-- No datum in the value is without a number, and the keys of its dictionaries are distinct. -/
inductive Regular : Value → Prop
  | null : Regular .null
  | bool (b) : Regular (.bool b)
  | int (n) : Regular (.int n)
  | float {x} (h : isUndefined (.float x) = false) : Regular (.float x)
  | text (characters symbolic) : Regular (.text characters symbolic)
  | list {items} (h : ∀ item ∈ items, Regular item) : Regular (.list items)
  | tuple {items} (h : ∀ item ∈ items, Regular item) : Regular (.tuple items)
  | dict {entries : List (Value × Value)} (hkeys : ∀ e ∈ entries, Regular e.1)
      (hvalues : ∀ e ∈ entries, Regular e.2)
      (hdistinct : entries.Pairwise fun e e' => ¬Same e.1 e'.1) : Regular (.dict entries)
  | fin {mapping codomain} (hmapping : ∀ image ∈ mapping, Regular image)
      (hcodomain : Regular codomain) : Regular (.fin mapping codomain)
  | expr {head args typeArgs sort} (hargs : ∀ arg ∈ args, Regular arg)
      (htypes : ∀ typeArg ∈ typeArgs, Regular typeArg) :
      Regular (.expr head args typeArgs sort)

theorem forall₂_symm {as bs : List Value} (h : ∀ a ∈ as, ∀ b, Same a b → Same b a)
    (hab : List.Forall₂ Same as bs) : List.Forall₂ Same bs as := by
  induction hab with
  | nil => exact .nil
  | @cons a b as bs hhead _ ih =>
    exact .cons (h a List.mem_cons_self b hhead)
      (ih fun a' ha' => h a' (List.mem_cons_of_mem _ ha'))

theorem same_number_symm {a b : Value} {number : Number} (h : a.number? = some number)
    (hab : Same a b) : Same b a :=
  (same_number_iff ((same_number_iff h).mp hab)).mpr h

theorem Regular.same_symm {a b : Value} (ha : Regular a) (hab : Same a b) : Same b a := by
  induction ha generalizing b with
  | null =>
    rw [same_null_iff.mp hab]
    exact same_refl _
  | bool _ | int _ | float _ => exact same_number_symm rfl hab
  | text characters symbolic =>
    obtain ⟨_, rfl⟩ := same_text_iff.mp hab
    exact same_text_iff.mpr ⟨_, rfl⟩
  | list _ ih =>
    obtain ⟨_, rfl, hitems⟩ := same_list_iff.mp hab
    exact same_list_iff.mpr ⟨_, rfl, forall₂_symm (fun a ha _ h => ih a ha h) hitems⟩
  | tuple _ ih =>
    obtain ⟨_, rfl, hitems⟩ := same_tuple_iff.mp hab
    exact same_tuple_iff.mpr ⟨_, rfl, forall₂_symm (fun a ha _ h => ih a ha h) hitems⟩
  | @dict entries _ _ hdistinct ihkey ihvalue =>
    obtain ⟨entries', rfl, hlength, hentries⟩ := same_dict_iff.mp hab
    refine same_dict_iff.mpr ⟨_, rfl, hlength.symm, fun e' he' => ?_⟩
    -- Keys that are both the same as a third one would be the same as each other.
    have hapart : entries.Pairwise fun e₁ e₂ => ∀ e' : Value × Value,
        Same e₁.1 e'.1 ∧ Same e₁.2 e'.2 → ¬(Same e₂.1 e'.1 ∧ Same e₂.2 e'.2) :=
      hdistinct.imp_of_mem fun _ he₂ hne e' h₁ h₂ => hne (h₁.1.trans (ihkey _ he₂ h₂.1))
    obtain ⟨e, he, hkey, hvalue⟩ := exists_of_pairwise_apart hlength hapart hentries e' he'
    exact ⟨e, he, ihkey e he hkey, ihvalue e he hvalue⟩
  | fin _ _ ih ihcodomain =>
    obtain ⟨_, _, rfl, hmapping, hcodomain⟩ := same_fin_iff.mp hab
    exact same_fin_iff.mpr ⟨_, _, rfl, forall₂_symm (fun a ha _ h => ih a ha h) hmapping,
      ihcodomain hcodomain⟩
  | expr _ _ ihargs ihtypes =>
    obtain ⟨_, _, _, rfl, hargs, htypes⟩ := same_expr_iff.mp hab
    exact same_expr.mpr ⟨rfl, forall₂_symm (fun a ha _ h => ihargs a ha h) hargs,
      forall₂_symm (fun a ha _ h => ihtypes a ha h) htypes⟩

theorem same_of_equal {a b : Value} (h : equal a b = true) : Same a b := by
  simp only [equal, Bool.and_eq_true, decide_eq_true_eq] at h
  exact h.2

/-- Only a datum without a number can be the same as a value and not equal it. -/
theorem equal_of_same {a b : Value} (hexpr : a.isExpr = true) (h : Same a b) :
    equal a b = true := by
  have hdefined : a.isUndefined = false := by
    cases a with
    | float => cases hexpr
    | _ => rfl
  simp only [equal, hdefined, Bool.not_false, Bool.true_and, decide_eq_true_eq]
  exact h

/-- A regular value that is the same as another also equals it. -/
theorem Regular.equal_iff {a b : Value} (ha : Regular a) : equal a b = true ↔ Same a b := by
  have hdefined : a.isUndefined = false := by
    cases ha with
    | float h => exact h
    | _ => rfl
  simp only [equal, hdefined, Bool.not_false, Bool.true_and, decide_eq_true_eq]

end Value
end TermAlgebra
