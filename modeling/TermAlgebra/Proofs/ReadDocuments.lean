import TermAlgebra.Json.Reader
import TermAlgebra.Value.Parts

/-!
What the reader of documents can hand on. A document holds nothing, truth values, numbers, texts,
dictionaries and lists of such data, but no expressions. The reader keeps to this at every step: the
items of the lists around the current place are such data, and so is a value that it has just
completed.
-/
namespace TermAlgebra

/-- The value is a datum, and so are the items of lists at every depth. -/
inductive Value.Raw : Value → Prop
  | list {items : List Value} (h : ∀ item ∈ items, Raw item) : Raw (.list items)
  | single {value : Value} (hexpr : value.isExpr = false) (hlist : ∀ items, value ≠ .list items) :
      Raw value

theorem Value.Raw.not_expr {value : Value} (h : value.Raw) : value.isExpr = false := by
  cases h with
  | list => rfl
  | single hexpr => exact hexpr

theorem Value.Raw.items {items : List Value} (h : (Value.list items).Raw) :
    ∀ item ∈ items, item.Raw := by
  cases h with
  | list h => exact h
  | single _ hlist => exact absurd rfl (hlist items)

/-- Every datum has a text. -/
theorem Value.exists_shown {value : Value} (h : value.isExpr = false) :
    ∃ text, value.shown = .ok text := by
  cases value with
  | expr => cases h
  | _ => exact ⟨_, rfl⟩

namespace Json

theorem raw_of_constant? {text rest : List Char} {value : Value}
    (h : constant? text = some (value, rest)) : value.Raw := by
  unfold constant? at h
  split at h <;> cases h <;> exact .single rfl nofun

theorem raw_of_readScalar {text rest : List Char} {value : Value}
    (h : readScalar text = .ok (value, rest)) : value.Raw := by
  unfold readScalar at h
  split at h
  · split at h
    · cases h
    · cases h
      exact .single rfl nofun
  · split at h
    · rename_i found hfound
      cases h
      exact raw_of_constant? hfound
    · split at h
      · cases h
        split <;> exact .single rfl nofun
      · cases h

def Container.Raw : Container → Prop
  | .list items => ∀ item ∈ items, item.Raw
  | .dict .. => True

def Stage.Raw : Stage → Prop
  | .complete datum => datum.Raw
  | _ => True

namespace Reading

/-- The lists that are being read and a value that is complete are raw. -/
structure Raw (reading : Reading) : Prop where
  around : ∀ container ∈ reading.around, container.Raw
  stage : reading.stage.Raw

theorem raw_begin : begin.Raw := ⟨by simp [begin], trivial⟩

/-- A list is closed with its items in the order of the document. -/
theorem raw_closed {items : List Value} {around : List Container}
    (hitems : ∀ item ∈ items, item.Raw) (haround : ∀ container ∈ around, container.Raw) :
    Raw ⟨around, .complete (.list items.reverse)⟩ :=
  ⟨haround, .list fun item hitem => hitems item (List.mem_reverse.mp hitem)⟩

theorem raw_afterValue {value : Value} {around : List Container} {c : Char} {rest : List Char}
    {next : Reading} (hvalue : value.Raw) (haround : ∀ container ∈ around, container.Raw)
    (h : afterValue value around c rest = .ok next) : next.Raw := by
  unfold afterValue at h
  split at h
  · cases h
  · rename_i items around
    obtain ⟨hitems, houter⟩ := List.forall_mem_cons.mp haround
    have hall : ∀ item ∈ value :: items, item.Raw := List.forall_mem_cons.mpr ⟨hvalue, hitems⟩
    split at h
    · cases h
      exact ⟨List.forall_mem_cons.mpr ⟨hall, houter⟩, trivial⟩
    · split at h
      · cases h
        exact raw_closed hall houter
      · cases h
  · rename_i entries key around
    obtain ⟨-, houter⟩ := List.forall_mem_cons.mp haround
    dsimp only at h
    split at h
    · cases h
      exact ⟨houter, trivial⟩
    · split at h
      · cases h
        exact ⟨houter, .single rfl nofun⟩
      · cases h

theorem Raw.step {reading next : Reading} {c : Char} {rest after : List Char} (hraw : reading.Raw)
    (h : reading.step c rest = .ok (next, after)) : next.Raw := by
  obtain ⟨around, stage⟩ := reading
  have haround : ∀ container ∈ around, container.Raw := hraw.around
  cases stage with
  | value mayClose =>
    unfold Reading.step at h
    dsimp only at h
    split at h
    · rename_i items outer hclose
      cases h
      obtain ⟨hitems, houter⟩ := List.forall_mem_cons.mp haround
      exact raw_closed hitems houter
    · split at h
      · cases h
        exact ⟨List.forall_mem_cons.mpr ⟨List.forall_mem_nil _, haround⟩, trivial⟩
      · split at h
        · cases h
          exact ⟨haround, trivial⟩
        · split at h
          · cases h
          · rename_i value rest hscalar
            cases h
            exact ⟨haround, raw_of_readScalar hscalar⟩
  | key entries mayClose =>
    unfold Reading.step at h
    dsimp only at h
    split at h
    · cases h
      exact ⟨haround, .single rfl nofun⟩
    · split at h
      · split at h
        · cases h
        · cases h
          exact ⟨haround, trivial⟩
      · cases h
  | colon entries key =>
    unfold Reading.step at h
    dsimp only at h
    split at h
    · cases h
      exact ⟨List.forall_mem_cons.mpr ⟨trivial, haround⟩, trivial⟩
    · cases h
  | complete value =>
    unfold Reading.step at h
    dsimp only at h
    split at h
    · cases h
    · rename_i reading hafter
      cases h
      exact raw_afterValue hraw.stage haround hafter

theorem Raw.finish {reading : Reading} {value : Value} (hraw : reading.Raw)
    (h : reading.finish = .ok value) : value.Raw := by
  obtain ⟨around, stage⟩ := reading
  cases stage with
  | complete found =>
    cases around with
    | nil =>
      cases h
      exact hraw.stage
    | cons => cases h
  | _ => cases h

theorem Raw.run {reading : Reading} {text : List Char} {value : Value} (hraw : reading.Raw)
    (h : reading.run text = .ok value) : value.Raw := by
  fun_induction Reading.run reading text with
  | case1 reading => exact hraw.finish h
  | case2 reading c rest hspace ih => exact ih hraw h
  | case3 => cases h
  | case4 reading c rest hspace next after hstep ih => exact ih (hraw.step hstep) h

end Reading

/-- Documents are read as raw data. -/
theorem raw_of_read {document : String} {value : Value} (h : read document = .ok value) :
    value.Raw := by
  unfold read at h
  dsimp only at h
  split at h
  · cases h
  · cases hrun : Reading.begin.run document.toList with
    | error fault =>
      rw [hrun] at h
      cases h
    | ok found =>
      rw [hrun] at h
      cases h
      exact Reading.raw_begin.run hrun

end Json
end TermAlgebra
