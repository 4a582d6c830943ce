import TermAlgebra.Document
import TermAlgebra.Proofs.ReadDocuments
import TermAlgebra.Proofs.StandardCalls

/-!
Loading expressions of the standard theories from files. A file that cannot be opened, a document
that is no JSON or has another shape, a head that the theory does not have, a reference, and
arguments of the wrong kinds or number all end in a rejection. Loading itself fails for two reasons
only: the path has a character that no path can have, or the bytes of the file are no UTF-8.

Outside the model are a path that has a surrogate without its partner, for a path is a text; a file
that may not be read, for what a folder has can be opened; and a limit on how deep documents nest,
for only calls have a bound on their nesting.
-/
namespace TermAlgebra

open Outcome Standard

namespace SExpr

/-- Calls on sound values give sound values or reject their arguments. -/
def Answers (algebra : Algebra) : Prop :=
  ∀ name args, (∀ arg ∈ args, Sound arg) → (algebra.call name args).Ends Rejection Sound

variable {algebra : Algebra}

theorem sound_rawDatum {item : Value} (h : item.Raw) : Sound (Reading.rawDatum {} item) := by
  have hexpr : (Reading.rawDatum {} item).isExpr = item.isExpr := by cases item <;> rfl
  exact sound_datum (hexpr.trans h.not_expr)

mutual

/-- A raw S-expression is decoded or rejected. -/
theorem ends_decode (hcalls : Answers algebra) (sexpr : Value) (hraw : sexpr.Raw) :
    (decode algebra {} sexpr).Ends Rejection Sound := by
  match sexpr with
  | .text _ _ => exact ends_fail rfl
  | .list (head :: args) =>
    obtain ⟨hhead, hargs⟩ := List.forall_mem_cons.mp hraw.items
    obtain ⟨text, htext⟩ := Value.exists_shown hhead.not_expr
    rw [decode, htext, bind_eq, ofExcept_ok_bind]
    exact (ends_decodeAll hcalls _ args hargs).bind fun values hvalues => hcalls _ values hvalues
  | .list [] | .null | .bool _ | .int _ | .float _ | .tuple _ | .dict _ | .fin _ _
  | .expr _ _ _ _ => exact ends_fail rfl

theorem ends_decodeAll (hcalls : Answers algebra) (rawFirst : Bool) (items : List Value)
    (hraw : ∀ item ∈ items, item.Raw) :
    (decodeAll algebra {} rawFirst items).Ends Rejection fun values =>
      ∀ value ∈ values, Sound value := by
  match items with
  | [] => exact ends_ok (by simp)
  | item :: rest =>
    rw [List.forall_mem_cons] at hraw
    have hrest (value : Value) (hvalue : Sound value) :
        ((decodeAll algebra {} false rest).bind fun values => ok (value :: values)).Ends Rejection
          fun values => ∀ value ∈ values, Sound value :=
      (ends_decodeAll hcalls false rest hraw.2).bind fun values hvalues =>
        ends_ok (List.forall_mem_cons.mpr ⟨hvalue, hvalues⟩)
    rw [decodeAll]
    split
    · exact hrest _ (sound_rawDatum hraw.1)
    · exact (ends_decode hcalls item hraw.1).bind hrest

end

theorem ends_load (hcalls : Answers algebra) (document : String) :
    (load algebra {} document).Ends Rejection Sound := by
  unfold load
  cases hread : Json.read document with
  | error error => exact ends_fail rfl
  | ok value => exact ends_decode hcalls value (Json.raw_of_read hread)

end SExpr

namespace Folder

variable {folder : Folder} {path : String}

theorem isFileAccess_outside (parts : List String) : (outside path parts).isFileAccess = true := by
  unfold outside
  split
  · rfl
  · split <;> rfl

theorem isFileAccess_of_follow {directory parts : List String} {failure : Failure}
    (h : folder.follow path directory parts = .error failure) : failure.isFileAccess = true := by
  induction parts generalizing directory with
  | nil =>
    cases h
    rfl
  | cons part rest ih =>
    unfold follow at h
    dsimp only at h
    split at h
    · cases h
      rfl
    · split at h
      · split at h
        · cases h
          exact isFileAccess_outside rest
        · exact ih h
      · split at h
        · split at h
          · cases h
          · cases h
            rfl
        · split at h
          · exact ih h
          · cases h
            rfl

/-- A file that is not read is missing or no file, unless the path has a null character. -/
theorem isFileAccess_of_read {failure : Failure} (hpath : path.contains '\x00' = false)
    (h : folder.read path = .error failure) : failure.isFileAccess = true := by
  unfold read at h
  rw [hpath, if_neg Bool.false_ne_true] at h
  split at h
  · cases h
    rfl
  · split at h
    · cases h
      exact isFileAccess_outside (parts path)
    · exact isFileAccess_of_follow h

end Folder

namespace Document

variable {algebra : Algebra} {reading : SExpr.Reading}

theorem load_of_text {bytes : ByteArray} {text : String} (hdecode : decode bytes = .ok text)
    {P : Value → Prop} (h : (SExpr.load algebra reading text).Ends Rejection P) :
    ∃ loaded, load algebra reading (.ok bytes) = .ok loaded := by
  simp only [load, hdecode]
  rcases h with ⟨value, hvalue, -⟩ | ⟨failure, hfailure, hrejection⟩
  · rw [hvalue]
    exact ⟨.value value, rfl⟩
  · rw [hfailure]
    refine ⟨.rejected failure, ?_⟩
    exact if_pos hrejection

theorem decode_eq_ok_iff {bytes : ByteArray} :
    (∃ text, decode bytes = .ok text) ↔ (String.fromUTF8? bytes).isSome = true := by
  unfold decode
  cases String.fromUTF8? bytes <;> simp

theorem load_of_read_error {failure : Failure} {contents : Except Failure ByteArray}
    (hcontents : contents = .error failure) (hfailure : failure.isFileAccess = true) :
    load algebra reading contents = .ok (.rejected failure) := by
  rw [hcontents, load]
  exact if_pos hfailure

/-- A calculus of a standard theory without overrides loads or rejects every file, as long as the
path has no null character and the bytes of the file, if it can be read, are UTF-8. Otherwise the
loading fails. Paths are texts of whole characters, the files of a folder may all be read, and a
document may nest as deep as it likes. -/
theorem load_standard {key : String} {theory : Theory} {name? : Option String} {calculus : Calculus}
    (hkey : (key, theory) ∈ Standard.all)
    (hcreate : Calculus.create theory name? .empty = .ok calculus) (folder : Folder)
    (path : String) :
    (path.contains '\x00' = true →
      load calculus.toAlgebra {} (folder.read path) = .fail .badPath) ∧
    (∀ bytes, folder.read path = .ok bytes → String.fromUTF8? bytes = none →
      load calculus.toAlgebra {} (folder.read path) = .fail .undecodable) ∧
    (path.contains '\x00' = false →
      (∀ bytes, folder.read path = .ok bytes → (String.fromUTF8? bytes).isSome = true) →
      ∃ loaded, load calculus.toAlgebra {} (folder.read path) = .ok loaded) := by
  obtain ⟨plain, rfl⟩ := Calculus.plain_of_create hcreate
  have hmem : calculus.theory ∈ Standard.all.map Prod.snd :=
    List.mem_map.mpr ⟨_, hkey, rfl⟩
  have hcalls : SExpr.Answers calculus.toAlgebra := fun name args hargs =>
    (orderly_of_mem plain hmem).ends_call name hargs
  refine ⟨fun hpath => ?_, fun bytes hread hbytes => ?_, fun hpath hbytes => ?_⟩
  · rw [Folder.read, if_pos hpath]
    rfl
  · rw [hread]
    simp only [load, decode, hbytes]
  · cases hread : folder.read path with
    | error failure =>
      exact ⟨_, load_of_read_error rfl (Folder.isFileAccess_of_read hpath hread)⟩
    | ok bytes =>
      obtain ⟨text, hdecode⟩ := decode_eq_ok_iff.mpr (hbytes bytes hread)
      exact load_of_text hdecode (SExpr.ends_load hcalls text)

section Examples

theorem read_single (bytes : ByteArray) : (Folder.ofList [("f", bytes)]).read "f" = .ok bytes := by
  have hnull : "f".contains '\x00' = false := by simp
  have hsplit : "f".splitOn "/" = ["f"] := by
    rw [String.splitOn, if_neg (by decide), String.splitOnAux, String.splitOnAux]
    rfl
  have hparts : Folder.parts "f" = ["f"] := by
    rw [Folder.parts, hsplit]
    rfl
  have hplain : Folder.plainPath "f" = "f" := by
    rw [Folder.plainPath, Folder.root, hparts]
    simp
  have hrooted : "f".startsWith "/" = false := by simp
  rw [Folder.read, hnull, if_neg Bool.false_ne_true, hplain, if_neg (by decide), hrooted,
    if_neg Bool.false_ne_true, hparts, Folder.ofList]
  simp only [List.map_cons, List.map_nil, hparts]
  rfl

/-- A file with a generator, in the calculus of cartesian categories. -/
theorem load_standard_generator :
    Calculus.create cartesian none .empty = .ok (calculusOf cartesian) ∧
      ∃ loaded, load (calculusOf cartesian).toAlgebra {}
        ((Folder.ofList [("f", "[\"Ob\", \"x\"]".toUTF8)]).read "f") = .ok loaded := by
  have hcreate : Calculus.create cartesian none .empty = .ok (calculusOf cartesian) := by cbv
  have hkey : ("cartesian", cartesian) ∈ Standard.all := by simp [Standard.all]
  refine ⟨hcreate, (load_standard hkey hcreate _ _).2.2 (by simp) fun bytes hread => ?_⟩
  rw [read_single] at hread
  cases hread
  decide

/-- A file of a single byte that begins no character. -/
theorem load_of_stray_byte :
    load (calculusOf category).toAlgebra {} ((Folder.ofList [("f", ⟨#[0xff]⟩)]).read "f") =
      .fail .undecodable := by
  have hbytes : String.fromUTF8? ⟨#[0xff]⟩ = none := by decide
  rw [read_single]
  simp only [load, decode, hbytes]

end Examples

end Document
end TermAlgebra
