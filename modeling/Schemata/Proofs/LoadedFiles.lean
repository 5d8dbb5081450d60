import Schemata.CommandLine.Run
import Schemata.Proofs.DenotedNodes
import Schemata.Proofs.LoadedDocuments

/-! How loading a file may end. Whatever a path leads to, the file has a catalog, or there is a verdict on it, or else
its bytes are no text, or the text is well formed and yet gives no data. -/

namespace Schemata

namespace Document

/-- What a document denotes is never a reason for an error that is no verdict. -/
theorem catalogOf_verdict {label : String} {value : Value} {error : DocumentError}
    (refused : catalogOf label value = .error error) : CommandLine.isVerdict error = true := by
  rcases catalogOf_cases label value with ⟨types, lists⟩ | ⟨cause, ran, lacks⟩
  · rw [catalogOf_eq lists] at refused
    rcases register_cases Catalog.holds_empty label 0 types with
      ⟨_, _, _, _, ran⟩ | ⟨_, _, _, _, _, _, _, _, _, blames, ran⟩
    · cases refused.symm.trans ran
    · cases refused.symm.trans ran
      cases blames <;> rfl
  · cases refused.symm.trans ran
    rcases lacks with rfl | rfl | rfl <;> rfl

/-- A text is loaded without a verdict exactly if it is well formed and gives no data. -/
theorem load_escapes_iff (label text : String) :
    (∃ error, load label text = .error error ∧ CommandLine.isVerdict error = false) ↔
      ∃ trouble, Yaml.read text = .error trouble ∧ trouble ≠ .malformed := by
  unfold load
  cases read : Yaml.read text with
  | ok value =>
    refine ⟨fun escapes => ?_, fun impossible => by simp at impossible⟩
    obtain ⟨error, refused, noVerdict⟩ := escapes
    cases (catalogOf_verdict refused).symm.trans noVerdict
  | error trouble =>
    cases trouble with
    | malformed => simp [CommandLine.isVerdict]
    | _ => exact ⟨fun _ => ⟨_, rfl, nofun⟩, fun _ => ⟨_, rfl, rfl⟩⟩

end Document

namespace CommandLine

def Undecodable (reading : FileReading) : Prop :=
  ∃ content, reading = .bytes content ∧ String.fromUTF8? ⟨content.toArray⟩ = none

theorem loadFile_escapes_iff (path : String) (reading : FileReading) :
    (∃ error, loadFile path reading = .error error ∧ isVerdict error = false) ↔
      Undecodable reading ∨ ∃ text trouble, fileText path reading = .ok text ∧ Yaml.read text = .error trouble ∧
        trouble ≠ .malformed := by
  have escapes (text : String) := Document.load_escapes_iff path text
  unfold loadFile Undecodable
  cases reading with
  | notFound | refused => simp [fileText, bind, Except.bind, isVerdict]
  | bytes content =>
    cases decoded : String.fromUTF8? ⟨content.toArray⟩ with
    | none => simp [fileText, decoded, bind, Except.bind, isVerdict]
    | some written => simp [fileText, decoded, bind, Except.bind, escapes]

/-- Loading a file, or a text, ends with a catalog or with a verdict, unless the bytes of the file are no text, or the
text is well formed and gives no data; in all these cases it does end without a verdict. A text without a trouble of its
form gives no data only if it writes a number out of bounds, or if one of its nodes has a text that denotes nothing
under its tag. -/
theorem loading_escapes_iff (path : String) (reading : FileReading) :
    ((∃ catalog, loadFile path reading = .ok catalog) ∨
      (∃ error, loadFile path reading = .error error ∧ isVerdict error = true) ∨
      Undecodable reading ∨
      ∃ text trouble, fileText path reading = .ok text ∧ Yaml.read text = .error trouble ∧ trouble ≠ .malformed) ∧
    ((∃ error, loadFile path reading = .error error ∧ isVerdict error = false) ↔
      Undecodable reading ∨ ∃ text trouble, fileText path reading = .ok text ∧ Yaml.read text = .error trouble ∧
        trouble ≠ .malformed) ∧
    (∀ label text, (∃ error, Document.load label text = .error error ∧ isVerdict error = false) ↔
      ∃ trouble, Yaml.read text = .error trouble ∧ trouble ≠ .malformed) ∧
    ∀ text trouble, Yaml.read text = .error trouble → trouble ≠ .malformed → Yaml.Fails text trouble := by
  have iff := loadFile_escapes_iff path reading
  refine ⟨?_, iff, fun label text => Document.load_escapes_iff label text, fun text trouble failed other => ?_⟩
  · cases outcome : loadFile path reading with
    | ok catalog => exact .inl ⟨catalog, rfl⟩
    | error error =>
      cases verdict : isVerdict error with
      | true => exact .inr (.inl ⟨error, rfl, verdict⟩)
      | false => exact .inr (.inr (iff.mp ⟨error, outcome, verdict⟩))
  · have ends := Yaml.read_ends text
    rw [failed] at ends
    exact ends.resolve_left other

private theorem impossible_of_eval {text : String}
    (fails : (match Yaml.read text with | .error trouble => decide (trouble = .impossible) | .ok _ => false) = true) :
    Yaml.read text = .error .impossible := by
  split at fails
  next trouble failed => rw [failed, of_decide_eq_true fails]
  next => cases fails

/-- A file that is missing gets a verdict. A day that no month has and a code point that does not exist get none. -/
theorem loading_escapes_iff_of_days :
    (∃ error, loadFile "pets.yaml" .notFound = .error error ∧ isVerdict error = true) ∧
      Yaml.read "types: [2001-02-30]" = .error .impossible ∧ Yaml.Fails "types: [2001-02-30]" .impossible ∧
      Yaml.Fails "types: [\"\\U00110000\"]" .impossible := by
  obtain ⟨ended, -, -, causes⟩ := loading_escapes_iff "pets.yaml" .notFound
  have day : Yaml.read "types: [2001-02-30]" = .error .impossible := impossible_of_eval (by decide +kernel)
  have point : Yaml.read "types: [\"\\U00110000\"]" = .error .impossible := impossible_of_eval (by decide +kernel)
  refine ⟨?_, day, causes _ _ day nofun, causes _ _ point nofun⟩
  rcases ended with ⟨_, loaded⟩ | verdict | ⟨_, impossible, -⟩ | ⟨_, _, impossible, -⟩
  · cases loaded
  · exact verdict
  · cases impossible
  · cases impossible

/-- Neither a day that no month has nor bytes that are no text are refused with a verdict. -/
theorem impossible_day_escapes :
    (∃ error, Document.load "<string>" "types: [2001-02-30]" = .error error ∧ isVerdict error = false) ∧
      ∃ error, loadFile "t.yaml" (.bytes [0xff]) = .error error ∧ isVerdict error = false := by
  constructor
  · have day : Yaml.read "types: [2001-02-30]" = .error .impossible := impossible_of_eval (by decide +kernel)
    exact (Document.load_escapes_iff _ _).mpr ⟨_, day, nofun⟩
  · exact (loadFile_escapes_iff _ _).mpr (.inl ⟨_, rfl, by decide +kernel⟩)

end CommandLine

end Schemata
