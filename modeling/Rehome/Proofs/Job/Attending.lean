import Rehome.Proofs.Job.Questions

/-!
# States that answer rightly about every file

Where no file is hidden, a job that only asks changes nothing, and a job on one file does what it
does to the plain state. Both hold whatever files are listed.
-/
namespace Rehome

open Specifier (Finder Occurrence appendLine dominantQuote? wildcardExport)

namespace Job

variable {σ α : Type}

section

variable (perform : {β : Type} → FileOp β → σ → β × σ) (stands : σ → Plain → Prop)

/-- States that answer about every file as the plain state does that they stand for. Files that are
there may be changed. Nothing is said of the lists, except that making one changes no file. -/
structure Attends (f : Finder) (fit : Plain → String → Prop) : Prop where
  answers : Answers @perform stands f (fun _ => False) fit
  fits : ∀ {v path}, v.tree.isFile path = true → fit v path
  lists : ∀ {st v} root, stands st v → stands (perform (.sourceFiles root) st).2 v

end

variable {perform : {β : Type} → FileOp β → σ → β × σ} {stands : σ → Plain → Prop} {f : Finder}
    {fit : Plain → String → Prop}

namespace Attends

variable (attends : Attends @perform stands f fit)
include attends

theorem sourceFiles (root : String) (v : Plain) :
    Does @perform stands (sourceFiles root) v fun _ v' => v' = v :=
  fun _ related => ⟨v, attends.lists root related, rfl⟩

/-- A job that only asks leaves everything as it is. -/
theorem asks {j : Job α} (asks : Asks j) (v : Plain) :
    Does @perform stands j v fun _ v' => v' = v := by
  induction asks with
  | done a => exact does_pure rfl
  | read _ ih =>
    apply (does_read attends.answers _).bind
    intro text? v' after
    rw [after.1]
    exact ih text?
  | specifiers _ ih =>
    apply (does_specifiers attends.answers _).bind
    intro found v' after
    rw [after.1]
    exact ih found
  | sourceFiles _ ih =>
    apply (attends.sourceFiles _ v).bind
    intro files v' same
    rw [same]
    exact ih files

/-- What a job on one file does to the plain state, it does everywhere. -/
theorem edits (s : ScanSettings) {j : Job α} {path : String} (edits : Edits path false j)
    {v : Plain} {post : Plain → Prop} (holds : post (j.run (Plain.perform f s) v).2) :
    Does @perform stands j v fun _ v' => post v' := by
  apply (edits.does s attends.answers attends.fits id v nofun).mono
  intro a v' same
  rw [← same] at holds
  exact holds

end Attends

/-- What an edit of a file comes to. -/
theorem run_editFile (f : Finder) (s : ScanSettings) (v : Plain) (path : String)
    (edit : List Occurrence → List Char → Option (List Char)) :
    (editFile path edit).run (Plain.perform f s) v =
      match (v.tree.text? path).bind fun text =>
          edit (f.occurrences path text) text.toList with
      | none => (false, v)
      | some updated => (true, v.write path (String.ofList updated)) := by
  rw [editFile, run_bind]
  simp only [read, run_ofOp, Plain.perform]
  cases found : v.tree.text? path with
  | none => rfl
  | some text =>
    simp only [run_bind, specifiers, run_ofOp, Plain.perform, FileTree.specifiers, found,
      Option.bind_some]
    cases edit (f.occurrences path text) text.toList with
    | none => rfl
    | some updated => rfl

/-- What making a file pass on a module comes to. -/
theorem run_ensureWildcardExport (f : Finder) (s : ScanSettings) (v : Plain)
    (path specifier : String) (same : String → Bool) :
    (ensureWildcardExport path specifier same).run (Plain.perform f s) v =
      let found := v.tree.specifiers f path
      if found.any fun o => o.kind.isExport && (o.value = specifier || same o.value) then
        (false, v)
      else
        (true, v.write path (String.ofList (appendLine ((v.tree.text? path).getD "").toList
          (wildcardExport ((dominantQuote? found).getD .single) specifier)))) := by
  rw [ensureWildcardExport, run_bind, run_bind,
    apply_ite fun j : Job Bool => j.run (Plain.perform f s) _]
  rfl


end Job

/-- Listing files changes no file. -/
theorem Index.mirrors_attends (f : Finder) :
    Job.Attends (Index.perform f) (Index.Mirrors f fun _ => False) f fun _ _ => True where
  answers := Index.mirrors_answers f _
  fits _ := trivial
  lists {i v} root h := by
    obtain ⟨asked, lists, endless, frame⟩ := i.sourceFiles_frame root
    simp only [Index.perform, frame]
    exact ⟨h.texts.of_same rfl rfl rfl rfl, h.agree.of_files rfl rfl rfl⟩

end Rehome
