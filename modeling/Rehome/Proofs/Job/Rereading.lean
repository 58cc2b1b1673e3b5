import Rehome.Proofs.Job.Cover
import Rehome.Proofs.Specifier.Revisions

/-!
# Reading a text again after an edit

What a move knows of a text after an edit rests on the parser: it has to find the specifiers that
the edit left, with the values that it gave them, and no others. Where the parser does so for the
texts that come up, a condition on the specifiers of all files is carried from edit to edit.
-/
namespace Rehome

open Specifier (Finder Occurrence Revision History replace? removeExports?)

/-- Some files are there and only known ones are, all texts are ones that their files may come to
have, and every specifier satisfies a condition that may depend on its file. -/
structure Plain.Meets (f : Finder) (history : History) (files known : String → Prop)
    (fine : String → String → Prop) (v : Plain) : Prop where
  present : ∀ file, files file → v.tree.isFile file = true
  known : ∀ path text, v.tree.text? path = some text → known path
  texts : ∀ path text, v.tree.text? path = some text → history.Version f path text
  values : ∀ path text, v.tree.text? path = some text → ∀ o ∈ f.occurrences path text,
    fine path o.value

theorem Specifier.replace?_eq_none {found : List Occurrence} {text : List Char}
    {chosen : String → Bool} {change : String → String}
    (h : replace? found text chosen change = none) {o : Occurrence} (member : o ∈ found)
    (picked : chosen o.value = true) : change o.value = o.value := by
  by_contra differs
  simp only [replace?] at h
  split at h
  next empty =>
    rw [List.isEmpty_iff, List.filterMap_eq_nil_iff] at empty
    have := empty o (List.mem_filter.2 ⟨member, picked⟩)
    simp [differs] at this
  next => cases h

namespace Plain.Meets

variable {f : Finder} {history : History} {files known known' : String → Prop}
    {fine fine' : String → String → Prop} {v : Plain}

/-- Less may be asked of the files that are there. -/
theorem mono (h : v.Meets f history files known fine) (knows : ∀ path, known path → known' path)
    (weaker : ∀ path, v.tree.isFile path = true → known path → ∀ value, fine path value →
      fine' path value) :
    v.Meets f history files known' fine' where
  present := h.present
  known path text found := knows path (h.known path text found)
  texts := h.texts
  values path text found o member :=
    weaker path (by simp [FileTree.isFile_eq_isSome, found]) (h.known path text found) o.value
      (h.values path text found o member)

/-- Only the files matter. -/
theorem of_files {u : FileTree} (h : v.Meets f history files known fine)
    (same : u.files = v.tree.files) (touched : List String) :
    Plain.Meets f history files known fine ⟨u, touched⟩ := by
  have text? : ∀ path, u.text? path = v.tree.text? path :=
    fun path => by rw [FileTree.text?, same, FileTree.text?]
  refine ⟨fun file there => ?_, fun path text found => ?_, fun path text found => ?_,
    fun path text found => ?_⟩
  · rw [FileTree.isFile, same]
    exact h.present file there
  · exact h.known path text (text? path ▸ found)
  · exact h.texts path text (text? path ▸ found)
  · exact h.values path text (text? path ▸ found)

theorem known_of_mem (h : v.Meets f history files known fine) {path : String}
    (member : path ∈ v.tree.files.names) : known path := by
  have file := FileTree.isFile_iff.2 member
  rw [FileTree.isFile_eq_isSome, Option.isSome_iff_exists] at file
  obtain ⟨text, found⟩ := file
  exact h.known path text found

/-- Every specifier that is found satisfies the condition. -/
theorem fine_of_mem (h : v.Meets f history files known fine) {path : String} {o : Occurrence}
    (member : o ∈ v.tree.specifiers f path) : fine path o.value := by
  rw [FileTree.specifiers] at member
  cases found : v.tree.text? path with
  | none => simp [found] at member
  | some text =>
    rw [found] at member
    exact h.values path text found o member

/-- Writing a file asks for the condition in that file, and for nothing more in the others. -/
theorem write (h : v.Meets f history files known fine) {path text : String} (member : known path)
    (version : history.Version f path text) (here : ∀ o ∈ f.occurrences path text, fine' path o.value)
    (others : ∀ other, other ≠ path → ∀ value, fine other value → fine' other value) :
    (v.write path text).Meets f history files known fine' := by
  have cases : ∀ other text', (v.write path text).tree.text? other = some text' →
      other = path ∧ text' = text ∨ other ≠ path ∧ v.tree.text? other = some text' := by
    intro other text' found
    by_cases same : other = path
    · subst same
      simp only [Plain.write, FileTree.text?_write, if_true, Option.some.injEq] at found
      exact .inl ⟨rfl, found.symm⟩
    · refine .inr ⟨same, ?_⟩
      simpa [Plain.write, Ne.symm same] using found
  refine ⟨fun file there => Plain.Agree.isFile_write v path text file (h.present file there),
    ?_, ?_, ?_⟩
  · intro other text' found
    rcases cases other text' found with ⟨rfl, rfl⟩ | ⟨-, old⟩
    · exact member
    · exact h.known other text' old
  · intro other text' found
    rcases cases other text' found with ⟨rfl, rfl⟩ | ⟨-, old⟩
    · exact version
    · exact h.texts other text' old
  · intro other text' found o inside
    rcases cases other text' found with ⟨rfl, rfl⟩ | ⟨differs, old⟩
    · exact here o inside
    · exact others other differs o.value (h.values other text' old o inside)

/-! ## Revisions of a file -/

/-- Revising a file asks for the new condition where the text stays as it is, and of the values that
are given and added. -/
theorem editFile (s : ScanSettings) (h : v.Meets f history files known fine) {path : String}
    {edit : List Occurrence → List Char → Option (List Char)} {c : Revision}
    (makes : ∀ text found, c.revise? found text = (edit found text.toList).map String.ofList)
    (version : ∀ text updated, v.tree.text? path = some text →
      c.revise? (f.occurrences path text) text = some updated → history.Version f path updated)
    (only : ∀ text, v.tree.text? path = some text → f.FindsOnly path text c)
    (others : ∀ other, other ≠ path → ∀ value, fine other value → fine' other value)
    (kept : ∀ text, v.tree.text? path = some text →
      edit (f.occurrences path text) text.toList = none →
      ∀ o ∈ f.occurrences path text, fine' path o.value)
    (given : known path → ∀ value, fine path value → fine' path (c.turn value))
    (added : known path → ∀ value ∈ c.added, fine' path value) :
    ((Job.editFile path edit).run (Plain.perform f s) v).2.Meets f history files known fine' := by
  rw [Job.run_editFile]
  split
  next unchanged =>
    refine ⟨h.present, h.known, h.texts, fun other text found o member => ?_⟩
    by_cases same : other = path
    · subst same
      exact kept text found (by simpa [found] using unchanged) o member
    · exact others other same o.value (h.values other text found o member)
  next updated edited =>
    obtain ⟨text, found, changed⟩ := Option.bind_eq_some_iff.1 edited
    have known := h.known path text found
    have made : c.revise? (f.occurrences path text) text = some (String.ofList updated) := by
      rw [makes, changed, Option.map_some]
    refine h.write known (version text _ found made) (fun o inside => ?_) others
    rcases (only text found).cases made inside with new | ⟨old, before, turned⟩
    · exact added known o.value new
    · rw [turned]
      exact given known old.value (h.values path text found old before)

/-- Where specifiers are replaced, the new values have to satisfy the new condition. -/
theorem replaceText (s : ScanSettings) (h : v.Meets f history files known fine) {path : String}
    {chosen : String → Bool} {change : String → String}
    (version : ∀ text updated, v.tree.text? path = some text →
      (Revision.replace chosen change).revise? (f.occurrences path text) text = some updated →
        history.Version f path updated)
    (only : ∀ text, v.tree.text? path = some text →
      f.FindsOnly path text (.replace chosen change))
    (others : ∀ other, other ≠ path → ∀ value, fine other value → fine' other value)
    (here : known path → ∀ value, fine path value →
      fine' path (if chosen value then change value else value)) :
    ((Job.replaceWhere path chosen change).run (Plain.perform f s) v).2.Meets
      f history files known fine' := by
  refine h.editFile s (fun _ _ => rfl) version only others ?_ here nofun
  intro text found unchanged o member
  have value := here (h.known path text found) o.value (h.values path text found o member)
  split at value
  next picked => rwa [Specifier.replace?_eq_none unchanged member picked] at value
  next => exact value

/-- A revision of the history leads from version to version. -/
theorem version_of_listed (h : v.Meets f history files known fine) {path : String} {c : Revision}
    (listed : c ∈ history.revisions path) (text updated : String)
    (found : v.tree.text? path = some text)
    (made : c.revise? (f.occurrences path text) text = some updated) :
    history.Version f path updated :=
  (h.texts path text found).changed listed made

theorem replaceWhere (s : ScanSettings) (h : v.Meets f history files known fine) {path : String}
    {chosen : String → Bool} {change : String → String}
    (listed : .replace chosen change ∈ history.revisions path)
    (only : history.Always f path (f.FindsOnly path))
    (others : ∀ other, other ≠ path → ∀ value, fine other value → fine' other value)
    (here : known path → ∀ value, fine path value →
      fine' path (if chosen value then change value else value)) :
    ((Job.replaceWhere path chosen change).run (Plain.perform f s) v).2.Meets
      f history files known fine' :=
  h.replaceText s (h.version_of_listed listed)
    (fun text found => only text (h.texts path text found) _ listed) others here

/-- Removing re-exports leaves values that were there. -/
theorem removeExportsWhere (s : ScanSettings) (h : v.Meets f history files known fine)
    {path : String} {chosen : String → Bool}
    (listed : .removeExports chosen ∈ history.revisions path)
    (only : history.Always f path (f.FindsOnly path)) :
    ((Job.removeExportsWhere path chosen).run (Plain.perform f s) v).2.Meets
      f history files known fine :=
  h.editFile s (fun _ _ => rfl) (h.version_of_listed listed)
    (fun text found => only text (h.texts path text found) _ listed) (fun _ _ _ => id)
    (fun text found _ => h.values path text found) (fun _ _ => id) nofun

theorem replaceSpecifier (s : ScanSettings) (h : v.Meets f history files known fine)
    {path old new : String}
    (listed : .replace (· = old) (fun _ => new) ∈ history.revisions path)
    (only : history.Always f path (f.FindsOnly path)) (here : known path → fine path new) :
    ((Job.replaceSpecifier path old new).run (Plain.perform f s) v).2.Meets
      f history files known fine := by
  rw [Job.run_replaceSpecifier]
  split
  next =>
    refine h.replaceWhere s listed only (fun _ _ _ => id) fun member value before => ?_
    split
    next => exact here member
    next => exact before
  next => exact h

/-- A wildcard export adds its own specifier; the file may be made for it. -/
theorem ensureWildcardExport (s : ScanSettings) (h : v.Meets f history files known fine)
    {path specifier : String} {same : String → Bool}
    (listed : .addExport specifier same ∈ history.revisions path)
    (only : history.Always f path (f.FindsOnly path))
    (blank : "" ∈ history.starts path ∧ f.occurrences path "" = [])
    (member : known path) (here : fine path specifier) :
    ((Job.ensureWildcardExport path specifier same).run (Plain.perform f s) v).2.Meets f history
    files known fine := by
  have before : history.Version f path ((v.tree.text? path).getD "") ∧
      v.tree.specifiers f path = f.occurrences path ((v.tree.text? path).getD "") ∧
      ∀ o ∈ f.occurrences path ((v.tree.text? path).getD ""), fine path o.value := by
    unfold FileTree.specifiers
    cases found : v.tree.text? path with
    | none => exact ⟨.start blank.1, blank.2.symm, by simp [blank.2]⟩
    | some text => exact ⟨h.texts path text found, rfl, h.values path text found⟩
  obtain ⟨version, read, fine⟩ := before
  rw [Job.run_ensureWildcardExport]
  simp only [read]
  split
  next => exact h
  next absent =>
    have missing := Bool.eq_false_iff.2 absent
    refine h.write member (version.changed listed (Revision.revise?_addExport.2 ⟨missing, rfl⟩))
      (fun o inside => ?_) fun _ _ _ => id
    rcases (only _ version _ listed).cases (Revision.revise?_addExport.2 ⟨missing, rfl⟩) inside with
      new | ⟨old, before, turned⟩
    · rw [List.mem_singleton.1 new]
      exact here
    · rw [turned]
      exact fine old before

/-- Formatting a file leaves values that were there. -/
theorem formatted (h : v.Meets f history files known fine) {path text new : String}
    {shape : String → Option String} (listed : .format shape ∈ history.revisions path)
    (only : history.Always f path (f.FindsOnly path)) (found : v.tree.text? path = some text)
    (made : shape text = some new) :
    (v.write path new).Meets f history files known fine := by
  have version := h.texts path text found
  refine h.write (h.known path text found) (version.changed listed made) (fun o inside => ?_)
    fun _ _ _ => id
  rcases (only text version _ listed).cases made inside with none | ⟨old, before, turned⟩
  · cases none
  · rw [turned]
    exact h.values path text found old before

/-- Deleting a file that need not be there. -/
theorem delete (h : v.Meets f history files known fine) {path : String} (free : ¬ files path) :
    (v.delete path).Meets f history files (fun other => known other ∧ other ≠ path) fine := by
  have old : ∀ other text, (v.delete path).tree.text? other = some text →
      other ≠ path ∧ v.tree.text? other = some text := by
    intro other text found
    by_cases same : other = path
    · simp [Plain.delete, same] at found
    · exact ⟨same, by simpa [Plain.delete, Ne.symm same] using found⟩
  refine ⟨fun file there => ?_, fun other text found => ?_, fun other text found => ?_,
    fun other text found => ?_⟩
  · have differs : path ≠ file := fun equal => free (equal ▸ there)
    have kept := h.present file there
    rw [FileTree.isFile_eq_isSome] at kept ⊢
    simpa [Plain.delete, differs] using kept
  · obtain ⟨differs, before⟩ := old other text found
    exact ⟨h.known other text before, differs⟩
  · exact h.texts other text (old other text found).2
  · exact h.values other text (old other text found).2

end Plain.Meets

end Rehome
