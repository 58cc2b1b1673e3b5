import Rehome.Proofs.Index.Coherence
import Rehome.Proofs.Job.Run
import Rehome.Job.Specifiers

/-!
# Jobs without caches

A plain state keeps a tree and the paths that were touched, and answers every question from the tree
as it is. Other states stand for a plain one: they answer as it does, except perhaps about some
hidden files. What a job does to any such state is described by what it does to the plain state.
-/
namespace Rehome

open Specifier (Finder Occurrence)

/-- A tree of files and the paths that were written or deleted. -/
structure Plain where
  tree : FileTree
  touched : List String

namespace Plain

def write (v : Plain) (path text : String) : Plain :=
  ⟨v.tree.write path text, Names.insert path v.touched⟩

def delete (v : Plain) (path : String) : Plain :=
  ⟨v.tree.delete path, Names.insert path v.touched⟩

/-- Carries out a step of a job. Files are listed and parsed anew each time, and no list needs to be
corrected. -/
def perform (f : Finder) (s : ScanSettings) : {β : Type} → FileOp β → Plain → β × Plain
  | _, .exist path, v => (v.tree.holds path, v)
  | _, .read path, v => (v.tree.text? path, v)
  | _, .write path text, v => ((), v.write path text)
  | _, .delete path, v => ((), v.delete path)
  | _, .sourceFiles root, v => (((Index.new v.tree s).scan root).1, v)
  | _, .relist _ _ _, v => ((), v)
  | _, .specifiers path, v => (v.tree.specifiers f path, v)
  | _, .touched, v => (v.touched, v)

end Plain

namespace Job

variable {σ α β : Type}

/-! ## What a job does to states that stand for a plain one -/

section Does

variable (perform : {β : Type} → FileOp β → σ → β × σ) (stands : σ → Plain → Prop)

/-- From every state that stands for `v` the job comes to one that stands for some plain state,
which is as described together with the answer. -/
def Does (j : Job α) (v : Plain) (post : α → Plain → Prop) : Prop :=
  ∀ st, stands st v → ∃ v', stands (j.run @perform st).2 v' ∧ post (j.run @perform st).1 v'

/-- States that answer like the plain state they stand for, hidden files apart. A change of a hidden
file does not show; other files are changed in both, where that is fit. -/
structure Answers (f : Finder) (hidden : String → Prop) (fit : Plain → String → Prop) : Prop where
  read : ∀ {st v} path, stands st v → stands (perform (.read path) st).2 v ∧
    (¬ hidden path → (perform (.read path) st).1 = v.tree.text? path)
  specifiers : ∀ {st v} path, stands st v → stands (perform (.specifiers path) st).2 v ∧
    (¬ hidden path → (perform (.specifiers path) st).1 = v.tree.specifiers f path)
  write : ∀ {st v} path text, stands st v → ¬ hidden path → fit v path →
    stands (perform (.write path text) st).2 (v.write path text)
  writeHidden : ∀ {st v} path text, stands st v → hidden path →
    stands (perform (.write path text) st).2 v

end Does

variable {perform : {β : Type} → FileOp β → σ → β × σ} {stands : σ → Plain → Prop} {v : Plain}

theorem does_pure {a : α} {post : α → Plain → Prop} (holds : post a v) :
    Does @perform stands (pure a) v post := fun _ related => ⟨v, related, holds⟩

theorem Does.bind {j : Job α} {k : α → Job β} {mid : α → Plain → Prop} {post : β → Plain → Prop}
    (first : Does @perform stands j v mid)
    (later : ∀ a v', mid a v' → Does @perform stands (k a) v' post) :
    Does @perform stands (j >>= k) v post := by
  intro st related
  obtain ⟨v', after, here⟩ := first st related
  rw [run_bind]
  exact later _ v' here _ after

theorem Does.mono {j : Job α} {mid post : α → Plain → Prop} (does : Does @perform stands j v mid)
    (weaker : ∀ a v', mid a v' → post a v') : Does @perform stands j v post := by
  intro st related
  obtain ⟨v', after, here⟩ := does st related
  exact ⟨v', after, weaker _ v' here⟩

section Steps

variable {f : Finder} {hidden : String → Prop} {fit : Plain → String → Prop}

theorem does_read (answers : Answers @perform stands f hidden fit) (path : String) :
    Does @perform stands (read path) v fun text? v' => v' = v ∧
      (¬ hidden path → text? = v.tree.text? path) := by
  intro st related
  obtain ⟨after, answer⟩ := answers.read path related
  exact ⟨v, after, rfl, answer⟩

theorem does_specifiers (answers : Answers @perform stands f hidden fit) (path : String) :
    Does @perform stands (specifiers path) v fun found v' =>
      v' = v ∧ (¬ hidden path → found = v.tree.specifiers f path) := by
  intro st related
  obtain ⟨after, answer⟩ := answers.specifiers path related
  exact ⟨v, after, rfl, answer⟩

end Steps

/-! ## Jobs on one file -/

/-- A job that reads and writes one file only. It writes the file only if it is `known` to be there.
-/
inductive Edits (path : String) : Bool → Job α → Prop
  | done {known : Bool} (a : α) : Edits path known (.done a)
  | read {known : Bool} {next : Option String → Job α} (missing : Edits path known (next none))
      (found : ∀ text, Edits path true (next (some text))) :
        Edits path known (.step (.read path) next)
  | specifiers {known : Bool} {next : List Occurrence → Job α}
    (later : ∀ found, Edits path known (next found)) :
      Edits path known (.step (.specifiers path) next)
  | write {text : String} {next : Unit → Job α} (later : Edits path true (next ())) :
      Edits path true (.step (.write path text) next)

namespace Edits

variable {path : String} {known : Bool}

theorem known_true {j : Job α} (h : Edits path known j) : Edits path true j := by
  induction h with
  | done a => exact .done a
  | read _ _ missing found => exact .read missing found
  | specifiers _ later => exact .specifiers later
  | write _ later => exact .write later

theorem bind {j : Job α} {k : α → Job β} (first : Edits path known j)
    (later : ∀ a, Edits path known (k a)) :
    Edits path known (j >>= k) := by
  induction first with
  | done a => exact later a
  | read _ _ missing found => exact .read (missing later) fun text => found text fun a =>
    (later a).known_true
  | specifiers _ next => exact .specifiers fun found => next found later
  | write _ next => exact .write (next later)

/-- Nothing but the file changes. -/
theorem run_other (f : Finder) (s : ScanSettings) {j : Job α} (h : Edits path known j) (v : Plain)
    {other : String} (differs : other ≠ path) :
    (j.run (Plain.perform f s) v).2.tree.text? other = v.tree.text? other := by
  induction h generalizing v with
  | done a => rfl
  | @read known next _ _ missing found =>
    rw [run_step, Plain.perform]
    cases v.tree.text? path with
    | none => exact missing v
    | some text => exact found text v
  | specifiers _ later => exact later _ v
  | @write text _ _ later =>
    have kept : (v.write path text).tree.text? other = v.tree.text? other := by
      simp [Plain.write, Ne.symm differs]
    exact (later (v.write path text)).trans kept

/-- Of a file that is not hidden, the plain state tells all that happens. -/
theorem does {f : Finder} (s : ScanSettings) {hidden : String → Prop} {fit : Plain → String → Prop}
    (answers : Answers @perform stands f hidden fit)
    (fits : ∀ {v : Plain}, v.tree.isFile path = true → fit v path) (visible : ¬ hidden path)
    {j : Job α} (h : Edits path known j) (v : Plain)
    (present : known = true → v.tree.isFile path = true) :
    Does @perform stands j v fun a v' => (a, v') = j.run (Plain.perform f s) v := by
  induction h generalizing v with
  | done a => exact does_pure rfl
  | @read known next _ _ missing found =>
    refine (does_read answers path).bind ?_
    rintro text? _ ⟨rfl, answer⟩
    rw [run_step, Plain.perform, ← answer visible]
    cases text? with
    | none => exact missing _ present
    | some text =>
      refine found text _ fun _ => ?_
      rw [FileTree.isFile_eq_isSome, ← answer visible]
      rfl
  | specifiers _ later =>
    refine (does_specifiers answers path).bind ?_
    rintro found _ ⟨rfl, answer⟩
    rw [run_step, Plain.perform, ← answer visible]
    exact later found _ present
  | @write text _ _ later =>
    intro st related
    have after := answers.write path text related visible (fits (present rfl))
    have still : (v.write path text).tree.isFile path = true := by
      simp [Plain.write, FileTree.isFile_eq_isSome]
    exact later (v.write path text) (fun _ => still) _ after

/-- Work on a hidden file does not show. -/
theorem does_hidden {f : Finder} {hidden : String → Prop} {fit : Plain → String → Prop}
    (answers : Answers @perform stands f hidden fit) (isHidden : hidden path) {j : Job α}
    (h : Edits path known j) (v : Plain) : Does @perform stands j v fun _ v' => v' = v := by
  induction h with
  | done a => exact does_pure rfl
  | read _ _ missing found =>
    refine (does_read answers path).bind ?_
    rintro text? _ ⟨rfl, -⟩
    cases text? with
    | none => exact missing
    | some text => exact found text
  | specifiers _ later =>
    refine (does_specifiers answers path).bind ?_
    rintro found _ ⟨rfl, -⟩
    exact later found
  | @write text _ _ later =>
    intro st related
    exact later _ (answers.writeHidden path text related isHidden)

end Edits

theorem edits_pure {path : String} {known : Bool} (a : α) :
    Edits path known (pure a : Job α) := .done a

theorem edits_read (path : String) {known : Bool} : Edits path known (read path) :=
  .read (.done none) fun text => .done (some text)

theorem edits_specifiers (path : String) {known : Bool} : Edits path known (specifiers path) :=
  .specifiers fun found => .done found

theorem edits_editFile (path : String) (edit : List Occurrence → List Char → Option (List Char)) :
    Edits path false (editFile path edit) := by
  refine .read (.done false) fun text => .specifiers fun found => ?_
  rw [Job.bind]
  generalize edit found text.toList = updated
  cases updated with
  | none => exact .done false
  | some updated => exact .write (.done true)

theorem edits_replaceWhere (path : String) (chosen : String → Bool) (change : String → String) :
    Edits path false (replaceWhere path chosen change) := edits_editFile path _

theorem edits_removeExportsWhere (path : String) (chosen : String → Bool) :
    Edits path false (removeExportsWhere path chosen) := edits_editFile path _

theorem edits_mayHold (path value : String) : Edits path false (mayHold path value) := by
  refine .bind (edits_read path) fun text? => ?_
  cases text? with
  | none => exact .done false
  | some text => exact .done _

theorem edits_hasSpecifier (path value : String) : Edits path false (hasSpecifier path value) := by
  refine .bind (edits_mayHold path value) fun may => ?_
  cases may with
  | true => exact .bind (edits_specifiers path) fun found => .done _
  | false => exact .done false

theorem edits_replaceSpecifier (path old new : String) :
    Edits path false (replaceSpecifier path old new) := by
  unfold replaceSpecifier
  split
  · exact .done false
  · refine .bind (edits_mayHold path old) fun may => ?_
    cases may with
    | true => exact edits_replaceWhere path _ _
    | false => exact .done false

/-! ## Looks at the bare text -/

section

variable (f : Finder) (s : ScanSettings) (v : Plain) (path : String)

theorem run_mayHold (value : String) :
    (mayHold path value).run (Plain.perform f s) v =
      ((v.tree.text? path).any fun text => Specifier.mayContain text.toList value, v) := by
  rw [mayHold, run_bind]
  simp only [read, run_ofOp, Plain.perform]
  cases v.tree.text? path <;> rfl

/-- A specifier is replaced in a text that may hold it. -/
theorem run_replaceSpecifier (old new : String) :
    (replaceSpecifier path old new).run (Plain.perform f s) v =
      if old ≠ new ∧ (v.tree.text? path).any (fun text => Specifier.mayContain text.toList old) then
        (replaceWhere path (· = old) fun _ => new).run (Plain.perform f s) v
      else (false, v) := by
  unfold replaceSpecifier
  by_cases same : old = new
  · rw [if_pos same, if_neg fun both => both.1 same]
    rfl
  · rw [if_neg same, run_bind, run_mayHold]
    split
    next holds => rw [if_pos ⟨same, holds⟩]
    next absent =>
      rw [if_neg fun both => absent both.2]
      rfl

end

end Job
end Rehome
