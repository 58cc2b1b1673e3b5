import Rehome.Disk.Basic
import Rehome.Proofs.Files.Directories

/-!
# The journal of a tree

The journal holds only the last change of each path, and nothing about a path that was to be deleted
and was no file. Still nothing is lost: whatever was written and deleted before, the journal turns
the files that the tree started with into those that it has now. A step changes a file and its entry
together, and a run repeats the step.
-/
namespace Rehome

/-! ## Changes carried out again -/

namespace Change

/-- What a path holds after a change. -/
def text? : Change → Option String
  | .write text => some text
  | .delete => none

/-- Carries out a change of a path. -/
def on (files : Table String) (path : String) : Change → Table String
  | .write text => files.insert path text
  | .delete => files.erase path

theorem get?_on (files : Table String) (path other : String) (change : Change) :
    (change.on files path).get? other = if path = other then change.text? else files.get? other := by
  cases change with
  | write text => exact Table.get?_insert files path other text
  | delete => exact Table.get?_erase files path other

/-- Carries out changes of paths one after the other. -/
def replay (files : Table String) (changes : List (String × Change)) : Table String :=
  changes.foldl (fun files e => e.2.on files e.1) files

/-- In the order of paths each path is changed at most once. -/
theorem get?_replay {changes : List (String × Change)}
    (ordered : changes.Pairwise fun a b => a.1 < b.1) (files : Table String) (path : String) :
    (replay files changes).get? path =
      (Table.lookup path changes).elim (files.get? path) Change.text? := by
  induction changes generalizing files with
  | nil => rfl
  | cons e rest ih =>
    obtain ⟨first, ordered⟩ := List.pairwise_cons.1 ordered
    refine (ih ordered (e.2.on files e.1)).trans ?_
    rw [get?_on]
    by_cases here : e.1 = path
    · have later : Table.lookup path rest = none :=
        Table.lookup_eq_none_of_lt fun d member => here ▸ first d member
      simp [Table.lookup, here, later]
    · simp [Table.lookup, here]

end Change

namespace FileTree

/-! ## Runs of calls -/

/-- What can be done to the files of a tree. -/
inductive Call where
  | write (path text : String)
  | delete (path : String)
  deriving DecidableEq, Repr

def Call.on (t : FileTree) : Call → FileTree
  | .write path text => t.write path text
  | .delete path => t.delete path

/-- The tree after calls. -/
def after (t : FileTree) (calls : List Call) : FileTree := calls.foldl Call.on t

/-- The change of a path that a call notes. Only what is a file can be deleted. -/
def Call.change? (t : FileTree) (path : String) : Call → Option Change
  | .write other text => if other = path then some (.write text) else none
  | .delete other => if other = path ∧ t.isFile path = true then some .delete else none

variable {t : FileTree} {path : String}

theorem isSome_change?_iff {c : Call} :
    (c.change? t path).isSome = true ↔
      (∃ text, c = .write path text) ∨ c = .delete path ∧ t.isFile path = true := by
  cases c with
  | write other text =>
    by_cases here : other = path <;> simp [Call.change?, here]
  | delete other =>
    by_cases here : other = path <;> simp [Call.change?, here]

/-- A call enters its change into the journal. -/
theorem get?_changes_on (t : FileTree) (path : String) (c : Call) :
    (c.on t).changes.get? path = (c.change? t path).or (t.changes.get? path) := by
  cases c with
  | write other text =>
    rw [Call.on, write, Table.get?_insert, Call.change?]
    split <;> rfl
  | delete other =>
    rw [Call.on, delete, Call.change?]
    by_cases here : other = path
    · subst here
      cases t.isFile other <;> simp
    · cases t.isFile other <;> simp [here]

/-- A call makes of a path what its change says, and leaves it alone without one. -/
theorem text?_on (t : FileTree) (path : String) (c : Call) :
    (c.on t).text? path = (c.change? t path).elim (t.text? path) Change.text? := by
  cases c with
  | write other text =>
    rw [Call.on, text?_write, Call.change?]
    split <;> rfl
  | delete other =>
    rw [Call.on, text?_delete, Call.change?]
    by_cases here : other = path
    · subst here
      cases file : t.isFile other
      · simp [text?_eq_none_iff.2 file]
      · simp [Change.text?]
    · simp [here]

/-! ## What the journal says -/

/-- Where the journal has an entry it tells the text, and everywhere else the text is that of
`base`. -/
def Records (base : Table String) (t : FileTree) : Prop :=
  ∀ path, t.text? path = (t.changes.get? path).elim (base.get? path) Change.text?

theorem Records.on {base : Table String} (h : Records base t) (c : Call) :
    Records base (c.on t) := by
  intro path
  rw [text?_on, get?_changes_on, h path]
  cases c.change? t path <;> rfl

theorem Records.after {base : Table String} (h : Records base t) (calls : List Call) :
    Records base (t.after calls) := by
  induction calls generalizing t with
  | nil => exact h
  | cons c calls ih => exact ih (h.on c)

theorem Records.replay {base : Table String} (h : Records base t) :
    Change.replay base t.changes.entries = t.files :=
  Table.ext_get? fun path => (Change.get?_replay t.changes.ordered base path).trans (h path).symm

/-- A path has an entry if it had one before, or one of the calls noted a change of it. -/
theorem isSome_changes_after (t : FileTree) (path : String) (calls : List Call) :
    ((t.after calls).changes.get? path).isSome = true ↔ (t.changes.get? path).isSome = true ∨
      ∃ before c later, calls = before ++ c :: later ∧
        (c.change? (t.after before) path).isSome = true := by
  induction calls generalizing t with
  | nil => simp [after]
  | cons first calls ih =>
    have step : ((first.on t).changes.get? path).isSome = true ↔
        (first.change? t path).isSome = true ∨ (t.changes.get? path).isSome = true := by
      rw [get?_changes_on, Option.isSome_or, Bool.or_eq_true]
    refine (ih (first.on t)).trans ?_
    rw [step]
    constructor
    · rintro ((here | old) | ⟨before, c, later, rfl, noted⟩)
      · exact .inr ⟨[], first, calls, rfl, here⟩
      · exact .inl old
      · exact .inr ⟨first :: before, c, later, rfl, noted⟩
    · rintro (old | ⟨before, c, later, cut, noted⟩)
      · exact .inl (.inr old)
      · cases before with
        | nil =>
          obtain ⟨rfl, -⟩ := List.cons.inj cut
          exact .inl (.inl noted)
        | cons d before =>
          obtain ⟨rfl, rest⟩ := List.cons.inj cut
          exact .inr ⟨before, c, later, rest, noted⟩

/-- Seeding a tree leaves no trace in its journal. -/
theorem changes_ofList (seeds : List (String × String)) : (ofList seeds).changes = .empty := by
  unfold ofList
  have kept : ∀ t : FileTree, (seeds.foldl (fun t f => t.seed f.1 f.2) t).changes = t.changes := by
    induction seeds with
    | nil => exact fun _ => rfl
    | cons f seeds ih => exact fun t => ih (t.seed f.1 f.2)
  exact kept empty

/-- After any writes and deletions a path holds what its entry in the journal says, and without an
entry what it held at the start. The paths with an entry are those that were written, or deleted
while they were files. So the journal, carried out in the order of paths on the files of the start,
gives the files. -/
theorem journal_replays_to_files (seeds : List (String × String)) (calls : List Call) :
    let base := ofList seeds
    let t := base.after calls
    (∀ path, t.text? path = (t.changes.get? path).elim (base.text? path) Change.text?) ∧
    (∀ path, t.changes.contains path = true ↔ ∃ before c later, calls = before ++ c :: later ∧
      ((∃ text, c = .write path text) ∨
        c = .delete path ∧ (base.after before).isFile path = true)) ∧
    Change.replay base.files t.changes.entries = t.files := by
  intro base t
  have start : Records base.files base := by
    intro path
    rw [changes_ofList]
    rfl
  have records : Records base.files t := start.after calls
  refine ⟨records, fun path => ?_, records.replay⟩
  have entries := isSome_changes_after base path calls
  rw [changes_ofList] at entries
  refine entries.trans ?_
  simp only [Table.get?_empty, Option.isSome_none, Bool.false_eq_true, false_or, isSome_change?_iff]

end FileTree

/-! ## Carrying out the journal on a disk -/

namespace Disk

variable {d : Disk} {files : Table String}

/-- The texts of files, as a disk keeps them. -/
def texts (files : Table String) : Table (Option String) := files.map fun _ text => some text

theorem texts_insert (files : Table String) (path text : String) :
    texts (files.insert path text) = (texts files).insert path (some text) := by
  apply Table.ext_get?
  intro other
  by_cases here : path = other <;> simp [texts, here]

theorem texts_erase (files : Table String) (path : String) :
    texts (files.erase path) = (texts files).erase path := by
  apply Table.ext_get?
  intro other
  by_cases here : path = other <;> simp [texts, here]

theorem files_write {d' : Disk} {path text : String} (clean : place path = path)
    (written : d.write path text = .ok d') : d'.files = d.files.insert path (some text) := by
  simp only [write, clean] at written
  split at written
  · cases written
  · split at written
    · cases written
    · cases written
      rfl

theorem files_delete {d' : Disk} {path : String} (clean : place path = path)
    (deleted : d.delete path = .ok d') : d'.files = d.files.erase path := by
  simp only [delete, clean] at deleted
  split at deleted
  · cases deleted
  · cases deleted
    rfl

/-- A disk that holds some files and carries out all changes holds what the changes make of the
files. -/
theorem files_carryOut {changes : List (String × Change)} (clean : ∀ e ∈ changes, place e.1 = e.1)
    (holds : d.files = texts files) (done : (d.carryOut changes).1 = .ok ()) :
    (d.carryOut changes).2.files = texts (Change.replay files changes) := by
  induction changes generalizing d files with
  | nil => exact holds
  | cons e rest ih =>
    obtain ⟨path, change⟩ := e
    have here : place path = path := clean (path, change) (by simp)
    have later : ∀ e ∈ rest, place e.1 = e.1 := fun e member => clean e (by simp [member])
    cases change with
    | write text =>
      simp only [carryOut] at done ⊢
      cases carried : d.write path text with
      | error e => simp [carried] at done
      | ok d' =>
        have now : d'.files = texts (files.insert path text) := by
          rw [files_write here carried, holds, texts_insert]
        simp only [carried] at done ⊢
        exact ih later now done
    | delete =>
      simp only [carryOut] at done ⊢
      cases carried : d.delete path with
      | error e => simp [carried] at done
      | ok d' =>
        have now : d'.files = texts (files.erase path) := by
          rw [files_delete here carried, holds, texts_erase]
        simp only [carried] at done ⊢
        exact ih later now done

/-- A disk with the files that a tree started with, on which the journal of the tree is carried out
without a failure, has the files of the tree. -/
theorem files_commit {base : Table String} {t : FileTree} (records : t.Records base)
    (clean : ∀ e ∈ t.changes.entries, place e.1 = e.1) (holds : d.files = texts base) {count : Nat}
    (done : (d.commit t).1 = .ok count) : (d.commit t).2.files = texts t.files := by
  have carried : (d.carryOut t.changes.entries).1 = .ok () := by
    rw [commit] at done
    cases all : (d.carryOut t.changes.entries).1 with
    | ok => rfl
    | error e => simp [all, Except.map] at done
  rw [← records.replay]
  exact files_carryOut clean holds carried

end Disk
end Rehome
