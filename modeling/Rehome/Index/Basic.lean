import Rehome.Config.Settings
import Rehome.Files.Tree
import Rehome.Specifier.Finder
import Rehome.Job.Basic

/-!
# An index with caches

The index answers questions about a tree of files and keeps the answers: whether a path exists, the
text of a file, the source files below a root, and the specifiers of a text. Each change that goes
through the index corrects what it keeps.
-/
namespace Rehome

open Specifier (Finder Occurrence)

/-- A text as it was read, with the number of that reading. -/
structure Reading where
  number : Nat
  text : String
  deriving DecidableEq, Repr

structure Index where
  tree : FileTree
  settings : ScanSettings
  existence : Table Bool
  /-- The texts of files; a file known to be missing has none. -/
  texts : Table (Option Reading)
  lists : Table (List String)
  touched : List String
  /-- Specifiers, with the number of the reading they were found in. -/
  parsed : Table (Nat × List Occurrence)
  readings : Nat
  /-- How often a text was parsed. -/
  parses : Nat
  /-- The files below some root were asked for, and looking for them does not end. -/
  endless : Bool

namespace Index

/-- An index that keeps nothing yet. -/
def new (tree : FileTree) (settings : ScanSettings) : Index where
  tree
  settings
  existence := .empty
  texts := .empty
  lists := .empty
  touched := []
  parsed := .empty
  readings := 0
  parses := 0
  endless := false

/-- Whether a path is a file or a directory with files. -/
def exist (i : Index) (path : String) : Bool × Index :=
  match i.existence.get? path with
  | some known => (known, i)
  | none =>
    let (answer, tree) := i.tree.askExists path
    (answer, { i with tree, existence := i.existence.insert path answer })

/-- The text of a file, with the number of its reading. -/
def reading (i : Index) (path : String) : Option Reading × Index :=
  match i.texts.get? path with
  | some known => (known, i)
  | none =>
    let (text?, tree) := i.tree.askText path
    let answer := text?.map fun text => ⟨i.readings, text⟩
    (answer, { i with tree, texts := i.texts.insert path answer, readings := i.readings + 1 })

/-- The text of a file. -/
def read (i : Index) (path : String) : Option String × Index :=
  let (answer, i) := i.reading path
  (answer.map (·.text), i)

/-- Whether a path is a file. -/
def isFile (i : Index) (path : String) : Bool := i.tree.isFile path

/-- Forgets the text of a file. -/
def invalidate (i : Index) (path : String) : Index := { i with texts := i.texts.erase path }

/-- The directories above a path, except the workspace itself. -/
def directories (path : String) : List String := (Path.ancestors path).filter (· ≠ "")

/-- Notes that directories exist, as far as something is known about them. -/
def noteExisting (existence : Table Bool) (dirs : List String) : Table Bool :=
  dirs.foldl (fun t dir => if t.contains dir then t.insert dir true else t) existence

/-- Puts a path into a list, if it belongs there. -/
def enlist (s : ScanSettings) (root path : String) (list : List String) : List String :=
  if s.lists root path then Names.insert path list else list

/-- Writes a file. -/
def write (i : Index) (path text : String) : Index :=
  { i with
    tree := i.tree.write path text
    touched := Names.insert path i.touched
    existence := noteExisting (i.existence.insert path true) (directories path)
    texts := i.texts.erase path
    lists := i.lists.map fun root list => enlist i.settings root path list }

/-- Deletes a file. A directory above may be gone with it, so nothing is known of those. -/
def delete (i : Index) (path : String) : Index :=
  { i with
    tree := i.tree.delete path
    touched := Names.insert path i.touched
    existence := (directories path).foldl Table.erase (i.existence.insert path false)
    texts := i.texts.erase path
    lists := i.lists.map fun _ list => Names.erase path list }

/-- Sorts the names of a directory into source files and directories to enter. -/
def classify (i : Index) (dir : String) (names : List String) : List String × List String :=
  let paths := names.map fun name => (name, Path.join dir name)
  let files := paths.filter fun (_, path) => i.tree.isFile path && i.settings.isSource path
  let dirs := paths.filter fun (name, path) => !i.tree.isFile path && !i.settings.skips name
  (files.map (·.2), dirs.map (·.2))

/-- Goes through directories, the one found last first, and gathers source files; `fuel` bounds the
number of directories. A walk that has some left over would not end. -/
def walk : (fuel : Nat) → Index → (pending found : List String) → List String × Index
  | 0, i, pending, found => (found, { i with endless := i.endless || !pending.isEmpty })
  | _ + 1, i, [], found => (found, i)
  | fuel + 1, i, dir :: pending, found =>
    let (names, tree) := i.tree.askChildren dir
    let i := { i with tree }
    let (files, dirs) := i.classify dir names
    walk fuel i (dirs.reverse ++ pending) (found ++ files)

/-- No more directories than this can lie above the files of a tree, so a walk that enters more has
come to a directory twice. -/
def directoryBound (t : FileTree) : Nat :=
  t.files.names.foldl (fun n name => n + name.length + 1) 1

/-- Lists the source files below a root. -/
def scan (i : Index) (root : String) : List String × Index :=
  let (found, i) := walk (directoryBound i.tree) i [root] []
  (Names.sort found, i)

/-- The source files below a root. -/
def sourceFiles (i : Index) (root : String) : List String × Index :=
  match i.lists.get? root with
  | some list => (list, i)
  | none =>
    let (list, i) := i.scan root
    (list, { i with lists := i.lists.insert root list })

/-- Corrects the list of a root, if there is one, for a file that goes from one path to another. -/
def relist (i : Index) (root old : String) (new? : Option String) : Index :=
  match i.lists.get? root with
  | none => i
  | some list =>
    let list := Names.erase old list
    let list :=
      match new? with
      | some new => enlist i.settings root new list
      | none => list
    { i with lists := i.lists.insert root list }

/-- Looks for the specifiers of a text and keeps them. -/
def parse (f : Finder) (i : Index) (path : String) (r : Reading) : List Occurrence × Index :=
  let found := f.occurrences path r.text
  (found,
    { i with
      parsed := i.parsed.insert path (r.number, found)
      parses := if f.handles path then i.parses + 1 else i.parses })

/-- The specifiers of a file; none if it is missing or cannot be parsed. What was found in the same
reading is not looked for again. -/
def specifiers (f : Finder) (i : Index) (path : String) : List Occurrence × Index :=
  match i.reading path with
  | (none, i) => ([], i)
  | (some r, i) =>
    match i.parsed.get? path with
    | some (number, found) => if number = r.number then (found, i) else parse f i path r
    | none => parse f i path r

/-- Carries out a step of a job. -/
def perform (f : Finder) : {β : Type} → FileOp β → Index → β × Index
  | _, .exist path, i => i.exist path
  | _, .read path, i => i.read path
  | _, .write path text, i => ((), i.write path text)
  | _, .delete path, i => ((), i.delete path)
  | _, .sourceFiles root, i => i.sourceFiles root
  | _, .relist root old new?, i => ((), i.relist root old new?)
  | _, .specifiers path, i => i.specifiers f path
  | _, .touched, i => (i.touched, i)

/-- Runs a job on the index. -/
def run {α : Type} (f : Finder) (t : Job α) (i : Index) : α × Index := t.run (perform f) i

end Index
end Rehome
