import Rehome.Index.Basic
import Rehome.Move.Repair

/-!
# Moving a file

The file is written at its new place, its own specifiers and the references to it are repaired, the
new project passes it on if it should, and the old file is deleted.
-/
namespace Rehome.Move

structure Options where
  /-- The file is not added to the entry point of its new project. -/
  skipExport : Bool := false
  /-- Changed files are formatted. -/
  format : Bool := false
  deriving DecidableEq, Repr

structure Report where
  strategy : Strategy
  source : String
  target : String
  /-- The other files that were written. -/
  updated : List String
  /-- The entry point of the new project gained an export. -/
  exportAdded : Bool
  deriving DecidableEq, Repr

/-- Puts the file at its new place, and into the lists of files. -/
def place (p : Plan) : Job Unit := do
  Job.write p.target p.text
  let _ ← Job.sourceFiles p.sourceProject.root
  let _ ← Job.sourceFiles p.targetProject.root
  Job.relist p.sourceProject.root p.source none
  Job.relist p.targetProject.root p.source (some p.target)

/-- The entry point that has to pass the file on, if there is one: a library passes on what was
passed on before, or what repaired references need. -/
def exportingEntry? (p : Plan) (o : Outcome) (options : Options) : Option String :=
  if p.isInside || options.skipExport || !(p.isExported || o.needsExport) then none
  else if p.targetProject.isLibrary then p.targetProject.primaryEntryPoint?
  else none

/-- Makes the new project pass the file on. Answers whether an export was added. -/
def ensureExport (p : Plan) (o : Outcome) (options : Options) : Job Bool := do
  match exportingEntry? p o options with
  | none => return false
  | some entry =>
    Job.ensureWildcardExport entry (Path.specifierFor entry p.target none)
      (Path.resolvesTo entry · p.target)

/-- Formats files; one that looks well already is not written. -/
def formatFiles (format : String → String → Option String) : List String → Job Unit
  | [] => return ()
  | path :: rest => do
    match (← Job.read path) with
    | none => formatFiles format rest
    | some text =>
      match format path text with
      | none => formatFiles format rest
      | some formatted =>
        if formatted ≠ text then Job.write path formatted
        formatFiles format rest

/-- Formats the files that were written or deleted, if that is asked for and can be done. -/
def formatTouched (s : Service) (options : Options) : Job Unit := do
  if options.format then
    match s.formatter? with
    | some format => formatFiles format (← Job.touched)
    | none => return ()

/-- The last part of a move: the new project reaches the file and passes it on, and the old file
goes. -/
def finish (s : Service) (p : Plan) (o : Outcome) (options : Options) : Job Report := do
  if !p.isInside && p.importedInTarget then localizeTarget p
  let exportAdded ← ensureExport p o options
  Job.delete p.source
  formatTouched s options
  let touched ← Job.touched
  return {
    strategy := p.strategy, source := p.source, target := p.target
    updated := touched.filter fun path => path ≠ p.source && path ≠ p.target
    exportAdded }

/-- Moves a file. -/
def file (s : Service) (r : Request) (options : Options) : Session Report := do
  let plan ← resolve s r
  onFiles (place plan)
  let _ ← onFiles (repairOwn plan)
  let outcome ← repair s plan
  onFiles (finish s plan outcome options)

/-- A result, how often the graph was loaded, and the tree afterwards. -/
structure Result where
  report : Except Error Report
  loads : Nat
  tree : FileTree
  /-- The move ends. If it does not, the rest is of no account. -/
  ends : Bool

/-- What a move answers; nothing if it does not end. -/
def Result.answer? (result : Result) : Option (Except Error Report) :=
  if result.ends then some result.report else none

/-- Moves a file of a tree. Nothing is kept from one move to the next. After a failure the tree may
hold part of the changes. -/
def run (s : Service) (r : Request) (options : Options) (tree : FileTree) : Result :=
  let job := (file s r options).run.run .empty
  let ((report, cache), index) := (Index.new tree s.settings).run s.finder job
  { report, loads := cache.loads, tree := index.tree, ends := !index.endless }

end Rehome.Move
