import Rehome.Path.Basic
import Rehome.Table

/-!
# Projects and workspaces

A workspace is a set of projects with distinct names. A project may publish an alias, by which
modules of other projects name its entry point.
-/
namespace Rehome

inductive ProjectKind where
  | library
  | application
  deriving DecidableEq, Repr

/-- A project lives below its root. Its entry points are the files that pass on what other projects
may use; the first one takes new exports. -/
structure Project where
  name : String
  root : String
  sourceRoot? : Option String
  kind : ProjectKind
  entryPoints : List String
  deriving DecidableEq, Repr

namespace Project

/-- The directory of the sources: the declared one, or the root. -/
def sources (p : Project) : String := p.sourceRoot?.getD p.root

def isLibrary (p : Project) : Bool := p.kind = .library

def primaryEntryPoint? (p : Project) : Option String := p.entryPoints.head?

/-- Whether a path lies below the root. -/
def contains (p : Project) (path : String) : Bool := Path.isWithin path p.root

end Project

/-- Each project stands under its own name. -/
structure Workspace where
  byName : Table Project
  aliases : Table String
  named : ∀ e ∈ byName.entries, e.2.name = e.1

namespace Workspace

def empty : Workspace := ⟨.empty, .empty, nofun⟩

/-- Registers a project; one of the same name gives way. -/
def addProject (w : Workspace) (p : Project) : Workspace :=
  { w with
    byName := w.byName.insert p.name p
    named := fun e member => by
      rcases Table.mem_place member with rfl | old
      · rfl
      · exact w.named e old }

/-- Publishes an alias of a project; an earlier one gives way. -/
def setAlias (w : Workspace) (project name : String) : Workspace :=
  { w with aliases := w.aliases.insert project name }

def project? (w : Workspace) (name : String) : Option Project := w.byName.get? name

/-- The projects in the order of their names. -/
def projects (w : Workspace) : List Project := w.byName.values

/-- The alias a project publishes. -/
def alias? (w : Workspace) (project : String) : Option String := w.aliases.get? project

/-- The first project, in the order of names, that publishes the alias. -/
def projectForAlias? (w : Workspace) (name : String) : Option Project :=
  (w.aliases.entries.find? (·.2 = name)).bind fun (project, _) => w.project? project

end Workspace
end Rehome
