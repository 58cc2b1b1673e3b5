import Rehome.Graph.Basic
import Rehome.Specifier.Query
import Rehome.Job.Basic
import Rehome.Workspace.Basic

/-!
# Dependencies read off the specifiers

A project depends on another one if a specifier in one of its files is the other's alias or leads
below it.
-/
namespace Rehome.Dependencies

/-- The aliases of the registered projects, in the order of the projects' names. -/
def published (w : Workspace) : List (String × String) :=
  w.projects.filterMap fun p => (w.alias? p.name).map (·, p.name)

/-- The project with the longest alias that a specifier is or leads below; of aliases of the same
length the last one. -/
def aliasOwner? (specifier : String) : List (String × String) → Option (String × String)
  | [] => none
  | (name, project) :: rest =>
    match aliasOwner? specifier rest with
    | some (other, owner) =>
      if Specifier.isUnderAlias name specifier && other.utf8ByteSize < name.utf8ByteSize then
        some (name, project)
      else some (other, owner)
    | none => if Specifier.isUnderAlias name specifier then some (name, project) else none

/-- Adds the dependencies of a project that the specifiers of some files show. -/
def addFiles (aliases : List (String × String)) (project : String) :
    Graph → List String → Job Graph
  | g, [] => return g
  | g, file :: rest => do
    let owners := (← Job.specifiers file).filterMap fun o => aliasOwner? o.value aliases
    addFiles aliases project (owners.foldl (fun g o => g.addDependency project o.2) g) rest

/-- Adds projects with the dependencies that all their files show. -/
def addProjects (aliases : List (String × String)) : Graph → List Project → Job Graph
  | g, [] => return g
  | g, p :: rest => do
    let files ← Job.sourceFiles p.root
    addProjects aliases (← addFiles aliases p.name (g.addProject p.name).2 files) rest

/-- The graph of a workspace. -/
def load (w : Workspace) : Job Graph := addProjects (published w) .empty w.projects

end Rehome.Dependencies
