import Rehome.Move.Request
import Rehome.Job.Specifiers

/-!
# Repairing references

Each kind of move repairs the references to the moved file where its strategy says they can be.
-/
namespace Rehome.Move

open Rehome.Path (resolvesTo specifierFor)

/-- Lets the specifiers of the moved file mean what they meant at its old place. -/
def repairOwn (p : Plan) : Job Bool :=
  Job.replaceWhere p.target Path.isRelative fun specifier =>
    match Path.resolve? p.source specifier with
    | some path => specifierFor p.target path (some specifier)
    | none => specifier

/-- Changes files one after the other and answers which of them changed. -/
def changed (change : String → Job Bool) : List String → Job (List String)
  | [] => return []
  | file :: rest => do
    if (← change file) then return file :: (← changed change rest)
    else changed change rest

/-- What a reference to the moved file becomes: the alias, or the way to its new place. -/
def replacement (p : Plan) (alias? : Option String) (file specifier : String) : String :=
  match alias? with
  | some name => name
  | none => specifierFor file p.target (some specifier)

/-- Repairs the references in the other files of the old project. -/
def repairProject (p : Plan) (alias? : Option String) : Job (List String) := do
  let files ← Job.sourceFiles p.sourceProject.root
  changed
    (fun file =>
      if file = p.source || file = p.target then return false
      else Job.replaceWhere file (resolvesTo file · p.source) (replacement p alias? file))
    files

/-- Lets a file that names the alias of the old project reach the moved file by its path. -/
def localize (p : Plan) (name file : String) : Job Bool :=
  Job.replaceWhere file (· = name) fun _ => specifierFor file p.target none

/-- Repairs a file of a project that names the alias of the old project. -/
def repairDependent (p : Plan) (name : String) (project : Project) (file : String) : Job Bool := do
  if file = p.target then return false
  if (← Job.hasSpecifier file name) then
    match p.targetAlias? with
    | some target =>
      if project.name ≠ p.targetProject.name then Job.replaceSpecifier file name target
      else localize p name file
    | none => localize p name file
  else return false

/-- The other projects with a file that names the alias or a path below it. -/
def projectsNaming (s : Service) (p : Plan) (name : String) : List Project → Job (List Project)
  | [] => return []
  | project :: rest => do
    if project.name = p.sourceProject.name then projectsNaming s p name rest
    else
      let files ← Job.sourceFiles project.root
      if (← Search.any s.finder s.settings s.schedule (.aliased name) files) then
        return project :: (← projectsNaming s p name rest)
      else projectsNaming s p name rest

/-- The projects that depend on one. The graph is loaded the first time. -/
def dependentsOf (s : Service) (name : String) : Session (List String) := do
  let (loaded, cache) ← onFiles ((← get).get (s.graphSource s.workspace))
  set cache
  let _ ← check loaded
  let (_, names, cache) := cache.dependentsOf name
  set cache
  return names

/-- The projects whose files may name the alias: those that depend on the old project, or, if none
is known to, those that a search finds. -/
def dependentProjects (s : Service) (p : Plan) (name : String) : Session (List Project) := do
  let dependents ← dependentsOf s p.sourceProject.name
  if dependents.isEmpty then onFiles (projectsNaming s p name s.workspace.projects)
  else return dependents.filterMap s.workspace.project?

/-- Lists the files of projects. -/
def listFiles : List Project → Job Unit
  | [] => return ()
  | project :: rest => do
    let _ ← Job.sourceFiles project.root
    listFiles rest

/-- Repairs the files of projects that name the alias. -/
def repairProjects (p : Plan) (name : String) : List Project → Job (List String)
  | [] => return []
  | project :: rest => do
    let files ← Job.sourceFiles project.root
    let here ← changed (repairDependent p name project) files
    return here ++ (← repairProjects p name rest)

/-- Repairs the files of other projects that reach the moved file through the old project's alias. -/
def propagate (s : Service) (p : Plan) : Session (List String) := do
  match p.sourceAlias? with
  | none => return []
  | some name =>
    let projects ← dependentProjects s p name
    onFiles do
      listFiles projects
      repairProjects p name projects

/-- Removes the re-exports of the moved file from the entry points of its old project. -/
def removeFromEntryPoints (p : Plan) : Job (List String) :=
  changed (fun entry => Job.removeExportsWhere entry (resolvesTo entry · p.source))
    p.sourceProject.entryPoints

/-- What repairing the references came to. -/
structure Outcome where
  changed : List String
  /-- References are left that need the new project to pass the file on. -/
  needsExport : Bool

/-- Repairs the references as the strategy says. -/
def repair (s : Service) (p : Plan) : Session Outcome := do
  match p.strategy with
  | .sameProject | .default => return ⟨← onFiles (repairProject p none), false⟩
  | .nonExportedAliased =>
    let changed ← onFiles (repairProject p p.targetAlias?)
    return ⟨changed, !changed.isEmpty⟩
  | .exported =>
    let dependents ← propagate s p
    let entries ← onFiles (removeFromEntryPoints p)
    let project ← onFiles (repairProject p p.targetAlias?)
    return ⟨dependents ++ entries ++ project, true⟩

/-- Lets the files of the new project that name the old project's alias reach the moved file by its
path. -/
def localizeTarget (p : Plan) : Job Unit := do
  match p.sourceAlias? with
  | none => return ()
  | some name =>
    let files ← Job.sourceFiles p.targetProject.root
    let _ ← changed
      (fun file => do
        if file = p.target then return false
        if (← Job.hasSpecifier file name) then localize p name file else return false)
      files

end Rehome.Move
