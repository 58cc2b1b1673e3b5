import Rehome.Graph.Cache
import Rehome.Move.Strategy
import Rehome.Path.Specifier
import Rehome.Job.Dependencies
import Rehome.Job.Search
import Rehome.Workspace.Ownership

/-!
# Requests to move a file

A request is checked before anything changes. The result is a plan that says everything about the
move: both paths, both projects, and who may refer to the file.
-/
namespace Rehome.Move

open Specifier (Finder)

/-- Where a file should go. -/
inductive Target where
  | path (path : String)
  /-- Below the sources of a project, in the directory `lib` and a directory given inside it. -/
  | project (name : String) (directory? : Option String)
  deriving DecidableEq, Repr

structure Request where
  source : String
  target : Target
  deriving DecidableEq, Repr

/-- Where the dependencies between projects are learnt from. -/
abbrev GraphSource := Workspace → Job (Except Error Graph)

/-- A graph that is known beforehand. -/
def GraphSource.fixed (g : Graph) : GraphSource := fun _ => return .ok g

/-- The graph that the specifiers of all files show. -/
def GraphSource.imports : GraphSource := fun w => return .ok (← Dependencies.load w)

/-- What moves need to know besides the request. -/
structure Service where
  workspace : Workspace
  finder : Finder
  settings : ScanSettings
  schedule : Search.Schedule := .orderly
  graphSource : GraphSource
  /-- Makes the text of a file look well, or leaves it as it is. -/
  formatter? : Option (String → String → Option String) := none

/-- A move that has been checked. -/
structure Plan where
  source : String
  target : String
  sourceProject : Project
  targetProject : Project
  /-- The text of the file when the move starts. -/
  text : String
  /-- An entry point of the old project passes the file on. -/
  isExported : Bool
  sourceAlias? : Option String
  targetAlias? : Option String
  /-- The file is passed on, and a file of the new project names the alias of the old one. -/
  importedInTarget : Bool
  deriving DecidableEq, Repr

namespace Plan

/-- Whether the file stays in its project. -/
def isInside (p : Plan) : Bool := p.sourceProject.name = p.targetProject.name

def strategy (p : Plan) : Strategy := .select p.isInside p.isExported p.targetAlias?.isSome

end Plan

/-- The path of a file that goes to a project, in the directory `lib` of its sources. -/
def derivedTarget (p : Project) (directory? : Option String) (source : String) :
    Except Error String := do
  let lib := Path.join p.sources "lib"
  let dir ←
    match directory? with
    | none => pure lib
    | some directory => pure (Path.join lib (← Path.normalize directory))
  Path.normalize (Path.join dir (Path.basename source))

/-- The path that a request asks for. -/
def targetPath (w : Workspace) (source : String) : Target → Except Error String
  | .path path => Path.normalize path
  | .project name directory? =>
    match w.project? name with
    | none => .error (.notFound ("project " ++ name))
    | some p => derivedTarget p directory? source

/-- Whether one of the entry points passes a file on. -/
def exportedBy (source : String) : List String → Job Bool
  | [] => return false
  | entry :: rest => do
    let found ← Job.specifiers entry
    if found.any fun o => o.kind.isExport && Path.resolvesTo entry o.value source then return true
    else exportedBy source rest

/-- Work that may fail and that may need the graph. -/
abbrev Session := ExceptT Error (StateT Graph.Cache Job)

/-- Work on files inside a session. -/
def onFiles {α : Type} (t : Job α) : Session α := ExceptT.lift (StateT.lift t)

/-- A check inside a session. -/
def check {α : Type} (e : Except Error α) : Session α := ExceptT.mk (pure e)

/-- Refuses what is no source file. -/
def checkSourceFile (s : ScanSettings) (path : String) : Except Error Unit :=
  if s.isSource path then .ok ()
  else .error (.invalidRequest (path ++ " is not a source file"))

/-- Refuses a file that is not there. -/
def checkFound (path : String) : Option String → Except Error String
  | some text => .ok text
  | none => .error (.notFound path)

/-- Refuses a file that would stay where it is. -/
def checkDistinct (source target : String) : Except Error Unit :=
  if target = source then .error (.invalidRequest "source and target are the same file") else .ok ()

/-- Refuses a path that is taken. -/
def checkFree (path : String) (taken : Bool) : Except Error Unit :=
  if taken then .error (.alreadyExists path) else .ok ()

/-- A request that may be carried out: from where to where, and the text of the file. -/
structure Route where
  source : String
  target : String
  text : String
  sourceProject : Project
  targetProject : Project

/-- Checks a request. Only questions are asked, and the first check that fails decides. -/
def route (s : Service) (r : Request) : Session Route := do
  let source ← check (Path.normalize r.source)
  check (checkSourceFile s.settings source)
  let text ← check (checkFound source (← onFiles (Job.read source)))
  let sourceProject ← check (s.workspace.owner source)
  let target ← check (targetPath s.workspace source r.target)
  check (checkDistinct source target)
  check (checkSourceFile s.settings target)
  check (checkFree target (← onFiles (Job.exist target)))
  let targetProject ← check (s.workspace.owner target)
  return { source, target, text, sourceProject, targetProject }

/-- Whether a file of the new project names the alias of the old one. Only what is passed on can be
reached through an alias. -/
def importedInTarget (s : Service) (x : Route) (isExported : Bool) : Job Bool := do
  match s.workspace.alias? x.sourceProject.name with
  | none => return false
  | some name =>
    if x.sourceProject.name ≠ x.targetProject.name && isExported then
      let files ← Job.sourceFiles x.targetProject.root
      Search.any s.finder s.settings s.schedule (.exact name) files
    else return false

/-- Finds out who may refer to the file. -/
def survey (s : Service) (x : Route) : Job Plan := do
  let isExported ← exportedBy x.source x.sourceProject.entryPoints
  return {
    source := x.source, target := x.target, text := x.text
    sourceProject := x.sourceProject, targetProject := x.targetProject, isExported
    sourceAlias? := s.workspace.alias? x.sourceProject.name
    targetAlias? := s.workspace.alias? x.targetProject.name
    importedInTarget := ← importedInTarget s x isExported }

/-- The plan for a request. Only questions are asked. -/
def resolve (s : Service) (r : Request) : Session Plan := do
  let x ← route s r
  onFiles (survey s x)

end Rehome.Move
