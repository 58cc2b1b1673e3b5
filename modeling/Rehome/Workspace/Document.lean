import Rehome.Error
import Rehome.Json.Read
import Rehome.Workspace.Basic

/-!
# Workspaces written as JSON
-/
namespace Rehome.Workspace

open JsonValue

/-- A kind is written as its name, or as an object with that name and nothing in it. -/
def kindOf? : JsonValue → Option ProjectKind
  | .str (some "library") | .obj [(some "library", .null)] => some .library
  | .str (some "application") | .obj [(some "application", .null)] => some .application
  | _ => none

def projectOf? (j : JsonValue) : Option Project := do
  let r ← record? ["name", "root", "sourceRoot", "kind", "entryPoints"] j
  return {
    name := ← r.required "name" text?
    root := ← r.required "root" text?
    sourceRoot? := ← r.optional "sourceRoot" none (nullable? text?)
    kind := ← r.required "kind" kindOf?
    entryPoints := ← r.optional "entryPoints" [] texts? }

def projectsOf? : JsonValue → Option (List Project)
  | .arr items => items.mapM projectOf?
  | _ => none

/-- Aliases by the names of their projects; of a repeated name the last alias counts. -/
def aliasesOf? (j : JsonValue) : Option (Table String) := do
  let pairs ← (← j.members?).mapM fun (project, value) => (text? value).map (project, ·)
  return Table.ofList pairs

def documentOf? (j : JsonValue) : Option (List Project × Table String) := do
  let r ← record? ["projects", "aliases"] j
  return (← r.optional "projects" [] projectsOf?, ← r.optional "aliases" .empty aliasesOf?)

/-- Publishes aliases in order; each must be of a registered project. -/
def setAliases (w : Workspace) : List (String × String) → Except Error Workspace
  | [] => .ok w
  | (project, name) :: rest =>
    if (w.project? project).isSome then setAliases (w.setAlias project name) rest
    else .error (.config ("Alias '" ++ name ++ "' refers to unknown project '" ++ project ++ "'"))

/-- The workspace that a text describes. -/
def ofJson (text : String) : Except Error Workspace :=
  match (JsonValue.read? text).bind documentOf? with
  | none => .error (.config "Invalid workspace description")
  | some (projects, aliases) => setAliases (projects.foldl addProject empty) aliases.entries

end Rehome.Workspace
