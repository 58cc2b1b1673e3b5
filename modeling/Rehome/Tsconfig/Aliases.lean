import Rehome.Json.Read
import Rehome.Tsconfig.Comments
import Rehome.Workspace.Basic

/-!
# Aliases from path mappings

A compiler configuration maps names of modules to files. A name without a wildcard is the alias of
the project that holds the first file it is mapped to.
-/
namespace Rehome.Tsconfig

open JsonValue

/-- The path mappings of a configuration, in their order. -/
structure Mappings where
  base : String
  paths : List (String × List String)

/-- Puts a pair at the end, or in the place of the pair with the same name. -/
def putPair {α : Type} (name : String) (value : α) : List (String × α) → List (String × α)
  | [] => [(name, value)]
  | (n, v) :: rest => if n = name then (n, value) :: rest else (n, v) :: putPair name value rest

/-- The path mappings; a repeated name keeps its first place and has its last value. -/
def pathsOf? (j : JsonValue) : Option (List (String × List String)) := do
  let pairs ← (← j.members?).mapM fun (name, targets) => (texts? targets).map (name, ·)
  return pairs.foldl (fun l (name, targets) => putPair name targets l) []

/-- A field that may be null, and may be left out of an object but not of an array. -/
def optionalField {α : Type} (r : Record) (name : String) (read : JsonValue → Option α) :
    Option (Option α) :=
  if r.positional then r.required name (nullable? read) else r.optional name none (nullable? read)

def optionsOf? (j : JsonValue) : Option Mappings := do
  let r ← record? ["baseUrl", "paths"] j
  let base ← optionalField r "baseUrl" text?
  let paths ← optionalField r "paths" pathsOf?
  return { base := base.getD ".", paths := paths.getD [] }

/-- The path mappings of a text; none if it is malformed. -/
def mappings? (text : String) : Option Mappings := do
  let j ← JsonValue.read? (String.ofList (stripComments text.toList))
  let r ← record? ["compilerOptions"] j
  let options ← optionalField r "compilerOptions" optionsOf?
  return options.getD { base := ".", paths := [] }

/-- The last of the projects with the longest root. -/
def deepest? : List Project → Option Project
  | [] => none
  | p :: rest =>
    match deepest? rest with
    | none => some p
    | some q => if q.root.utf8ByteSize < p.root.utf8ByteSize then some p else some q

/-- The project that publishes the alias of a mapping. -/
def publisher? (w : Workspace) (base : String) (mapping : String × List String) : Option Project := do
  if mapping.1.contains '*' then none
  let file ← Path.normalize? (Path.join base (← mapping.2.head?))
  deepest? (w.projects.filter (·.contains file))

/-- The projects and their aliases in the order of the mappings. -/
def aliases (w : Workspace) (m : Mappings) : List (String × String) :=
  m.paths.filterMap fun mapping => (publisher? w m.base mapping).map (·.name, mapping.1)

/-- Publishes aliases in their order, so that the last of a project counts. -/
def publish (w : Workspace) (pairs : List (String × String)) : Workspace :=
  pairs.foldl (fun w (project, name) => w.setAlias project name) w

/-- The aliases that a text declares. -/
def aliases? (w : Workspace) (text : String) : Option (List (String × String)) :=
  (mappings? text).map (aliases w)

end Rehome.Tsconfig
