import Rehome.Path.Basic

/-!
# The way from one directory to a path

`relative dir path` is written the way a module specifier is: it starts with `./` or `../`, or is
`.` or `..`. The way is found by walking the components of both paths together.
-/
namespace Rehome.Path

/-- One step of a path. -/
inductive Component where
  | root
  | current
  | parent
  | name (text : String)
  deriving DecidableEq, Repr

def Component.ofSegment (segment : String) : Component :=
  if segment = "." then .current else if segment = ".." then .parent else .name segment

def Component.text : Component → String
  | root => "/"
  | current => "."
  | parent => ".."
  | name text => text

/-- Whether the path starts at the root of the file system. -/
def isAbsolute (path : String) : Bool := path.toList.head? = some '/'

/-- The components of a path. Empty segments vanish, and so does `.` except as the first segment of
a path that is not absolute. -/
def components (path : String) : List Component :=
  let pieces := (path.toList.splitOn '/').map String.ofList
  let rest (segments : List String) := (segments.filter fun s => s ≠ "" ∧ s ≠ ".").map .ofSegment
  match pieces with
  | "" :: more => if isAbsolute path then .root :: rest more else rest more
  | "." :: more => .current :: rest more
  | more => rest more

/-- Walks a path and a base together, `out` being what has been written so far. Common leading
components are skipped; every component of the base that is left costs a step up. A base that goes
up itself has no known way back. -/
def stepsFrom (out : List Component) : List Component → List Component → Option (List Component)
  | [], [] => some out
  | a :: path, [] => some (out ++ a :: path)
  | [], _ :: base => stepsFrom (out ++ [.parent]) [] base
  | a :: path, b :: base =>
    if out = [] ∧ a = b then stepsFrom out path base
    else if b = .current then stepsFrom (out ++ [a]) path base
    else if b = .parent then none
    else some (out ++ .parent :: base.map (fun _ => .parent) ++ a :: path)

/-- The steps that lead from `base` to `path`. If only `path` is absolute it is the answer itself;
if only `base` is absolute there is none. -/
def difference? (path base : String) : Option String :=
  if isAbsolute path = isAbsolute base then
    (stepsFrom [] (components path) (components base)).map fun steps =>
      String.intercalate "/" (steps.map Component.text)
  else if isAbsolute path then some path
  else none

/-- The way from `dir` to `path`, marked as relative. -/
def relative (dir path : String) : String :=
  let way :=
    match difference? path dir with
    | some way => String.ofList (way.toList.map fun c => if c = '\\' then '/' else c)
    | none => path
  if way = "" then "." else if way = ".." || "../".isPrefixOf way then way else "./" ++ way

end Rehome.Path
