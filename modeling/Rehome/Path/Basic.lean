import Rehome.Text.Bytes
import Rehome.Error

/-!
# Module paths

Paths are written with `/` and are relative to the workspace. A clean path has no empty segment and
no `.` or `..`; `normalize?` finds the clean path and refuses one that leaves the workspace.
-/
namespace Rehome.Path

/-- The extensions of source files, without their dot. -/
def sourceExtensions : List String :=
  ["ts", "tsx", "js", "jsx", "mts", "cts", "mjs", "cjs"]

/-- The pieces between slashes; a backslash divides as well. -/
def segments (path : String) : List String :=
  ((path.toList.map fun c => if c = '\\' then '/' else c).splitOn '/').map String.ofList

/-- Walks the segments with the kept ones, newest first: `..` takes the newest kept segment away and
fails without one. -/
def collapse : List String → List String → Option (List String)
  | kept, [] => some kept.reverse
  | kept, s :: rest =>
    if s = "" ∨ s = "." then collapse kept rest
    else if s = ".." then
      match kept with
      | [] => none
      | _ :: kept => collapse kept rest
    else collapse (s :: kept) rest

/-- The clean path with the same meaning, if it stays inside the workspace. -/
def normalize? (path : String) : Option String :=
  (collapse [] (segments path)).map (String.intercalate "/")

/-- The clean path, or the complaint about the path as it was written. -/
def normalize (path : String) : Except Error String :=
  match normalize? path with
  | some clean => .ok clean
  | none => .error (.invalidPath path)

/-- Everything before the last slash; empty without one. -/
def dirname (path : String) : String :=
  match Text.splitLast? '/' path.toList with
  | some (dir, _) => String.ofList dir
  | none => ""

/-- Everything after the last slash. -/
def basename (path : String) : String :=
  match Text.splitLast? '/' path.toList with
  | some (_, name) => String.ofList name
  | none => path

/-- Puts `rel` below `dir`; an empty side gives the other one. -/
def join (dir rel : String) : String :=
  if dir = "" then rel else if rel = "" then dir else dir ++ "/" ++ rel

/-- What stands before each slash, the shortest first; `front` is the part read so far, reversed. -/
def frontsFrom (front : List Char) : List Char → List (List Char)
  | [] => []
  | c :: cs =>
    if c = '/' then front.reverse :: frontsFrom (c :: front) cs else frontsFrom (c :: front) cs

/-- The directories above a path, the outermost first. -/
def ancestors (path : String) : List String := (frontsFrom [] path.toList).map String.ofList

/-- The path relative to `root`, if it lies below it: what follows `root` and a slash. -/
def below? (root path : String) : Option String :=
  (Text.dropFront? (root.toList ++ ['/']) path.toList).map String.ofList

/-- Whether `path` is `root` or lies below it; everything lies within the empty root. -/
def isWithin (path root : String) : Bool :=
  root = "" || path = root || (below? root path).isSome

/-- The stem and the text after the last dot of a file name, unless the name starts with that dot. -/
def splitExtension? (name : String) : Option (String × String) :=
  match Text.splitLast? '.' name.toList with
  | some (c :: stem, ext) => some (String.ofList (c :: stem), String.ofList ext)
  | _ => none

/-- The extension with its dot, if it is one of a source file. -/
def sourceExtension? (path : String) : Option String :=
  match splitExtension? (basename path) with
  | some (_, ext) => if ext ∈ sourceExtensions then some ("." ++ ext) else none
  | none => none

/-- Whether the extension is one of `extensions`. -/
def hasExtension (path : String) (extensions : List String) : Bool :=
  match splitExtension? (basename path) with
  | some (_, ext) => extensions.contains ext
  | none => false

/-- The path without its source extension; unchanged if it has none. -/
def stem (path : String) : String :=
  match sourceExtension? path with
  | some ext => String.ofList (path.toList.take (path.length - ext.length))
  | none => path

end Rehome.Path
