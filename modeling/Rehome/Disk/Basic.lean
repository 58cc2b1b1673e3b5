import Rehome.Disk.Ignore
import Rehome.Error
import Rehome.Files.Tree
import Rehome.Path.Basic

/-!
# Directories on a disk

A tree of files is loaded from a directory and its journal is carried out there. Hidden files, files
that are to be ignored and files that hold no text are left out.
-/
namespace Rehome

/-- The files below a directory, by their paths; a file that holds no text has none. Directories may
be empty. -/
structure Disk where
  files : Table (Option String)
  directories : Table Unit

namespace Disk

def makeDirectories (d : Disk) (dirs : List String) : Disk :=
  { d with directories := dirs.foldl (fun t dir => t.insert dir ()) d.directories }

/-- Puts a file and the directories above it onto the disk. -/
def seed (d : Disk) (path : String) (text? : Option String) : Disk :=
  let d := d.makeDirectories (Path.ancestors path)
  { d with files := d.files.insert path text? }

def ofList (files : List (String × Option String)) : Disk :=
  files.foldl (fun d f => d.seed f.1 f.2) ⟨.empty, .empty⟩

def isFile (d : Disk) (path : String) : Bool := d.files.contains path

def isDirectory (d : Disk) (path : String) : Bool := path = "" || d.directories.contains path

/-- The rules of a file, if there is one that holds text. -/
def rulesOf (d : Disk) (path : String) : List Ignore.Rule :=
  match d.files.get? path with
  | some (some text) => Ignore.rules text
  | _ => []

/-- A path relative to a directory above it. -/
def relative (dir path : String) : String :=
  if dir = "" then path else (Path.below? dir path).getD path

/-- What a file of rules in a directory says about a path below. -/
def verdictOf? (d : Disk) (name dir path : String) : Option Bool :=
  Ignore.verdict? (d.rulesOf (Path.join dir name)) (relative dir path) (d.isDirectory path)

/-- Whether a directory is the top of a repository. -/
def isRepository (d : Disk) (dir : String) : Bool :=
  let marker := Path.join dir ".git"
  d.isFile marker || d.isDirectory marker

/-- The directories up to and including the first that is the top of a repository; none if none
is. -/
def insideRepository (d : Disk) : List String → List String
  | [] => []
  | dir :: dirs =>
    if d.isRepository dir then [dir]
    else
      match insideRepository d dirs with
      | [] => []
      | inner => dir :: inner

/-- What the rules say about a path, whose directories are given from the nearest on. A plain file
of rules comes before those of a repository, and a nearer one before a farther one. -/
def verdict? (d : Disk) (dirs : List String) (path : String) : Option Bool :=
  let repository := d.insideRepository dirs
  (dirs.findSome? fun dir => d.verdictOf? ".ignore" dir path).or <|
    (repository.findSome? fun dir => d.verdictOf? ".gitignore" dir path).or <|
      repository.findSome? fun dir => d.verdictOf? ".git/info/exclude" dir path

/-- Whether a path is passed over: rules say so, or it is hidden and no rule keeps it. -/
def isSkipped (d : Disk) (path : String) : Bool :=
  let dirs := (Path.ancestors path).reverse ++ [""]
  match d.verdict? dirs path with
  | some keeps => !keeps
  | none => (Path.basename path).toList.head? = some '.'

/-- Whether a file is reached: neither it nor a directory above it is passed over. -/
def isReached (d : Disk) (path : String) : Bool :=
  (Path.ancestors path).all (!d.isSkipped ·) && !d.isSkipped path

/-- The tree of the files that are reached and hold text. -/
def toTree (d : Disk) : FileTree :=
  FileTree.ofList <| d.files.entries.filterMap fun (path, text?) =>
    if d.isReached path then text?.map (path.replace "\\" "/", ·) else none

/-- Loads a directory, which must exist. -/
def load (root : String) : Option Disk → Except Error FileTree
  | some d => .ok d.toTree
  | none => .error (.io root "no such directory")

/-- The path without needless slashes and dots. -/
def place (path : String) : String :=
  String.intercalate "/" <|
    ((path.toList.splitOn '/').map String.ofList).filter fun s => s ≠ "" && s ≠ "."

/-- Whether a path can name a file. -/
def namesFile (path : String) : Bool :=
  let name := Path.basename path
  name ≠ "" && name ≠ "."

/-- Writes a file, and makes the directories above it. -/
def write (d : Disk) (path text : String) : Except Error Disk :=
  let target := place path
  if (Path.ancestors target).any d.isFile then .error (.io (Path.dirname path) "not a directory")
  else if !namesFile path || d.isDirectory target then .error (.io path "is a directory")
  else .ok (d.seed target (some text))

/-- Deletes a file; a path that does not exist is left alone. -/
def delete (d : Disk) (path : String) : Except Error Disk :=
  let target := place path
  if d.isDirectory target then .error (.io path "is a directory")
  else .ok { d with files := d.files.erase target }

/-- Carries out changes one after the other. The first failure ends it; what was done stays. -/
def carryOut (d : Disk) : List (String × Change) → Except Error Unit × Disk
  | [] => (.ok (), d)
  | (path, change) :: rest =>
    let done :=
      match change with
      | .write text => d.write path text
      | .delete => d.delete path
    match done with
    | .ok d => carryOut d rest
    | .error e => (.error e, d)

/-- Carries out the journal of a tree in the order of paths. Answers the number of changes. -/
def commit (d : Disk) (t : FileTree) : Except Error Nat × Disk :=
  let (done, d) := d.carryOut t.changes.entries
  (done.map fun _ => t.changes.size, d)

end Disk
end Rehome
