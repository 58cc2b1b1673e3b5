import Rehome.Names
import Rehome.Table

/-!
# Trees of files

The files of a workspace with a journal of what was written and deleted. Directories are not kept:
one exists as long as a file lies below it. Counters tell how often the tree was asked.
-/
namespace Rehome

/-- What the journal says about a path. -/
inductive Change where
  | write (text : String)
  | delete
  deriving DecidableEq, Repr

/-- How often a tree was asked whether a path exists, for a file's text, and for the names in a
directory. -/
structure Questions where
  exist : Nat
  read : Nat
  list : Nat
  deriving DecidableEq, Repr

structure FileTree where
  files : Table String
  changes : Table Change
  asked : Questions

namespace FileTree

def empty : FileTree := ⟨.empty, .empty, ⟨0, 0, 0⟩⟩

/-- Puts a file into the tree without noting it in the journal. -/
def seed (t : FileTree) (path text : String) : FileTree :=
  { t with files := t.files.insert path text }

def ofList (files : List (String × String)) : FileTree :=
  files.foldl (fun t f => t.seed f.1 f.2) empty

def isFile (t : FileTree) (path : String) : Bool := t.files.contains path

def text? (t : FileTree) (path : String) : Option String := t.files.get? path

/-- What the paths of the files in a directory start with. -/
def lead (dir : String) : List Char := if dir = "" then [] else dir.toList ++ ['/']

/-- The paths that start with `lead`. In an order of names they stand together, from the first name
that is not smaller. -/
def range (lead : List Char) (names : List String) : List String :=
  (names.dropWhile fun n => decide (n < String.ofList lead)).takeWhile fun n =>
    lead.isPrefixOf n.toList

/-- The paths of the files below a directory; all files lie below the empty one. -/
def pathsBelow (t : FileTree) (dir : String) : List String := range (lead dir) t.files.names

/-- Whether a path is a file or a directory with files. -/
def holds (t : FileTree) (path : String) : Bool :=
  t.isFile path || !(t.pathsBelow path).isEmpty

/-- The first name of a path relative to a directory. -/
def childName (dir path : String) : String :=
  String.ofList ((path.toList.drop (lead dir).length).takeWhile (· ≠ '/'))

/-- The names in a directory, in order. -/
def childNames (t : FileTree) (dir : String) : List String :=
  Names.ofList ((t.pathsBelow dir).map (childName dir))

/-- Writes a file and notes it. -/
def write (t : FileTree) (path text : String) : FileTree :=
  { t with files := t.files.insert path text, changes := t.changes.insert path (.write text) }

/-- Deletes a file and notes it; a path that is no file leaves no trace. -/
def delete (t : FileTree) (path : String) : FileTree :=
  if t.isFile path then
    { t with files := t.files.erase path, changes := t.changes.insert path .delete }
  else t

/-- Asks whether a path exists. -/
def askExists (t : FileTree) (path : String) : Bool × FileTree :=
  (t.holds path, { t with asked := { t.asked with exist := t.asked.exist + 1 } })

/-- Asks for the text of a file. -/
def askText (t : FileTree) (path : String) : Option String × FileTree :=
  (t.text? path, { t with asked := { t.asked with read := t.asked.read + 1 } })

/-- Asks for the names in a directory. -/
def askChildren (t : FileTree) (dir : String) : List String × FileTree :=
  (t.childNames dir, { t with asked := { t.asked with list := t.asked.list + 1 } })

/-- The files that differ between two trees, with what they have become. -/
def difference (before after : FileTree) : Table (Option String) :=
  let gone := before.files.names.filter fun path => !after.isFile path
  let changed := after.files.entries.filter fun (path, text) => before.text? path ≠ some text
  Table.ofList (gone.map (·, none) ++ changed.map fun (path, text) => (path, some text))

end FileTree
end Rehome
