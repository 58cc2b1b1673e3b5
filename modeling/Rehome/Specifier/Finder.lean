import Rehome.Specifier.Collect

/-!
# Finding specifiers in files

What the rest of the library needs to know of a language: which files are read, and which specifiers
a text holds.
-/
namespace Rehome.Specifier

/-- A way to find the specifiers of a file. -/
structure Finder where
  /-- Whether a file is read at all. -/
  handles : String → Bool
  /-- The occurrences of a text in the order of their literals, if the text can be read. -/
  read? : (path : String) → (text : String) → Option (List Occurrence)

namespace Finder

/-- The occurrences of a text; none if the file is not read or the text cannot be. -/
def occurrences (f : Finder) (path text : String) : List Occurrence :=
  if f.handles path then (f.read? path text).getD [] else []

/-- Finds specifiers in modules. -/
def modules : Finder where
  handles := Specifier.handles
  read? path text := occurrences? path text.toList

end Finder
end Rehome.Specifier
