import Rehome.Path.Relative

/-!
# Relative specifiers

A specifier names a module. A relative one is resolved against the directory of the file that holds
it, and may leave out the extension or the `index` of a directory's entry file.
-/
namespace Rehome.Path

/-- Whether a specifier is resolved against the importing file. -/
def isRelative (specifier : String) : Bool :=
  specifier = "." || specifier = ".." || "./".isPrefixOf specifier || "../".isPrefixOf specifier

/-- The path a relative specifier stands for; none if it leaves the workspace. -/
def resolve? (importer specifier : String) : Option String :=
  if isRelative specifier then normalize? (join (dirname importer) specifier) else none

/-- Whether the specifier, written in `importer`, means the file `target`: the same path, the same
path up to source extensions, or the directory whose entry file `target` is. -/
def resolvesTo (importer specifier target : String) : Bool :=
  match resolve? importer specifier with
  | none => false
  | some path =>
    path = target || stem path = stem target || join path "index" = stem target

/-- The specifier for `target` in `importer`, in the manner of the one it replaces: an extension is
kept, and the entry file of a directory is named by its directory unless `index` was written out. -/
def specifierFor (importer target : String) (model : Option String) : String :=
  let plain := stem target
  let (module, suffix) :=
    match model with
    | none => (plain, "")
    | some model =>
      match sourceExtension? model with
      | some ext => (plain, ext)
      | none =>
        if basename plain = "index" ∧ basename model ≠ "index" then (dirname plain, "")
        else (plain, "")
  relative (dirname importer) module ++ suffix

end Rehome.Path
