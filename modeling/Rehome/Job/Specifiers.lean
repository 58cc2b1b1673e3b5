import Rehome.Specifier.Edit
import Rehome.Job.Basic

/-!
# Changing the specifiers of files

A file is written only if its text changes.
-/
namespace Rehome.Job

open Specifier

/-- Whether the text of a file may hold a value. -/
def mayHold (path value : String) : Job Bool := do
  match (← read path) with
  | some text => return mayContain text.toList value
  | none => return false

/-- Whether a specifier of a file satisfies a condition. -/
def hasSpecifierWhere (path : String) (chosen : String → Bool) : Job Bool := do
  return (← specifiers path).any (chosen ·.value)

/-- Whether a file holds a specifier. A text that cannot hold it is not searched. -/
def hasSpecifier (path value : String) : Job Bool := do
  if (← mayHold path value) then hasSpecifierWhere path (· = value) else return false

/-- Writes what `edit` makes of a file. Answers whether the text changed. -/
def editFile (path : String) (edit : List Occurrence → List Char → Option (List Char)) :
    Job Bool := do
  match (← read path) with
  | none => return false
  | some text =>
    match edit (← specifiers path) text.toList with
    | none => return false
    | some updated =>
      write path (String.ofList updated)
      return true

/-- Gives the chosen specifiers of a file other values. -/
def replaceWhere (path : String) (chosen : String → Bool) (change : String → String) : Job Bool :=
  editFile path fun found text => replace? found text chosen change

/-- Gives one specifier of a file another value. -/
def replaceSpecifier (path old new : String) : Job Bool := do
  if old = new then return false
  if (← mayHold path old) then replaceWhere path (· = old) (fun _ => new) else return false

/-- Removes the chosen re-exports of a file. -/
def removeExportsWhere (path : String) (chosen : String → Bool) : Job Bool :=
  editFile path fun found text => removeExports? found text chosen

/-- Makes a file pass on everything a module exports, unless it passes on the module already;
`same` tells which other specifiers mean it. A missing file is made. -/
def ensureWildcardExport (path specifier : String) (same : String → Bool) : Job Bool := do
  let text? ← read path
  let found ← specifiers path
  if found.any fun o => o.kind.isExport && (o.value = specifier || same o.value) then
    return false
  else
    let statement := wildcardExport ((dominantQuote? found).getD .single) specifier
    write path (String.ofList (appendLine (text?.getD "").toList statement))
    return true

end Rehome.Job
