/-!
# The four kinds of move

Which references a move repairs, and how, depends on where the file goes and who may refer to it.
-/
namespace Rehome.Move

inductive Strategy where
  /-- The file stays in its project. -/
  | sameProject
  /-- An entry point of the old project passes the file on. -/
  | exported
  /-- No entry point passes the file on, and the new project has an alias. -/
  | nonExportedAliased
  /-- No entry point passes the file on, and the new project has no alias. -/
  | default
  deriving DecidableEq, Repr

namespace Strategy

/-- The strategy of a move: `same` for moves inside a project, `isExported` for files that an entry
point passes on, `hasAlias` for new projects with an alias. -/
def select (same isExported hasAlias : Bool) : Strategy :=
  if same then sameProject
  else if isExported then exported
  else if hasAlias then nonExportedAliased
  else default

/-- The name of the strategy in reports. -/
def name : Strategy → String
  | sameProject => "same-project"
  | exported => "exported"
  | nonExportedAliased => "non-exported-aliased"
  | default => "default"

end Strategy
end Rehome.Move
