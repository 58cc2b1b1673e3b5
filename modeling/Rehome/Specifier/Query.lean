/-!
# Questions about specifiers
-/
namespace Rehome.Specifier

/-- What a file is searched for. -/
inductive Query where
  /-- The specifier itself. -/
  | exact (specifier : String)
  /-- The alias of a project, or a path below it. -/
  | aliased (name : String)
  deriving DecidableEq, Repr

/-- Whether a specifier is an alias or leads below it. -/
def isUnderAlias (name specifier : String) : Bool :=
  specifier = name || (name.toList ++ ['/']).isPrefixOf specifier.toList

def Query.matches : Query → String → Bool
  | exact s, specifier => specifier = s
  | aliased name, specifier => isUnderAlias name specifier

/-- The text that any literal answering the question holds, unless it is written with escapes. -/
def Query.text : Query → String
  | exact s => s
  | aliased name => name

end Rehome.Specifier
