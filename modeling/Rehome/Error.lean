/-!
# What can go wrong

One type for every failure of the library, with its wording in one place. The first five causes are
faults of the request; the others are faults of the surroundings.
-/
namespace Rehome

inductive Error where
  /-- A file or project that does not exist. -/
  | notFound (resource : String)
  /-- The target of a move is taken. -/
  | alreadyExists (path : String)
  /-- No project, or more than one, can own the path. -/
  | ambiguousProject (path reason : String)
  /-- The path leaves the workspace. -/
  | invalidPath (path : String)
  | invalidRequest (message : String)
  | config (message : String)
  /-- The disk refused; `cause` is its own wording. -/
  | io (path cause : String)
  | graph (message : String)
  deriving DecidableEq, Repr

namespace Error

/-- The wording of each failure. -/
def message : Error → String
  | notFound resource => "Resource not found: " ++ resource
  | alreadyExists path => "Path already exists: " ++ path
  | ambiguousProject path reason =>
    "Cannot determine owning project for " ++ path ++ ": " ++ reason
  | invalidPath path => "Invalid path: " ++ path
  | invalidRequest message => "Invalid request: " ++ message
  | config message => "Configuration error: " ++ message
  | io path cause => "I/O error at " ++ path ++ ": " ++ cause
  | graph message => "Dependency graph error: " ++ message

/-- Whether the request itself is at fault. -/
def isValidation : Error → Bool
  | notFound _ | alreadyExists _ | ambiguousProject _ _ | invalidPath _ | invalidRequest _ => true
  | config _ | io _ _ | graph _ => false

/-- The wording of an underlying failure, which only the disk has. -/
def cause? : Error → Option String
  | io _ cause => some cause
  | _ => none

end Error
end Rehome
