import Rehome.Error
import Rehome.Workspace.Basic

/-!
# Which project owns a path

Every project whose source root or root contains a path lays claim to it. The longest directory wins,
and of two of the same length a source root. A path that two projects claim alike has no owner.
-/
namespace Rehome

/-- How good a claim is: the length of the directory, and whether it is a source root. -/
structure Claim where
  length : Nat
  bySources : Bool
  deriving DecidableEq, Repr

/-- A shorter directory is a worse claim, and of two of the same length the one that is no source
root. -/
def Claim.isBelow (c d : Claim) : Bool :=
  c.length < d.length || (c.length == d.length && !c.bySources && d.bySources)

namespace Project

/-- The claim of a project to a path, through its source root if that contains the path. -/
def claim? (p : Project) (path : String) : Option Claim :=
  let bySources := p.sourceRoot?.filter (Path.isWithin path ·)
  match bySources with
  | some dir => some ⟨dir.utf8ByteSize, true⟩
  | none => if p.contains path then some ⟨p.root.utf8ByteSize, false⟩ else none

end Project

/-- How the claims to a path stand after some projects: the best claim with the first project that
makes it, and the last project that made the same claim after that one. -/
structure Standing where
  best? : Option (Claim × Project)
  tied? : Option Project
  deriving DecidableEq, Repr

namespace Standing

def start : Standing := ⟨none, none⟩

/-- Takes one more project into account. -/
def next (path : String) (s : Standing) (p : Project) : Standing :=
  match p.claim? path with
  | none => s
  | some claim =>
    match s.best? with
    | none => ⟨some (claim, p), none⟩
    | some (best, _) =>
      if claim.isBelow best then s
      else if claim = best then { s with tied? := some p }
      else ⟨some (claim, p), none⟩

end Standing

namespace Workspace

/-- The one project with the best claim. The projects are gone through once, in the order of their
names. -/
def owner (w : Workspace) (path : String) : Except Error Project :=
  let standing := w.projects.foldl (Standing.next path) .start
  match standing.best?, standing.tied? with
  | some (_, p), none => .ok p
  | some (_, p), some q =>
    .error (.ambiguousProject path ("claimed by both " ++ p.name ++ " and " ++ q.name))
  | none, _ => .error (.ambiguousProject path "no project contains it")

end Workspace
end Rehome
