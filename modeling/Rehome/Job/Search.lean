import Rehome.Config.Settings
import Rehome.Specifier.Edit
import Rehome.Specifier.Finder
import Rehome.Specifier.Query
import Rehome.Job.Basic

/-!
# Searching files for specifiers

A search in few files goes through them in turn. In many files it reads all of them first and
shares them between workers, whose reports arrive in any order. If a worker breaks down the texts
are searched again in turn, so the answer does not depend on the workers.
-/
namespace Rehome.Search

open Specifier

/-- Whether a search ends with the first file found. -/
inductive Extent where
  | first
  | all
  deriving DecidableEq, Repr

/-- Whether a text holds a specifier that the query asks for. -/
def refers (f : Finder) (q : Query) (path text : String) : Bool :=
  mayContain text.toList q.text && (f.occurrences path text).any (q.matches ·.value)

/-- The files among some texts that refer to what the query asks for. -/
def inTexts (f : Finder) (q : Query) (extent : Extent) : List (String × String) → List String
  | [] => []
  | (path, text) :: rest =>
    if refers f q path text then
      if extent = .first then [path] else path :: inTexts f q extent rest
    else inTexts f q extent rest

/-- Searches files in turn; each is read only when the search reaches it. -/
def inTurn (f : Finder) (q : Query) (extent : Extent) : List String → Job (List String)
  | [] => return []
  | path :: rest => do
    match (← Job.read path) with
    | none => inTurn f q extent rest
    | some text =>
      if refers f q path text then
        if extent = .first then return [path]
        else return path :: (← inTurn f q extent rest)
      else inTurn f q extent rest

/-- The texts of the files that can be read. -/
def snapshot : List String → Job (List (String × String))
  | [] => return []
  | path :: rest => do
    match (← Job.read path) with
    | none => snapshot rest
    | some text => return (path, text) :: (← snapshot rest)

/-- Parts of `size + 1` neighbouring items each; the last part may be shorter. -/
def chunks {α : Type} (size : Nat) (l : List α) : List (List α) :=
  match l with
  | [] => []
  | a :: rest => (a :: rest.take size) :: chunks size (rest.drop size)
termination_by l.length
decreasing_by
  rw [List.length_drop, List.length_cons]
  omega

/-- What may happen to the workers of a search. -/
structure Schedule where
  /-- The order in which that many workers report. -/
  arrival : Nat → List Nat
  /-- The workers that break down. -/
  breaks : Nat → Bool
  /-- The workers that cannot be started. -/
  missing : Nat → Bool

/-- All workers start, work, and report in their order. -/
def Schedule.orderly : Schedule := ⟨List.range, fun _ => false, fun _ => false⟩

/-- Puts reports together as they arrive; none if a worker broke down or is never heard of. The
first report with a find ends a search for one. -/
def gather (extent : Extent) (reports : List (Option (List String))) :
    (heard : List Nat) → (arrival : List Nat) → Option (List String)
  | heard, [] =>
    if (List.range reports.length).all heard.contains then some (reports.flatMap (·.getD []))
    else none
  | heard, w :: arrival =>
    match reports[w]? with
    | none => gather extent reports heard arrival
    | some none => none
    | some (some found) =>
      if extent = .first && !found.isEmpty then some found
      else gather extent reports (w :: heard) arrival

/-- The reports of workers that share the texts. -/
def reports (f : Finder) (q : Query) (extent : Extent) (s : Schedule)
    (parts : List (List (String × String))) : List (Option (List String)) :=
  parts.mapIdx fun w part => if s.breaks w then none else some (inTexts f q extent part)

/-- Shares texts between workers. None if one cannot be started or does not report. -/
def shared (f : Finder) (q : Query) (extent : Extent) (s : Schedule) (workers : Nat)
    (texts : List (String × String)) : Option (List String) :=
  let size := (texts.length + workers - 1) / workers
  let parts := chunks (size - 1) texts
  if (List.range parts.length).any s.missing then none
  else gather extent (reports f q extent s parts) [] (s.arrival parts.length)

/-- The candidates that refer to what the query asks for. -/
def files (f : Finder) (settings : ScanSettings) (s : Schedule) (q : Query) (extent : Extent)
    (candidates : List String) : Job (List String) := do
  if candidates.length ≤ settings.threshold || settings.workers < 2 then
    inTurn f q extent candidates
  else
    let texts ← snapshot candidates
    if texts.isEmpty then return []
    else return (shared f q extent s settings.workers texts).getD (inTexts f q extent texts)

/-- Whether a candidate refers to what the query asks for. -/
def any (f : Finder) (settings : ScanSettings) (s : Schedule) (q : Query)
    (candidates : List String) : Job Bool := do
  return !(← files f settings s q .first candidates).isEmpty

end Rehome.Search
