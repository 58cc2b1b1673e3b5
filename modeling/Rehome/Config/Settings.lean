import Rehome.Error
import Rehome.Path.Basic

/-!
# Settings
-/
namespace Rehome

/-- How the files of a project are listed and searched. -/
structure ScanSettings where
  /-- Extensions of source files, without their dot. -/
  extensions : List String
  /-- Names of directories that are never entered. Hidden ones are not entered either. -/
  ignored : List String
  /-- A search in more files than this is shared between workers. -/
  threshold : Nat
  workers : Nat
  deriving DecidableEq, Repr

/-- The settings that apply unless others are given, for a machine that runs `workers` at once. -/
def ScanSettings.standard (workers : Nat) : ScanSettings where
  extensions := Path.sourceExtensions
  ignored := ["node_modules", "dist", "build", "coverage", "tmp", "out"]
  threshold := 100
  workers

namespace ScanSettings

/-- Whether a path has the extension of a source file. -/
def isSource (s : ScanSettings) (path : String) : Bool := Path.hasExtension path s.extensions

/-- Whether a directory of this name is not entered. -/
def skips (s : ScanSettings) (name : String) : Bool :=
  name.toList.head? = some '.' || s.ignored.contains name

/-- Whether a file belongs into the list of the source files below a root. -/
def lists (s : ScanSettings) (root path : String) : Bool :=
  let relative? := if root = "" then some path else Path.below? root path
  match relative? with
  | none => false
  | some relative =>
    let dir := Path.dirname relative
    path ≠ root && s.isSource path &&
      (dir = "" || ((dir.toList.splitOn '/').all fun name => !s.skips (String.ofList name)))

end ScanSettings

inductive LogFormat where
  | json
  | pretty
  deriving DecidableEq, Repr

structure LogSettings where
  level : String
  format : LogFormat
  deriving DecidableEq, Repr

/-- What applies to a move unless it says otherwise. -/
structure MoveDefaults where
  /-- The moved file is not added to the entry point of its new project. -/
  skipExport : Bool
  /-- Changed files are formatted. -/
  format : Bool
  deriving DecidableEq, Repr

structure Settings where
  logging : LogSettings
  scan : ScanSettings
  moves : MoveDefaults
  deriving DecidableEq, Repr

namespace Settings

def standard (workers : Nat) : Settings where
  logging := ⟨"info", .pretty⟩
  scan := .standard workers
  moves := ⟨false, false⟩

/-- Settings that nothing can be done with are refused. -/
def validate (s : Settings) : Except Error Settings :=
  if s.scan.extensions.isEmpty then .error (.config "scan.source_extensions must not be empty")
  else
    match s.scan.extensions.find? (·.toList.head? = some '.') with
    | some ext =>
      .error (.config
        ("scan.source_extensions entries are written without a dot, got '" ++ ext ++ "'"))
    | none =>
      if s.scan.workers = 0 then .error (.config "scan.max_workers must be at least 1") else .ok s

end Settings
end Rehome
