import Rehome.Config.Environment
import Rehome.Config.Settings
import Rehome.Toml.Document

/-!
# Loading settings

Settings come from a file and from environment variables, which take precedence. What neither gives
keeps its standard value. A value of the wrong type is refused.
-/
namespace Rehome.Settings

open ConfigValue (field)

/-- The names of the log formats. -/
def logFormat? : ConfigValue → Option LogFormat
  | .str "json" => some .json
  | .str "pretty" => some .pretty
  | _ => none

def logSettings? (standard : LogSettings) (v : ConfigValue) : Option LogSettings := do
  let fields ← v.fields? ["level", "format"]
  return {
    level := ← field fields "level" standard.level ConfigValue.text?
    format := ← field fields "format" standard.format logFormat? }

def scanSettings? (standard : ScanSettings) (v : ConfigValue) : Option ScanSettings := do
  let fields ← v.fields?
    ["source_extensions", "ignored_directories", "parallel_threshold", "max_workers"]
  return {
    extensions := ← field fields "source_extensions" standard.extensions ConfigValue.texts?
    ignored := ← field fields "ignored_directories" standard.ignored ConfigValue.texts?
    threshold := ← field fields "parallel_threshold" standard.threshold ConfigValue.count?
    workers := ← field fields "max_workers" standard.workers ConfigValue.count? }

def moveDefaults? (standard : MoveDefaults) (v : ConfigValue) : Option MoveDefaults := do
  let fields ← v.fields? ["skip_export", "format"]
  return {
    skipExport := ← field fields "skip_export" standard.skipExport ConfigValue.bool?
    format := ← field fields "format" standard.format ConfigValue.bool? }

/-- Reads settings; what is left out has its standard value. -/
def ofValue? (standard : Settings) (v : ConfigValue) : Option Settings := do
  let fields ← v.fields? []
  return {
    logging := ← field fields "logging" standard.logging (logSettings? standard.logging)
    scan := ← field fields "scan" standard.scan (scanSettings? standard.scan)
    moves := ← field fields "move" standard.moves (moveDefaults? standard.moves) }

/-- Settings from the text of a file, if there is one, and from variables with the given lead. -/
def load (standard : Settings) (file? : Option String) (lead : String)
    (entries : List (String × String)) : Except Error Settings :=
  let fromFile? : Option ConfigValue :=
    match file? with
    | none => some (.group [])
    | some text => Toml.read? text
  match fromFile?.bind fun v => ofValue? standard (v.overlay (Environment.settings lead entries)) with
  | none => .error (.config "malformed settings")
  | some settings => settings.validate

end Rehome.Settings
