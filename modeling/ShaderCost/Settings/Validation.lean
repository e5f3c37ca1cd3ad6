import ShaderCost.Settings.Basic
import ShaderCost.Settings.Version

/-! # Checking settings

Settings are checked in a fixed order, and the first fault is the one reported.
-/

namespace ShaderCost

inductive SettingsFault where
  | badVersion (version : String)
  | newerVersion (version : String)
  | option (error : OptionError)
  | heatThresholds
  | format (name : String)
  | maxWorkers
  | topLines
  | extension (text : String)
  deriving DecidableEq, Repr, Inhabited

/-- The names of the report formats. -/
def formatNames : List String := ["console", "json", "html"]

def SettingsFault.message : SettingsFault → String
  | badVersion version => "invalid config version: " ++ version
  | newerVersion version =>
    "config version " ++ version ++ " is newer than supported version " ++ settingsVersion
  | option error => error.message
  | heatThresholds => "heat thresholds must be ascending percentages between 1 and 100"
  | format name =>
    "invalid output format: " ++ name ++ " (valid: [" ++ " ".intercalate formatNames ++ "])"
  | maxWorkers => "max_workers must be at least 1"
  | topLines => "top_lines must not be negative"
  | extension text => "file extension " ++ Quoted.quote text ++ " must start with a dot"

/-- The thresholds ascend within one to a hundred percent. -/
def HeatThresholds.valid (t : HeatThresholds) : Bool :=
  0 < t.warm && t.warm < t.hot && t.hot < t.critical && t.critical ≤ 100

namespace Settings

/-- The text of a version without the letter that may stand in front of it. -/
def versionNumber (version : String) : String :=
  match version.toList with
  | 'v' :: rest => String.ofList rest
  | _ => version

/-- A version must be one, and must not be newer than what this program understands; settings
without a version are taken as they are. -/
def versionFault? (version : String) : Option SettingsFault :=
  if version.isEmpty then none
  else
    match Version.parse? (versionNumber version), Version.parse? settingsVersion with
    | some v, some supported => if supported.lt v then some (.newerVersion version) else none
    | _, _ => some (.badVersion version)

/-- The first fault of the settings. -/
def fault? (s : Settings) : Option SettingsFault :=
  versionFault? s.version <|>
  (match s.costOptions with
    | .error e => some (.option e)
    | .ok _ => none) <|>
  (if s.analysis.heatThresholds.valid then none else some .heatThresholds) <|>
  (if formatNames.contains s.output.format then none else some (.format s.output.format)) <|>
  (if s.analysis.maxWorkers < 1 then some .maxWorkers else none) <|>
  (if s.output.topLines < 0 then some .topLines else none) <|>
  (((s.files.extensions.getD []).find? fun text => text.toList.head? != some '.').map
    SettingsFault.extension)

/-- The settings themselves, when they have no fault. -/
def validate (s : Settings) : Except SettingsFault Settings :=
  match s.fault? with
  | some fault => .error fault
  | none => .ok s

end Settings

end ShaderCost
