import ShaderCost.Files.Disk
import ShaderCost.Settings.Document
import ShaderCost.Settings.Validation
import ShaderCost.Text.Utf8

/-! # Settings files

Settings are read from the file that is named, or else from the first of some usual places where
there is one; without a file the defaults hold. What was read is checked before it is used.
-/

namespace ShaderCost

/-- Why settings could not be read. -/
inductive LoadError where
  | unreadable (path : Path) (error : PathError)
  /-- The text is no document, or a value in it is of the wrong kind. -/
  | malformed (path : Path)
  | invalid (fault : SettingsFault)
  deriving DecidableEq, Repr, Inhabited

/-- The message for settings that were read and are not valid. -/
def SettingsFault.report (fault : SettingsFault) : String :=
  "invalid configuration: " ++ fault.message

def LoadError.message : LoadError → String
  | unreadable path error => "failed to read config file " ++ path ++ ": " ++ error.message
  | malformed path => "failed to parse config file " ++ path
  | invalid fault => fault.report

/-- Why settings could not be written. -/
inductive SaveError where
  | directory (error : PathError)
  | file (error : PathError)
  deriving DecidableEq, Repr, Inhabited

def SaveError.message : SaveError → String
  | directory error => "failed to create config directory: " ++ error.message
  | file error => "failed to write config file: " ++ error.message

namespace Settings

/-- Where a settings file is looked for, in this order. -/
def usualPlaces : List Path :=
  [".shadertune.yml", ".shadertune.yaml", "shadertune.yml", "shadertune.yaml",
    ".config/shadertune.yml"]

/-- The usual place of a new settings file. -/
def samplePlace : Path := ".shadertune.yml"

/-- The settings file to read when `path` was named, which may be empty. -/
def place? (disk : Disk) (path : Path) : Option Path :=
  if !path.isEmpty then some path
  else usualPlaces.find? fun place => (disk.stat place).toOption.isSome

/-- Settings from the content of a file, laid over the defaults. -/
def decode? (content : Bytes) : Option Settings := content.toString? >>= parse?

/-- Reads and checks settings. How the content of a file is decoded is left to the one who calls. -/
def load (disk : Disk) (path : Path) (decode? : Bytes → Option Settings := decode?) :
    Except LoadError Settings :=
  match place? disk path with
  | none => .ok {}
  | some place => do
    let content ← (disk.read place).mapError (.unreadable place)
    match decode? content with
    | none => .error (.malformed place)
    | some settings => settings.validate.mapError .invalid

/-- Writes settings, valid or not, making the directories above the file. -/
def save (s : Settings) (disk : Disk) (path : Path) : Except SaveError Disk := do
  let disk ← (disk.makeDirectories path.parent).mapError (.directory ·.error)
  (disk.write path (Bytes.ofString s.render)).mapError .file

end Settings

end ShaderCost
