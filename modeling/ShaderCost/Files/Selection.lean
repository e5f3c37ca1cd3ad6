import ShaderCost.Files.Disk
import ShaderCost.Files.Glob
import ShaderCost.Settings.Basic
import ShaderCost.Text.LowerCase

/-! # Which files are shaders

A shader is known by its extension, and every element of a path can exclude it. A path that is named
and leads to a file is taken as it is; below a directory the settings decide.
-/

namespace ShaderCost

namespace FileSettings

/-- The path has one of the extensions, in whatever case. -/
def isShader (files : FileSettings) (path : Path) : Bool :=
  (files.extensions.getD []).contains (lowerCase path.extension)

/-- One of the patterns fits the name. -/
def excludesName (files : FileSettings) (name : String) : Bool :=
  (files.exclude.getD []).any fun pattern => Glob.fits pattern name

/-- One of the patterns fits an element of the path. -/
def isExcluded (files : FileSettings) (path : Path) : Bool :=
  path.elements.any fun element =>
    !element.isEmpty && element != "." && files.excludesName element

/-- A file met below a directory is taken. -/
def accepts (files : FileSettings) (visit : Visit) : Bool :=
  !visit.isDirectory && files.isShader visit.path && !files.isExcluded visit.name

/-- The shaders below an entry at a path; excluded directories are not entered. -/
def shadersBelow (files : FileSettings) (path : Path) (entry : Entry) : List Path :=
  ((entry.walk (fun visit => files.isExcluded visit.name) path path.base).filter
    files.accepts).map (·.path)

/-- The shaders that a path stands for. -/
def collect (files : FileSettings) (disk : Disk) (path : Path) : Except PathError (List Path) := do
  match ← disk.stat path with
  | .file _ => return [path]
  | entry => return files.shadersBelow path entry

/-- The shaders of several paths, one after another, or the first path that leads nowhere. -/
def collectAll (files : FileSettings) (disk : Disk) (paths : List Path) :
    Except (Path × PathError) (List Path) := do
  return (← paths.mapM fun path => (files.collect disk path).mapError (path, ·)).flatten

end FileSettings

end ShaderCost
