import ShaderCost.Files.Path
import ShaderCost.Text.Bytes

/-! # Files and directories

A disk is a tree of directories with byte strings at its leaves, and a working directory from which
relative paths start. Looking a path up goes element by element, as a file system does: every element
but the last must lead to a directory, `.` stays where it is and `..` goes up to the directory it
came from.

Operations that change the disk give the new disk back. Operations that fail say which path failed
in which operation, and why; one that makes several directories also says how far it came.
-/

namespace ShaderCost

/-- A file with its content, or a directory with its entries in ascending order of their names. -/
inductive Entry where
  | file (content : Bytes)
  | directory (entries : List (String × Entry))
  deriving Inhabited

inductive FileError where
  | missing
  | notDirectory
  | isDirectory
  deriving DecidableEq, Repr, Inhabited

def FileError.text : FileError → String
  | missing => "no such file or directory"
  | notDirectory => "not a directory"
  | isDirectory => "is a directory"

/-- An operation that failed on a path. -/
structure PathError where
  operation : String
  path : Path
  error : FileError
  deriving DecidableEq, Repr, Inhabited

def PathError.message (e : PathError) : String :=
  e.operation ++ " " ++ e.path ++ ": " ++ e.error.text

namespace Entry

def isDirectory : Entry → Bool
  | file _ => false
  | directory _ => true

/-- Puts an entry in its place among sorted entries, instead of one with the same name. -/
def insertNamed (name : String) (entry : Entry) : List (String × Entry) → List (String × Entry)
  | [] => [(name, entry)]
  | (other, old) :: rest =>
    if name == other then (name, entry) :: rest
    else if name < other then (name, entry) :: (other, old) :: rest
    else (other, old) :: insertNamed name entry rest

/-- Puts an entry at a place given by names from here on, making directories on the way; a file on
the way gives way to a directory. -/
def put (entry : Entry) : List String → Entry → Entry
  | [], _ => entry
  | name :: names, here =>
    let entries := match here with
      | directory entries => entries
      | file _ => []
    let child := (entries.lookup name).getD (directory [])
    directory (insertNamed name (put entry names child) entries)

end Entry

structure Disk where
  root : Entry := .directory []
  /-- The names that lead from the root to the working directory. -/
  workingDirectory : List String := []
  deriving Inhabited

namespace Disk

/-- A place reached on the disk: what is there, and how it was reached, the last name first. -/
structure Place where
  entry : Entry
  name : String
  above : List (String × Entry)
  deriving Inhabited

/-- One element further down or up. -/
def Place.step (place : Place) (element : String) : Except FileError Place :=
  match place.entry with
  | .file _ => .error .notDirectory
  | .directory entries =>
    if element.isEmpty || element == "." then .ok place
    else if element == ".." then
      match place.above with
      | [] => .ok place
      | (name, entry) :: above => .ok { entry, name, above }
    else
      match entries.lookup element with
      | some entry => .ok { entry, name := element, above := (place.name, place.entry) :: place.above }
      | none => .error .missing

/-- The names from the root to a place. -/
def Place.names (place : Place) : List String :=
  ((place.name :: place.above.map (·.1)).reverse).drop 1

/-- Where a path starts. -/
def start (disk : Disk) (path : Path) : Except FileError Place :=
  let top : Place := { entry := disk.root, name := "", above := [] }
  if path.isAbsolute then .ok top else disk.workingDirectory.foldlM Place.step top

/-- The place that a path leads to. The empty path leads nowhere. -/
def find (disk : Disk) (path : Path) : Except FileError Place :=
  if path.isEmpty then .error .missing
  else do path.elements.foldlM Place.step (← disk.start path)

/-- What a path leads to. -/
def stat (disk : Disk) (path : Path) : Except PathError Entry :=
  match disk.find path with
  | .ok place => .ok place.entry
  | .error error => .error { operation := "stat", path, error }

/-- The content of a file. -/
def read (disk : Disk) (path : Path) : Except PathError Bytes :=
  match disk.find path with
  | .ok { entry := .file content, .. } => .ok content
  | .ok _ => .error { operation := "read", path, error := .isDirectory }
  | .error error => .error { operation := "open", path, error }

/-- A path up to its last element, and that element. -/
def splitLast (path : Path) : List String × String :=
  match path.elements.reverse with
  | [] => ([], "")
  | last :: others => (others.reverse, last)

/-- Puts a new or changed entry below an existing directory. A path that ends in a slash, or in an
element that goes nowhere new, names a directory. -/
def place (disk : Disk) (operation : String) (path : Path) (entry : Entry) :
    Except PathError Disk :=
  let (directory, last) := splitLast path
  let found : Except FileError Disk := do
    if path.isEmpty then .error .missing
    let parent ← directory.foldlM Place.step (← disk.start path)
    if !parent.entry.isDirectory then .error .notDirectory
    if last.isEmpty || last == "." || last == ".." then .error .isDirectory
    return { disk with root := Entry.put entry (parent.names ++ [last]) disk.root }
  match found with
  | .ok disk => .ok disk
  | .error error => .error { operation, path, error }

/-- Writes a file, instead of the file that was there. -/
def write (disk : Disk) (path : Path) (content : Bytes) : Except PathError Disk :=
  match disk.find path with
  | .ok { entry := .directory _, .. } =>
    .error { operation := "open", path, error := .isDirectory }
  | _ => disk.place "open" path (.file content)

/-- An operation in several steps, one of which failed: why, and the disk as the steps before it
left it. -/
structure Interrupted where
  error : PathError
  disk : Disk

/-- Makes the directories of a list of paths, each of which lies below the one before it. Those that
were made before one fails stay. -/
def makeAll : Disk → List Path → Except Interrupted Disk
  | disk, [] => .ok disk
  | disk, path :: paths =>
    match disk.find path with
    | .ok { entry := .directory _, .. } => makeAll disk paths
    | .ok _ => .error { error := { operation := "mkdir", path, error := .notDirectory }, disk }
    | .error _ =>
      match disk.place "mkdir" path (.directory []) with
      | .ok made => makeAll made paths
      | .error error => .error { error, disk }

/-- The paths that lead to a path, from the first element on. -/
def leading (path : Path) : List Path :=
  let steps := path.elements.foldl (fun (acc : List Path × Path) element =>
    let text := if acc.2.isEmpty && acc.1.isEmpty then element else acc.2 ++ "/" ++ element
    (text :: acc.1, text)) ([], "")
  steps.1.reverse.filter (!·.isEmpty)

/-- Makes a directory and those above it, as far as they are not there. -/
def makeDirectories (disk : Disk) (path : Path) : Except Interrupted Disk :=
  disk.makeAll (leading path)

/-- The names from the root that a path is made of. -/
def namesOf (disk : Disk) (path : Path) : List String :=
  let names := if path.isAbsolute then [] else disk.workingDirectory
  ((names ++ path.elements).foldl (Path.push true) []).reverse

/-- Puts an entry at a path where there is nothing yet, making the directories above it. -/
def adopt (disk : Disk) (path : Path) (entry : Entry) : Disk :=
  match disk.find path with
  | .ok _ => disk
  | .error _ => { disk with root := Entry.put entry (disk.namesOf path) disk.root }

end Disk

/-! ## Walks -/

/-- A file or directory met on a walk. -/
structure Visit where
  path : Path
  name : String
  isDirectory : Bool
  deriving DecidableEq, Repr, Inhabited

mutual

/-- The entry at a path and all below it, directories before what they hold and names in order.
Directories for which `skip` holds are left out with all they hold, but for the first. -/
def Entry.walk (skip : Visit → Bool) (path : Path) (name : String) : Entry → List Visit
  | .file _ => [{ path, name, isDirectory := false }]
  | .directory entries => { path, name, isDirectory := true } :: walkEntries skip path entries

def walkEntries (skip : Visit → Bool) (path : Path) : List (String × Entry) → List Visit
  | [] => []
  | (name, entry) :: rest =>
    let below := path.join name
    (if entry.isDirectory && skip { path := below, name, isDirectory := true } then []
      else entry.walk skip below name) ++ walkEntries skip path rest

end

end ShaderCost
