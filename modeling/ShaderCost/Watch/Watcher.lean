import ShaderCost.Files.Selection
import ShaderCost.Trace.Entry
import ShaderCost.Watch.Changes
import Std.Data.TreeSet

/-! # Watching directories

A watcher holds the directories it watches and the changes it was told of. A named directory is
watched with those below it, but for some that never hold sources; a named file stands for its
directory. Of the changes only those of shaders are queued.
-/

namespace ShaderCost

namespace FileSettings

/-- Directories that are never watched below a named one. -/
def unwatchedNames : List String := [".vscode", ".idea", "build", "dist", "tmp", "temp"]

/-- A directory met below a named one is left alone. -/
def skipsDirectory (files : FileSettings) (path : Path) : Bool :=
  unwatchedNames.contains path.base || files.isExcluded path.base

/-- Changes of the path are followed: it is a shader, neither hidden nor a backup, and no element
excludes it. -/
def watches (files : FileSettings) (path : Path) : Bool :=
  let name := path.base.toList
  name.head? != some '.' && name.getLast? != some '~' && files.isShader path &&
    !files.isExcluded path

end FileSettings

structure Watcher where
  files : FileSettings := {}
  directories : Std.TreeSet Path := ∅
  queue : ChangeQueue := {}

/-- A path that could not be watched. -/
structure WatchError where
  path : Path
  error : PathError
  deriving DecidableEq, Repr, Inhabited

def WatchError.message (e : WatchError) : String :=
  "failed to watch path " ++ e.path ++ ": " ++ e.error.message

namespace Watcher

/-- The directories that a path stands for. -/
def directoriesOf (files : FileSettings) (disk : Disk) (path : Path) :
    Except PathError (List Path) := do
  match ← disk.stat path with
  | .file _ => return [path.parent]
  | entry =>
    let visits := entry.walk (fun visit => files.skipsDirectory visit.path) path path.base
    return (visits.filter (·.isDirectory)).map (·.path)

/-- Watches a directory; one that is watched already is not told of again. -/
def addDirectory (w : Watcher) (directory : Path) : Watcher × List TraceEntry :=
  if w.directories.contains directory then (w, [])
  else
    ({ w with directories := w.directories.insert directory },
      [{ level := .debug, message := "watching directory", fields := [("dir", directory)] }])

/-- Watches directories one after another. -/
def addDirectories (w : Watcher) (directories : List Path) : Watcher × List TraceEntry :=
  directories.foldl (fun (w, told) directory =>
    let (w, more) := w.addDirectory directory
    (w, told ++ more)) (w, [])

/-- Watches what a path stands for. -/
def addPath (w : Watcher) (disk : Disk) (path : Path) :
    Except PathError (Watcher × List TraceEntry) := do
  return w.addDirectories (← directoriesOf w.files disk path)

/-- Watches several paths up to the first that leads nowhere, which ends it with an error. -/
def addPaths (w : Watcher) (disk : Disk) : List Path → (Watcher × List TraceEntry) × Option WatchError
  | [] => ((w, []), none)
  | path :: paths =>
    match w.addPath disk path with
    | .error error => ((w, []), some { path, error })
    | .ok (w, told) =>
      let ((w, more), error) := w.addPaths disk paths
      ((w, told ++ more), error)

/-- Takes note of a change. -/
def notice (w : Watcher) (path : Path) (change : FileChange) : Watcher :=
  if w.files.watches path then { w with queue := w.queue.add path change } else w

/-- What a directory holds, nothing when it is gone. -/
def contents (disk : Disk) (directory : Path) : List (String × Entry) :=
  match disk.stat directory with
  | .ok (.directory entries) => entries
  | _ => []

/-- The files of a directory that came, went or changed between two states of the disk. -/
def changesIn (before after : Disk) (directory : Path) : List (Path × FileChange) :=
  let old := contents before directory
  let new := contents after directory
  let come := new.filterMap fun (name, entry) =>
    match old.lookup name, entry with
    | some (.file was), .file is => if was == is then none else some (directory.join name, .write)
    | none, .file _ => some (directory.join name, .create)
    | _, _ => none
  let gone := old.filter fun (name, _) => (new.lookup name).isNone
  come ++ gone.map fun (name, _) => (directory.join name, .remove)

/-- Takes note of all that changed in the watched directories between two states of the disk. -/
def compare (w : Watcher) (before after : Disk) : Watcher :=
  (w.directories.toList.flatMap (changesIn before after)).foldl
    (fun w (path, change) => w.notice path change) w

/-- Hands out the paths to look at; none means that there is nothing to do. -/
def flush (w : Watcher) : List Path × Watcher :=
  let (changed, queue) := w.queue.flush
  (changed, { w with queue })

/-- What is told when the paths that were handed out could not be dealt with. -/
def handlerFailed (changed : List Path) (error : Bytes) : TraceEntry :=
  { level := .error, message := "change handler failed"
    fields := [("files", toString changed.length), ("error", error)] }

def stop (w : Watcher) : Watcher := { w with queue := w.queue.stop }

end Watcher

/-! ## Handlers

The paths that a queue hands out are dealt with by a handler, which is not called when there are none.
A handler that fails is told of, and the queue goes on as if it had not. -/

/-- What is done to a queue. A flush comes with the handler for the paths, which may end with an
error. -/
inductive QueueAction where
  | add (path : Path) (change : FileChange)
  | flush (handler : List Path → Option Bytes)
  | stop

/-- What an action leads to: the calls of its handler, and what is told of them. -/
structure QueueEffect where
  handled : List (List Path) := []
  told : List TraceEntry := []
  deriving DecidableEq, Repr, Inhabited

namespace ChangeQueue

/-- Calls the handler with the paths to look at, unless there are none. -/
def deliver (changed : List Path) (handler : List Path → Option Bytes) : QueueEffect :=
  if changed.isEmpty then {}
  else
    { handled := [changed]
      told := (handler changed).toList.map (Watcher.handlerFailed changed) }

def act (q : ChangeQueue) : QueueAction → QueueEffect × ChangeQueue
  | .add path change => ({}, q.add path change)
  | .flush handler =>
    let (changed, q) := q.flush
    (deliver changed handler, q)
  | .stop => ({}, q.stop)

/-- Several actions one after another, with the effect of each. -/
def run (q : ChangeQueue) : List QueueAction → List QueueEffect × ChangeQueue
  | [] => ([], q)
  | action :: actions =>
    let (effect, q) := q.act action
    let (effects, q) := q.run actions
    (effect :: effects, q)

end ChangeQueue

end ShaderCost
