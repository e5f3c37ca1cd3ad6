import ShaderCost.Command.Run
import ShaderCost.Report.Duration

/-! # The program

Reads what a command may look at from the real disk, runs the command on it, and shows and writes what
comes out. A run that watches looks at the disk again twice a second.
-/

namespace ShaderCost.Program

/-- The entry at a place on the real disk; a directory is read with all it holds only when `deep`
holds. -/
partial def readEntry? (deep : Bool) (place : String) : IO (Option Entry) := do
  try
    let real ← IO.FS.realPath place
    if ← real.isDir then
      if !deep then return some (.directory [])
      let mut entries : List (String × Entry) := []
      for child in ← real.readDir do
        if let some entry ← readEntry? deep (place ++ "/" ++ child.fileName) then
          entries := Entry.insertNamed child.fileName entry entries
      return some (.directory entries)
    else return some (.file (← IO.FS.readBinFile place).toList)
  catch _ => return none

/-- Adds what stands at a path to the disk. -/
def adopt (deep : Bool) (disk : Disk) (path : Path) : IO Disk := do
  if path.isEmpty then return disk
  match ← readEntry? deep path with
  | some entry => return disk.adopt path entry
  | none => return disk

/-- The disk as far as a command line concerns it. -/
def readDisk (c : CommandLine) : IO Disk := do
  let names := (Path.elements (← IO.currentDir).toString).filter (!·.isEmpty)
  let mut disk : Disk := { workingDirectory := names }
  for path in c.paths do
    disk ← adopt true disk path
  disk ← adopt false disk "."
  for path in (c.text? .config).toList ++ Settings.usualPlaces do
    disk ← adopt false disk path
  if let .ok settings := Command.loadSettings { disk } c then
    for path in Disk.leading settings.output.outputFile do
      disk ← adopt false disk path
  return disk

/-- Whether standard output shows colours. -/
def showsColors : IO Bool := do
  let terminal ← (← IO.getStdout).isTty
  let plain := (← IO.getEnv "NO_COLOR").isSome || (← IO.getEnv "TERM") == some "dumb"
  return terminal && !plain

def put (stream : IO.FS.Stream) (text : Bytes) : IO Unit := do
  stream.write (ByteArray.mk text.toArray)
  stream.flush

/-- Writes the files of an outcome and says what it says. -/
def deliver (outcome : Outcome) : IO Unit := do
  for (path, content) in outcome.written do
    IO.FS.createDirAll path.parent
    IO.FS.writeBinFile path (ByteArray.mk content.toArray)
  for path in outcome.failed.toList do
    try IO.FS.createDirAll path.parent catch _ => pure ()
  put (← IO.getStderr) outcome.messages
  put (← IO.getStdout) outcome.output

/-- Computes a value and the text of the time that took. -/
def timed {α : Type} (compute : Unit → α) : IO (α × String) := do
  let before ← IO.monoNanosNow
  let value ← IO.lazyPure compute
  let after ← IO.monoNanosNow
  return (value, Duration.text (after - before))

/-- Looks at the watched directories again and again. -/
partial def watch (job : Command.Job) (color : Bool) (disk : Disk) (watcher : Watcher) :
    IO Unit := do
  IO.sleep 500
  let now ← readDisk job.commandLine
  let (changed, watcher) := (watcher.compare disk now).flush
  if !changed.isEmpty then
    let s : Surroundings := { disk := now, color }
    let (job, duration) ← timed fun _ => job.again s changed
    deliver (job.finishAgain s duration)
  watch job color now watcher

end ShaderCost.Program

open ShaderCost in
def main (arguments : List String) : IO UInt32 := do
  let color ← Program.showsColors
  let c := (CommandLine.parse arguments).toOption.getD {}
  let s : Surroundings := { disk := ← Program.readDisk c, color }
  let (step, duration) ← Program.timed fun _ => Command.start s arguments
  match step with
  | .done outcome =>
    Program.deliver outcome
    return outcome.status.toUInt32
  | .report job =>
    let outcome := job.finish s duration
    Program.deliver outcome
    if let some watcher := outcome.watching then
      Program.watch job color outcome.disk watcher
    return outcome.status.toUInt32
