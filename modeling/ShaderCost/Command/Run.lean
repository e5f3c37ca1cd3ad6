import ShaderCost.Analysis.Files
import ShaderCost.Command.Flags
import ShaderCost.Report.Basic
import ShaderCost.Settings.Store
import ShaderCost.Watch.Watcher

/-! # Running a command

A command is a function of its arguments and of the disk. It ends with a status, with what it says on
its two outputs, and with the files it writes. Analysis comes first and its report last, so that the
time between them can be told in the report; `Job` is the state in between.

What becomes of arguments before the command runs, and what a settings file says, is for others to
tell: a run takes a reader of arguments and a decoder of settings (`Surroundings`), and works with
whatever they answer. The ones of this library are there unless others are given.

A run that watches does not end by itself. Its outcome holds the watcher, and every later batch of
changes gives an outcome of its own.
-/

namespace ShaderCost

/-- How a run ends. -/
structure Outcome where
  status : Nat := 0
  /-- What is said to the user. -/
  output : Bytes := []
  /-- The usage after a mistake, and the trace of a run. -/
  messages : Bytes := []
  disk : Disk
  /-- The files that were written. -/
  written : List (Path × Bytes) := []
  /-- The file that could not be written, for which directories may have been made. -/
  failed : Option Path := none
  watching : Option Watcher := none

namespace Command

/-! ## Texts -/

def usage : String :=
  "Usage:\n  shadertune [shader files or directories] [flags]\n\nFlags:\n" ++
    String.join (Flag.usageLines.map (· ++ "\n"))

def help : String := "shadertune estimates how much arithmetic every line of a GLSL shader
performs, accounting for vector widths, constant loop bounds and function
calls, and renders the result as a heatmap.

Examples:
  shadertune blur.frag                     # Analyze one shader
  shadertune shaders/                      # Analyze every shader in a directory
  shadertune --format=html blur.frag       # Write output.html
  shadertune --nesting=multiplicative .    # Multiply nested loop bounds
  shadertune --config=.shadertune.yml .    # Use custom config
  shadertune --generate-config             # Generate sample config file

" ++ usage

/-! ## Surroundings -/

/-- What a reader makes of the arguments. -/
inductive Understood where
  /-- They are refused with an error, of which more is told on the side. -/
  | refused (error : String) (messages : Bytes)
  /-- They are answered at once, and the command does not run. -/
  | answered (output messages : Bytes)
  | command (line : CommandLine)

/-- Reads the flags, and answers those who ask for help. -/
def understand (arguments : List String) : Understood :=
  match CommandLine.parse arguments with
  | .error e => .refused e.message ("Error: " ++ e.message ++ "\n" ++ usage ++ "\n")
  | .ok c => if c.isOn .help then .answered help [] else .command c

end Command

/-- What a run works with: the disk, whether its output can show colours, what reads the arguments
and tells how to use them, and what decodes the content of a settings file. -/
structure Surroundings where
  disk : Disk
  color : Bool := false
  understand : List String → Command.Understood := Command.understand
  usage : Bytes := Command.usage
  decode? : Bytes → Option Settings := Settings.decode?

namespace Command

/-- A line of status in its style. -/
def say (s : Surroundings) (style : Style) (text : String) : Bytes :=
  style.paint s.color (text ++ "\n")

/-- Lines of a trace. -/
def tell (entries : List TraceEntry) : Bytes := Bytes.unlines (entries.map (·.text))

/-- A run that gives up. -/
def giveUp (s : Surroundings) (style : Style) (text : String) : Outcome :=
  { status := 1, output := say s style text, disk := s.disk }

/-! ## Settings -/

/-- The settings with the flags that were given laid over them. Pages need a file to go to. -/
def applyFlags (c : CommandLine) (s : Settings) : Settings :=
  let text := fun (f : Flag) (old : String) => (c.text? f).getD old
  let output :=
    { s.output with
      format := text .format s.output.format
      outputFile := text .output s.output.outputFile
      verbose := (c.switch? .verbose).getD s.output.verbose }
  let analysis :=
    { s.analysis with
      loopNesting := text .nesting s.analysis.loopNesting
      functionIdentity := text .identity s.analysis.functionIdentity
      recursion := text .recursion s.analysis.recursion }
  let outputFile :=
    if ReportFormat.ofName output.format == .html && output.outputFile.isEmpty then defaultPage
    else output.outputFile
  { s with analysis, output := { output with outputFile } }

/-- The settings of a run, read and checked, and checked again with the flags. -/
def loadSettings (s : Surroundings) (c : CommandLine) : Except LoadError Settings := do
  let settings ← Settings.load s.disk ((c.text? .config).getD "") s.decode?
  (applyFlags c settings).validate.mapError .invalid

/-! ## Reports -/

/-- Writes a file, making the directories above it. They stay when the file cannot be written. -/
def writeFile (disk : Disk) (path : Path) (content : Bytes) : Except Disk.Interrupted Disk := do
  let made ← disk.makeDirectories path.parent
  match made.write path content with
  | .ok written => return written
  | .error error => .error { error, disk := made }

/-- The errors of the files that failed, a line each. -/
def failureLines (batch : Batch) : Bytes := Bytes.unlines (batch.results.filterMap (·.error?))

/-- Shows a report, or writes it where the settings say. A report on disk does not show the failures,
so they are said as well. -/
def emit (s : Surroundings) (settings : Settings) (batch : Batch) (duration : String) : Outcome :=
  let text := report settings (.ofName settings.output.format) s.color batch duration
  let file := settings.output.outputFile
  if file.isEmpty then { output := text, disk := s.disk }
  else
    match writeFile s.disk file text with
    | .ok disk =>
      { output := say s .success ("Report saved to: " ++ file) ++ failureLines batch, disk
        written := [(file, text)] }
    | .error e =>
      { output := say s .failure ("Failed to write report to file: " ++ e.error.message) ++
          failureLines batch
        disk := e.disk
        failed := some file }

/-! ## Runs -/

/-- A run whose files are analysed and not yet reported on. -/
structure Job where
  commandLine : CommandLine
  analyzer : Analyzer
  files : List Path
  batch : Batch

/-- A run is over, or it has a job to report on. -/
inductive Step where
  | done (outcome : Outcome)
  | report (job : Job)

/-- Finds the shaders and analyses them. -/
def analyze (s : Surroundings) (c : CommandLine) : Step :=
  match loadSettings s c with
  | .error e => .done (giveUp s .failure ("Error loading configuration: " ++ e.message))
  | .ok settings =>
    match settings.files.collectAll s.disk c.paths with
    | .error (path, e) =>
      .done (giveUp s .failure ("error collecting files from " ++ path ++ ": " ++ e.message))
    | .ok [] => .done (giveUp s .caution "No shader files found to analyze")
    | .ok files =>
      match Analyzer.ofSettings settings with
      | .error e => .done (giveUp s .failure ("Error creating analyzer: " ++ e.message))
      | .ok analyzer =>
        .report
          { commandLine := c, analyzer, files, batch := analyzer.analyzeFiles s.disk files }

/-- Writes a sample of the settings. -/
def generateConfig (s : Surroundings) : Outcome :=
  let place := Settings.samplePlace
  let settings : Settings := {}
  match settings.save s.disk place with
  | .error e => giveUp s .failure ("Failed to generate config file: " ++ e.message)
  | .ok disk =>
    { disk, written := [(place, settings.render)]
      output :=
        say s .success ("Generated sample configuration file: " ++ place) ++
        say s .note "Edit this file to customize shadertune behavior" ++
        say s .note ("Run 'shadertune --config=" ++ place ++ " .' to use it") }

/-- Does what the arguments ask for, up to the report. -/
def start (s : Surroundings) (arguments : List String) : Step :=
  match s.understand arguments with
  | .refused error messages =>
    .done { status := 1, disk := s.disk, output := error ++ "\n", messages }
  | .answered output messages => .done { output, messages, disk := s.disk }
  | .command c =>
    if c.isOn .generateConfig then .done (generateConfig s)
    else if c.paths.isEmpty then .done { status := 1, messages := s.usage, disk := s.disk }
    else analyze s c

namespace Job

def settings (job : Job) : Settings := job.analyzer.settings

def isVerbose (job : Job) : Bool := job.settings.output.verbose

/-- What is said before the analysis. -/
def announcement (job : Job) (s : Surroundings) : Bytes :=
  if job.isVerbose then
    say s .note ("Analyzing " ++ toString job.files.length ++ " shader files with " ++
      toString job.settings.analysis.maxWorkers.toInt ++ " workers...\n")
  else []

/-- The trace of a run, for those who want it. -/
def trace (job : Job) (entries : List TraceEntry) : Bytes :=
  if job.isVerbose then tell entries else []

/-- The trace of the analysis. -/
def analysisTrace (job : Job) (disk : Disk) (files : List Path) (duration : String) : Bytes :=
  if job.isVerbose then tell (files.flatMap (job.analyzer.traceFile disk duration)) else []

/-- Begins to watch the paths of the command line. -/
def watch (job : Job) (s : Surroundings) (soFar : Outcome) : Outcome :=
  let ((watcher, told), error) :=
    Watcher.addPaths { files := job.settings.files } soFar.disk job.commandLine.paths
  let messages := soFar.messages ++ job.trace told
  match error with
  | some e =>
    { soFar with
      status := 1, messages
      output := soFar.output ++ say s .failure ("Watch mode failed: " ++ e.message) }
  | none =>
    let count := toString watcher.directories.size
    { soFar with
      status := 0, messages, watching := some watcher
      output := soFar.output ++
        say s .note ("Watching " ++ count ++ " directories for changes (Ctrl+C to stop)") }

/-- Reports on a job that took the given time. A run fails when a file did, unless it watches. -/
def finish (job : Job) (s : Surroundings) (duration : String) : Outcome :=
  let reported := emit s job.settings job.batch duration
  let outcome :=
    { reported with
      status := if job.batch.hasFailures then 1 else 0
      output := job.announcement s ++ reported.output
      messages := job.analysisTrace s.disk job.files duration }
  if job.commandLine.isOn .watch then job.watch s outcome else outcome

/-- Analyses files that have changed. -/
def again (job : Job) (s : Surroundings) (changed : List Path) : Job :=
  { job with files := changed, batch := job.analyzer.analyzeFiles s.disk changed }

/-- Reports on files that have changed. -/
def finishAgain (job : Job) (s : Surroundings) (duration : String) : Outcome :=
  let reported := emit s job.settings job.batch duration
  let note := "\nChanged: " ++ toString job.files.length ++ " shader file(s), re-analyzing...\n"
  { reported with
    output := say s .note note ++ reported.output
    messages := job.analysisTrace s.disk job.files duration }

end Job

/-- The whole of a run, when its analysis takes the given time. -/
def run (s : Surroundings) (arguments : List String) (duration : String) : Outcome :=
  match start s arguments with
  | .done outcome => outcome
  | .report job => job.finish s duration

end Command

end ShaderCost
