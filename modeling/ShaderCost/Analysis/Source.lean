import ShaderCost.Grammar.Shader
import ShaderCost.Report.Summary
import ShaderCost.Trace.Entry

/-! # Analysing a source

A source is read into a tree and the tree is costed. What came out is kept as an examination, from
which the result is taken and, for those who want to follow the run, a trace of its stages.
-/

namespace ShaderCost

/-- The lines of a source as they are shown: a carriage return before a line's end belongs to the end,
and an end after the last line starts no further one. -/
def sourceLines (source : Bytes) : List Bytes :=
  let dropReturn := fun (line : Bytes) =>
    if line.getLast? == some Byte.carriageReturn then line.dropLast else line
  match (source.splitAt Byte.newline).reverse with
  | [] => []
  | last :: others =>
    let complete := others.reverse.map dropReturn
    if last.isEmpty then complete else complete ++ [last]

/-- Why a source has no result. -/
inductive SourceError where
  | parse (file : String) (error : ParseError)
  | recursion (error : RecursionError)
  deriving DecidableEq, Inhabited

def SourceError.message : SourceError → Bytes
  | parse file error => Bytes.ofString ("ERROR: " ++ file ++ ":") ++ error.text
  | recursion error => error.message

/-- What sources are analysed with. -/
structure Analyzer where
  options : CostOptions := {}
  settings : Settings := {}
  deriving Inhabited

/-- An analyser for settings whose words are understood. -/
def Analyzer.ofSettings (settings : Settings) : Except OptionError Analyzer := do
  return { options := ← settings.costOptions, settings }

/-- What was found in a source: why it could not be read, or its tree and the run on it. -/
structure Examination where
  file : String
  source : Bytes
  outcome : Except ParseError (Tree × CostRun Int64)

namespace Examination

/-- The summary of a run that came to its end, with every table listed in the chosen order. -/
def summary (settings : Settings) (file : String) (source : Bytes) (run : CostRun Int64)
    (e : Enumeration Int64 := {}) : FileSummary :=
  FileSummary.ofLines file (sourceLines source) run.lines
    (some (run.functionSummaries (e.summaries.list run.resolution.costs.toList)))
    (CostRun.loopSummaries run.loops.loops.toList)
    settings.output.topLines.toNatClampNeg settings.analysis.heatThresholds e

def result (settings : Settings) (e : Examination) : Except SourceError FileSummary :=
  match e.outcome with
  | .error error => .error (.parse e.file error)
  | .ok (_, run) =>
    match run.failure with
    | some failure => .error (.recursion failure)
    | none => .ok (summary settings e.file e.source run)

/-- The stages of a run as they were completed, each with the time it took. -/
def stageTrace (t : Tree) (run : CostRun Int64) (duration : String) : List TraceEntry :=
  let completed := run.finished.map fun stage =>
    { level := .debug, message := "pass complete"
      fields := [("pass", stage.name), ("nodes", toString t.nodes.size),
        ("duration", duration)] : TraceEntry }
  match run.failure with
  | none => completed
  | some failure => completed ++
    [{ level := .debug, message := "pass failed"
       fields := [("pass", Stage.resolver.name), ("error", failure.message)] }]

/-- What a run tells of itself. -/
def trace (settings : Settings) (duration : String) (e : Examination) : List TraceEntry :=
  match e.outcome with
  | .error _ => []
  | .ok (t, run) =>
    let stages := stageTrace t run duration
    match e.result settings with
    | .error _ => stages
    | .ok s => stages ++
      [{ level := .debug, message := "file analyzed"
         fields := [("file", s.file), ("lines", toString s.lines.size),
          ("functions", toString (s.functions.getD []).length),
          ("total_cost", toString s.total.toInt)] }]

end Examination

namespace Analyzer

/-- Reads and costs a source. -/
def examine (a : Analyzer) (file : String) (source : Bytes) : Examination :=
  { file, source
    outcome := (Tree.ofSource source).map fun t => (t, CostRun.ofTree a.options t) }

/-- The summary of a source, or why there is none. -/
def analyzeSource (a : Analyzer) (file : String) (source : Bytes) :
    Except SourceError FileSummary :=
  (a.examine file source).result a.settings

end Analyzer

end ShaderCost
