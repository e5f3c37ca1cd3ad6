import ShaderCost.Analysis.Source
import ShaderCost.Files.Disk

/-! # Analysing files

Files are read from a disk and analysed one by one, each on its own. A file that fails takes its place
among the results with the text of its error.
-/

namespace ShaderCost

/-- Why a file has no result. -/
inductive AnalysisError where
  | unreadable (file : Path) (error : PathError)
  | tooLarge (file : Path) (kilobytes : Int64)
  | source (error : SourceError)
  deriving DecidableEq, Inhabited

def AnalysisError.message : AnalysisError → Bytes
  | unreadable file error => "failed to read " ++ file ++ ": " ++ error.message
  | tooLarge file kilobytes =>
    file ++ " exceeds max_file_size of " ++ toString kilobytes.toInt ++ " KB"
  | source error => error.message

/-- A file is too large when it has more bytes than the limit; the limit is counted in 64-bit words,
and one that is not positive is none. -/
def FileSettings.exceeds (files : FileSettings) (content : Bytes) : Bool :=
  let limit := files.maxFileSize * 1024
  limit > 0 && (content.length : Int) > limit.toInt

namespace Analyzer

/-- The content of a file that is not too large. -/
def load (a : Analyzer) (disk : Disk) (file : Path) : Except AnalysisError Bytes := do
  let entry ← (disk.stat file).mapError (.unreadable file)
  match entry with
  | .file content =>
    if a.settings.files.exceeds content then
      .error (.tooLarge file a.settings.files.maxFileSize)
    else .ok content
  | .directory _ => (disk.read file).mapError (.unreadable file)

/-- What was found in a file. -/
def examineFile (a : Analyzer) (disk : Disk) (file : Path) : Except AnalysisError Examination :=
  (a.load disk file).map (a.examine file)

/-- The summary of a file, or why there is none. -/
def summarize (a : Analyzer) (found : Except AnalysisError Examination) :
    Except AnalysisError FileSummary := do
  ((← found).result a.settings).mapError .source

def analyzeFile (a : Analyzer) (disk : Disk) (file : Path) : Except AnalysisError FileSummary :=
  a.summarize (a.examineFile disk file)

/-- A summary as a result, or the error in its place. -/
def toResult (file : Path) : Except AnalysisError FileSummary → FileResult
  | .ok summary => .analysed summary
  | .error error => .failed file error.message

/-- The results of several files, in the order they were given. -/
def analyzeFiles (a : Analyzer) (disk : Disk) (files : List Path) : Batch :=
  Batch.ofList (files.map fun file => toResult file (a.analyzeFile disk file))

/-- What the analysis of a file tells of itself. -/
def traceFile (a : Analyzer) (disk : Disk) (duration : String) (file : Path) : List TraceEntry :=
  let found := a.examineFile disk file
  let stages := match found with
    | .ok e => e.trace a.settings duration
    | .error _ => []
  match a.summarize found with
  | .ok _ => stages
  | .error error => stages ++
    [{ level := .debug, message := "analysis failed"
       fields := [("file", file), ("error", error.message)] }]

end Analyzer

end ShaderCost
