import ShaderCost.Report.Style
import ShaderCost.Report.Summary

/-! # The report for people

Plain text: a title, a summary, and for each file its lines with their costs, its functions, its
loops where they are asked for, and its most expensive lines.
-/

namespace ShaderCost

namespace ConsoleReport

/-- The text, after blanks that make it `width` characters long. -/
def padLeft (width : Nat) (text : String) : String :=
  String.ofList (List.replicate (width - text.length) ' ') ++ text

/-- The text, before blanks that make it `width` characters long. -/
def padRight (width : Nat) (text : String) : String :=
  text ++ String.ofList (List.replicate (width - text.length) ' ')

def number (width : Nat) (n : Int64) : String := padLeft width (toString n.toInt)

/-- A character `count` times. -/
def line (c : Char) (count : Nat) : String := String.ofList (List.replicate count c)

/-- What the report looks like: the settings, and whether it may use colours. -/
structure Look where
  settings : Settings
  color : Bool

namespace Look

/-- Colours are used when the settings want them and the reader can show them. -/
def paints (look : Look) : Bool := look.settings.output.colors && look.color

end Look

def title (look : Look) : Bytes :=
  let paints := look.paints
  let rule := if look.settings.output.colors then '═' else '='
  Style.note.paint paints "shadertune Cost Report\n" ++
    Style.rule.paint paints (line rule 39 ++ "\n\n")

def configuration (settings : Settings) : Bytes :=
  let analysis := settings.analysis
  let heat := analysis.heatThresholds
  "Configuration:\n" ++
    "   Loop nesting: " ++ analysis.loopNesting ++ "\n" ++
    "   Function identity: " ++ analysis.functionIdentity ++ "\n" ++
    "   Recursion: " ++ analysis.recursion ++ "\n" ++
    "   Heat thresholds: " ++ toString heat.warm.toInt ++ "/" ++ toString heat.hot.toInt ++ "/" ++
    toString heat.critical.toInt ++ "\n\n"

def summary (look : Look) (batch : Batch) : Bytes :=
  let failures : Bytes :=
    if batch.hasFailures then
      Bytes.ofString "   Failures: " ++ Style.failure.paint look.paints (toString batch.failures) ++
        Bytes.ofString "\n"
    else []
  Bytes.ofString ("Summary:\n   Files analyzed: " ++ toString batch.results.length ++ "\n") ++
    failures ++ Bytes.ofString ("   Total cost: " ++ toString batch.total.toInt ++ "\n\n")

/-- One line of the source with its number and cost. -/
def sourceRow (look : Look) (file : FileSummary) (row : Bytes × Nat) : Bytes :=
  let (text, index) := row
  let number := index + 1
  let cost := file.lines.getD number 0
  let level := HeatLevel.ofCost look.settings.analysis.heatThresholds cost file.largest
  let columns := padLeft 4 (toString number) ++ " | " ++ ConsoleReport.number 6 cost ++ " | "
  Style.paintHeat look.paints level (Bytes.ofString columns ++ text) ++ Bytes.ofString "\n"

/-- How a function is called in the table. -/
def functionTitle (f : FunctionSummary) : String :=
  if f.resolved then f.key else f.key ++ " (unresolved)"

/-- The table of functions. Its first column is as wide as the longest title has bytes. -/
def functionTable (functions : List FunctionSummary) : Bytes :=
  let heading := "Function"
  let width := (functions.map fun f => (functionTitle f).utf8ByteSize).foldl max heading.length
  let row := fun (f : FunctionSummary) =>
    "   " ++ padRight width (functionTitle f) ++ " " ++ number 8 f.rawCost ++ " " ++
      number 8 f.cost ++ " " ++ number 11 f.invocations ++ " " ++ number 8 f.total ++ "\n"
  "Functions:\n   " ++ padRight width heading ++ " " ++ padLeft 8 "Raw" ++ " " ++
    padLeft 8 "Cost" ++ " " ++ padLeft 11 "Invocations" ++ " " ++ padLeft 8 "Total" ++ "\n" ++
    String.join (functions.map row) ++ "\n"

def loopRow (l : LoopSummary) : String :=
  "   line " ++ toString l.line ++ ": bound " ++ toString l.bound ++ " (" ++ l.boundType ++
    "), depth " ++ toString l.depth ++ ", multiplier " ++ toString l.multiplier.toInt ++ "\n"

def loopList (loops : List LoopSummary) : Bytes :=
  "Loops:\n" ++ String.join (loops.map loopRow) ++ "\n"

def hotRow (look : Look) (hot : HotLine) : Bytes :=
  Bytes.ofString
      ("   line " ++ toString hot.line ++ ": cost " ++ toString hot.cost.toInt ++ " ") ++
    Style.paintHeat look.paints hot.heat hot.heat.label ++
    Bytes.ofString "  " ++ hot.source.trim ++ Bytes.ofString "\n"

def hotList (look : Look) (lines : List HotLine) : Bytes :=
  Bytes.ofString "Hottest lines:\n" ++ lines.flatMap (hotRow look) ++ Bytes.ofString "\n"

/-- The lists below the source of a file, those that are asked for and not empty. -/
def details (look : Look) (file : FileSummary) : Bytes :=
  let output := look.settings.output
  let functions := file.functions.getD []
  (if output.showFunctions && !functions.isEmpty then functionTable functions else []) ++
    (if output.verbose && !file.loops.isEmpty then loopList file.loops else []) ++
    (if file.hotLines.isEmpty then [] else hotList look file.hotLines)

def heading (look : Look) (text : String) : Bytes :=
  Style.heading.paint look.paints text ++ Bytes.ofString ("\n" ++ line '─' 50 ++ "\n")

def fileReport (look : Look) : FileResult → Bytes
  | .failed file error =>
    heading look file ++ Style.failure.paint look.paints (error ++ Bytes.ofString "\n\n")
  | .analysed file =>
    heading look (file.file ++ " (total " ++ toString file.total.toInt ++ ", max " ++
        toString file.largest.toInt ++ ")") ++
      file.source.zipIdx.flatMap (sourceRow look file) ++ Bytes.ofString "\n" ++ details look file

/-- The whole report on a batch that took the given time. -/
def report (look : Look) (batch : Batch) (duration : String) : Bytes :=
  title look ++
    (if look.settings.output.verbose then configuration look.settings else []) ++
    summary look batch ++ batch.results.flatMap (fileReport look) ++
    Bytes.ofString ("Analysis completed in " ++ duration ++ "\n")

end ConsoleReport

end ShaderCost
