import ShaderCost.Cost.Analysis
import ShaderCost.Report.Heat
import ShaderCost.Text.Blank

/-! # What is known of a file

The result of one file is a summary of its costs, or the text of what went wrong. Everything derived
from tables of costs takes their entries as a list and sorts it, so that the order in which a table
is enumerated cannot be seen.
-/

namespace ShaderCost

namespace LineTable

/-- The greatest of the costs, zero when there are none. -/
def largest (entries : List (Int × Int64)) : Int64 :=
  match entries.map (·.2) with
  | [] => 0
  | first :: others => others.foldl max first

/-- The lines that have a cost, in ascending order. -/
def lineNumbers {α : Type} (entries : List (Int × α)) : List Int :=
  (entries.map (·.1)).mergeSort

/-- The positive entries, the greatest cost first and the smaller line first among equal costs. -/
def ranked (entries : List (Int × Int64)) : List (Int × Int64) :=
  let byLine := (entries.filter (0 < ·.2)).mergeSort (·.1 ≤ ·.1)
  byLine.mergeSort (·.2 ≥ ·.2)

end LineTable

/-- A line among the most expensive ones of its file. -/
structure HotLine where
  line : Int
  cost : Int64
  heat : HeatLevel
  source : Bytes
  deriving DecidableEq, Inhabited

/-- One loop of a file. -/
structure LoopSummary where
  line : Int
  bound : Int
  boundType : String
  depth : Int
  multiplier : Int64
  deriving DecidableEq, Inhabited

/-- One function of a file. -/
structure FunctionSummary where
  key : String
  name : String
  line : Int
  defined : Bool
  rawCost : Int64
  cost : Int64
  invocations : Int64
  resolved : Bool
  callSites : Int
  deriving DecidableEq, Inhabited

/-- What a function costs in all its invocations. -/
def FunctionSummary.total (f : FunctionSummary) : Int64 := Saturating.mul f.cost f.invocations

/-- The costs of a file. The functions are missing when they were never looked at. -/
structure FileSummary where
  file : String
  source : List Bytes
  lines : LineTable Int64
  total : Int64
  largest : Int64
  functions : Option (List FunctionSummary)
  loops : List LoopSummary
  hotLines : List HotLine

namespace FileSummary

/-- The text of a line, empty when there is no such line. -/
def sourceLine (source : List Bytes) (line : Int) : Bytes :=
  if line < 1 then [] else (source[(line - 1).toNat]?).getD []

/-- The most expensive lines, at most `count` of them, beside the greatest cost there is. -/
def hottest (thresholds : HeatThresholds) (count : Nat) (source : List Bytes) (largest : Int64)
    (entries : List (Int × Int64)) : List HotLine :=
  ((LineTable.ranked entries).take count).map fun (line, cost) =>
    { line, cost
      heat := HeatLevel.ofCost thresholds cost largest
      source := sourceLine source line }

/-- The summary of a table of line costs, with at most `topLines` hot lines. -/
def ofLines (file : String) (source : List Bytes) (lines : LineTable Int64)
    (functions : Option (List FunctionSummary)) (loops : List LoopSummary)
    (topLines : Nat) (thresholds : HeatThresholds) (e : Enumeration Int64 := {}) : FileSummary :=
  let entries := lines.toList
  let largest := LineTable.largest (e.largest.list entries)
  { file, source, lines, functions, loops, largest
    total := LineTable.total (e.total.list entries)
    hotLines := hottest thresholds topLines source largest (e.lines.list entries) }

end FileSummary

/-- The result of one file. -/
inductive FileResult where
  | analysed (summary : FileSummary)
  | failed (file : String) (error : Bytes)

namespace FileResult

def file : FileResult → String
  | analysed summary => summary.file
  | failed file _ => file

/-- The text of what went wrong. -/
def error? : FileResult → Option Bytes
  | analysed _ => none
  | failed _ error => some error

/-- What a result adds to the total of its batch. -/
def total : FileResult → Int64
  | analysed summary => summary.total
  | failed _ _ => 0

end FileResult

/-- The results of several files, in the order they were given. -/
structure Batch where
  results : List FileResult := []
  failures : Nat := 0
  total : Int64 := 0
  deriving Inhabited

namespace Batch

def files (batch : Batch) : List String := batch.results.map (·.file)

def hasFailures (batch : Batch) : Bool := batch.failures > 0

/-- Adds a result at the end; one that failed is counted and adds nothing to the total. -/
def add (batch : Batch) (result : FileResult) : Batch :=
  match result with
  | .analysed summary =>
    { batch with
      results := batch.results ++ [result]
      total := Saturating.add batch.total summary.total }
  | .failed _ _ =>
    { batch with results := batch.results ++ [result], failures := batch.failures + 1 }

def ofList (results : List FileResult) : Batch := results.foldl add {}

end Batch

/-! ## From a run of the analysis -/

namespace CostRun

/-- What a run found about a function. Code outside all functions has no entry in the graph and
counts as resolved. -/
def functionSummary (run : CostRun Int64) (entry : String × Int64) : FunctionSummary :=
  let (key, cost) := entry
  let rawCost := run.resolution.raw.getD key 0
  let invocations := run.counts.count key
  match run.graph.functions[key]? with
  | some info =>
    { key, rawCost, cost, invocations
      name := info.name
      line := info.line
      defined := info.definition.isSome
      resolved := run.resolution.resolved.contains key
      callSites := info.callSites.length }
  | none =>
    { key, rawCost, cost, invocations, name := key, line := 0, defined := false, resolved := true
      callSites := 0 }

/-- The greater total comes first, and the smaller key among equal totals. -/
def functionBefore (a b : FunctionSummary) : Bool :=
  a.total > b.total || (a.total == b.total && a.key ≤ b.key)

/-- The functions of a run, from the entries of the cost table in any order. -/
def functionSummaries (run : CostRun Int64) (entries : List (String × Int64)) :
    List FunctionSummary :=
  (entries.map run.functionSummary).mergeSort functionBefore

/-- Loops go by line, depth, bound, multiplier and kind of bound, in this order. -/
def loopBefore (a b : LoopSummary) : Bool :=
  if a.line != b.line then a.line < b.line
  else if a.depth != b.depth then a.depth < b.depth
  else if a.bound != b.bound then a.bound < b.bound
  else if a.multiplier != b.multiplier then a.multiplier < b.multiplier
  else a.boundType ≤ b.boundType

/-- The loops of a run, from the entries of the loop table in any order. -/
def loopSummaries (entries : List (NodeId × LoopFact Int64)) : List LoopSummary :=
  let summaries := entries.map fun (_, fact) =>
    { line := fact.line, bound := fact.bound, boundType := fact.kind.name, depth := fact.depth,
      multiplier := fact.multiplier : LoopSummary }
  summaries.mergeSort loopBefore

end CostRun

end ShaderCost
