import ShaderCost.Cost.Lines

/-! # The analysis of a tree

Six stages, each a function of the tree and of the results before it. The fourth may fail, when
functions call each other in a circle and the options do not allow for that; nothing after it is then
computed.
-/

namespace ShaderCost

/-- The stages of the analysis, in order. -/
inductive Stage where
  | width | loops | functions | resolver | invocations | lines
  deriving DecidableEq, Repr, Inhabited

namespace Stage

def all : List Stage := [width, loops, functions, resolver, invocations, lines]

def name : Stage → String
  | width => "Width Cost Pass"
  | loops => "Loop Multiplier Pass"
  | functions => "Function Attribution Pass"
  | resolver => "Function Cost Resolver"
  | invocations => "Invocation Counter"
  | lines => "Line Cost Aggregator"

/-- The stages that are complete when the resolver fails. -/
def beforeFailure : List Stage := [width, loops, functions]

end Stage

/-- All that the stages found. After a failure the last two tables are empty. -/
structure CostRun (α : Type) where
  widths : Widths
  loops : LoopCosts α
  graph : CallGraph
  resolution : Resolution α
  failure : Option RecursionError
  counts : Invocations α
  lines : LineTable α

namespace CostRun

variable {α : Type} [Tally α]

/-- Runs the stages on a tree, with every table listed in the chosen order. -/
def ofTree (options : CostOptions) (t : Tree) (e : Enumeration α := {}) : CostRun α :=
  let widths := Widths.ofTree t
  let loops := LoopCosts.ofTree t options.nesting
  let graph := CallGraph.ofTree t options.identity
  let resolution := Resolution.ofGraph graph widths loops e
  match resolution.failure? graph options.recursion e with
  | some failure =>
    { widths, loops, graph, resolution, failure := some failure, counts := ∅, lines := ∅ }
  | none =>
    let counts := Invocations.ofGraph graph loops resolution e
    let lines := LineTable.ofTree t widths loops graph counts
    { widths, loops, graph, resolution, failure := none, counts, lines }

/-- The stages that were completed. -/
def finished (run : CostRun α) : List Stage :=
  if run.failure.isSome then Stage.beforeFailure else Stage.all

def processingOrder (run : CostRun α) (e : Enumeration α := {}) : List String :=
  ShaderCost.processingOrder run.graph run.resolution e

end CostRun

end ShaderCost
