import ShaderCost.Cost.Options

/-! # Settings

What a run is told: how to count, what to show, and which files to look at. A settings file is laid
over the defaults, so every field has one. Words that name a choice are kept as they were written and
are only understood when they are used, which is why unchecked settings can be held and saved.

A list in a settings file may be set to nothing. That is not the same as an empty list when the
settings are shown, so lists are optional.
-/

namespace ShaderCost

/-- From which percentage of the greatest line cost a line is warm, hot and critical. -/
structure HeatThresholds where
  warm : Int64 := 25
  hot : Int64 := 50
  critical : Int64 := 80
  deriving DecidableEq, Inhabited

structure AnalysisSettings where
  loopNesting : String := NestingPolicy.additive.text
  functionIdentity : String := FunctionIdentity.name.text
  recursion : String := RecursionMode.error.text
  maxWorkers : Int64 := 4
  heatThresholds : HeatThresholds := {}
  deriving DecidableEq, Inhabited

structure OutputSettings where
  format : String := "console"
  colors : Bool := true
  verbose : Bool := false
  showFunctions : Bool := true
  topLines : Int64 := 5
  /-- Where the report goes; empty for standard output. -/
  outputFile : String := ""
  deriving DecidableEq, Inhabited

structure FileSettings where
  extensions : Option (List String) :=
    some [".glsl", ".frag", ".vert", ".fs", ".vs", ".fsh", ".vsh"]
  /-- Patterns for the elements of a path. -/
  exclude : Option (List String) := some [".git", "node_modules", "vendor"]
  /-- In kilobytes; there is no limit when it is not positive. -/
  maxFileSize : Int64 := 1024
  deriving DecidableEq, Inhabited

/-- The version of settings that this program writes, and the newest it understands. -/
def settingsVersion : String := "1.0"

structure Settings where
  version : String := settingsVersion
  projectName : String := ""
  analysis : AnalysisSettings := {}
  output : OutputSettings := {}
  files : FileSettings := {}
  deriving DecidableEq, Inhabited

namespace Settings

/-- How costs are counted, when the three words are understood. -/
def costOptions (s : Settings) : Except OptionError CostOptions :=
  CostOptions.parse s.analysis.loopNesting s.analysis.functionIdentity s.analysis.recursion

end Settings

end ShaderCost
