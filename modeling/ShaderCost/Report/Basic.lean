import ShaderCost.Report.Console
import ShaderCost.Report.Html
import ShaderCost.Report.Json

/-! # Reports

One result, three ways to show it. A format is chosen by its name, and any name but the two others
stands for the console.
-/

namespace ShaderCost

inductive ReportFormat where
  | console | json | html
  deriving DecidableEq, Repr, Inhabited

def ReportFormat.ofName (name : String) : ReportFormat :=
  match name with
  | "json" => json
  | "html" => html
  | _ => console

/-- Where pages go when no place is named. -/
def defaultPage : String := "output.html"

/-- The report on a batch that took the given time. -/
def report (settings : Settings) (format : ReportFormat) (color : Bool) (batch : Batch)
    (duration : String) : Bytes :=
  match format with
  | .console => ConsoleReport.report { settings, color } batch duration
  | .json => JsonReport.report batch duration
  | .html => HtmlReport.report batch

end ShaderCost
