import ShaderCost.Settings.Basic
import ShaderCost.Yaml.Reader
import ShaderCost.Yaml.View
import ShaderCost.Yaml.Writer

/-! # Settings as documents

A document is laid over settings field by field: a field that is not mentioned, or is mentioned with
nothing, keeps its value, but a list that is set to nothing is gone. Keys that are not known are
passed over, and a key must not stand twice in a mapping that is looked at. Written out, settings
give a document with all fields, but for two texts that are left out when they are empty.
-/

namespace ShaderCost

namespace Overlay

/-- Lays a value over another one, if it is of the right kind. -/
abbrev Field (α : Type) := Yaml.View → α → Option α

/-- A scalar that is laid over another value unless it is nothing. -/
def scalar {α : Type} (read : Yaml.Scalar → Yaml.Meaning → Option α) : Field α := fun v old => do
  match (← v.settle).value with
  | .scalar s =>
    match ← s.meaning? with
    | .null => some old
    | meaning => read s meaning
  | _ => none

def text : Field String := scalar fun s _ => s.content?

def word : Field Int64 := scalar fun _ meaning => meaning.word?.map Int64.ofInt

def bool : Field Bool := scalar fun s meaning =>
  match meaning with
  | .bool value => some value
  | .text => s.content? >>= Yaml.boolOfWord?
  | _ => none

/-- The texts of a list of scalars; an item that is nothing is passed over. -/
def texts : Field (Option (List String)) := fun v _ => do
  let v ← v.settle
  match v.value with
  | .list items => return some ((← items.mapM fun item => (v.child item).text?).filterMap id)
  | .scalar s => if (← s.meaning?) == .null then some none else none
  | _ => none

/-- The field of a key in a mapping, laid over its old value. -/
def at? {α : Type} (entries : Yaml.Entries) (key : String) (field : Field α) (old : α) : Option α :=
  match entries.filter (·.1 == key) with
  | [] => some old
  | [(_, value)] => field value old
  | _ => none

/-- A mapping whose fields are laid over those of a record. -/
def record {α : Type} (fields : Yaml.Entries → α → Option α) : Field α := fun v old => do
  let v ← v.settle
  match v.value with
  | .mapping entries => fields (← v.entries? entries) old
  | .scalar s => if (← s.meaning?) == .null then some old else none
  | _ => none

def heatThresholds : Field HeatThresholds := record fun e old => do
  return {
    warm := ← at? e "warm" word old.warm
    hot := ← at? e "hot" word old.hot
    critical := ← at? e "critical" word old.critical }

def analysis : Field AnalysisSettings := record fun e old => do
  return {
    loopNesting := ← at? e "loop_nesting" text old.loopNesting
    functionIdentity := ← at? e "function_identity" text old.functionIdentity
    recursion := ← at? e "recursion" text old.recursion
    maxWorkers := ← at? e "max_workers" word old.maxWorkers
    heatThresholds := ← at? e "heat_thresholds" heatThresholds old.heatThresholds }

def output : Field OutputSettings := record fun e old => do
  return {
    format := ← at? e "format" text old.format
    colors := ← at? e "colors" bool old.colors
    verbose := ← at? e "verbose" bool old.verbose
    showFunctions := ← at? e "show_functions" bool old.showFunctions
    topLines := ← at? e "top_lines" word old.topLines
    outputFile := ← at? e "output_file" text old.outputFile }

def files : Field FileSettings := record fun e old => do
  return {
    extensions := ← at? e "extensions" texts old.extensions
    exclude := ← at? e "exclude" texts old.exclude
    maxFileSize := ← at? e "max_file_size" word old.maxFileSize }

def settings : Field Settings := record fun e old => do
  return {
    version := ← at? e "version" text old.version
    projectName := ← at? e "project_name" text old.projectName
    analysis := ← at? e "analysis" analysis old.analysis
    output := ← at? e "output" output old.output
    files := ← at? e "files" files old.files }

end Overlay

namespace Document

def ofText (t : String) : Yaml := .scalar { style := Yaml.styleOf t, text := t }

def ofWord (n : Int64) : Yaml := .scalar { text := toString n.toInt }

def ofBool (b : Bool) : Yaml := .scalar { text := if b then "true" else "false" }

/-- A list that is gone is written like an empty one. -/
def ofTexts (items : Option (List String)) : Yaml := .list ((items.getD []).map ofText)

/-- An entry that is left out when its text is empty. -/
def unlessEmpty (key t : String) : List (String × Yaml) :=
  if t.isEmpty then [] else [(key, ofText t)]

def ofHeatThresholds (t : HeatThresholds) : Yaml :=
  .record [("warm", ofWord t.warm), ("hot", ofWord t.hot), ("critical", ofWord t.critical)]

def ofAnalysis (a : AnalysisSettings) : Yaml :=
  .record
    [("loop_nesting", ofText a.loopNesting), ("function_identity", ofText a.functionIdentity),
      ("recursion", ofText a.recursion), ("max_workers", ofWord a.maxWorkers),
      ("heat_thresholds", ofHeatThresholds a.heatThresholds)]

def ofOutput (o : OutputSettings) : Yaml :=
  .record
    ([("format", ofText o.format), ("colors", ofBool o.colors), ("verbose", ofBool o.verbose),
      ("show_functions", ofBool o.showFunctions), ("top_lines", ofWord o.topLines)] ++
      unlessEmpty "output_file" o.outputFile)

def ofFiles (f : FileSettings) : Yaml :=
  .record
    [("extensions", ofTexts f.extensions), ("exclude", ofTexts f.exclude),
      ("max_file_size", ofWord f.maxFileSize)]

/-- The document of settings. -/
def ofSettings (s : Settings) : Yaml :=
  .record
    ([("version", ofText s.version)] ++ unlessEmpty "project_name" s.projectName ++
      [("analysis", ofAnalysis s.analysis), ("output", ofOutput s.output), ("files", ofFiles s.files)])

end Document

namespace Settings

/-- The text of a settings file. -/
def render (s : Settings) : String := (Document.ofSettings s).write

/-- Settings from the text of a file, laid over the defaults. -/
def parse? (text : String) : Option Settings := do
  Overlay.settings (← Yaml.parse? text).view {}

end Settings

end ShaderCost
