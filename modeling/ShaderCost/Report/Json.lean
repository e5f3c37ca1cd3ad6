import ShaderCost.Report.Summary

/-! # The report for programs

JSON text, one value to a line, indented by two blanks. A value is written as a function of the depth
at which it stands. What is missing is `null`, what is empty is `[]` or an empty pair of braces, and
some fields are left out where they say nothing.
-/

namespace ShaderCost

namespace JsonReport

/-- A value, given the depth at which it stands. -/
abbrev Value := Nat → Bytes

/-- A character of a string. Those with a meaning in markup are escaped like control characters. -/
def escapeChar (c : Char) : String :=
  match c with
  | '"' => "\\\""
  | '\\' => "\\\\"
  | '\n' => "\\n"
  | '\r' => "\\r"
  | '\t' => "\\t"
  | '\x08' => "\\b"
  | '\x0c' => "\\f"
  | _ =>
    let n := c.toNat
    if n < 0x20 || c == '<' || c == '>' || c == '&' || n == 0x2028 || n == 0x2029 then
      "\\u" ++ Quoted.hex 4 n
    else c.toString

/-- A glyph of a string; a stray byte becomes the escape of the replacement character. -/
def escapeGlyph : Glyph → String
  | .char c => escapeChar c
  | .stray _ => "\\ufffd"

def ofBytes (text : Bytes) : Value := fun _ =>
  "\"" ++ String.join ((Utf8.glyphs text).map escapeGlyph) ++ "\""

def ofString (text : String) : Value := ofBytes text

def ofInt (n : Int) : Value := fun _ => toString n

def ofCost (n : Int64) : Value := ofInt n.toInt

def ofBool (b : Bool) : Value := fun _ => if b then "true" else "false"

def null : Value := fun _ => "null"

/-- A new line at a depth. -/
def newLine (depth : Nat) : Bytes := Byte.newline :: List.replicate (2 * depth) Byte.space

/-- Items on lines of their own between two marks, which stand together when there are none. -/
def block (opening closing : String) (items : List Value) : Value := fun depth =>
  if items.isEmpty then opening ++ closing
  else
    let inside := items.map fun item => newLine (depth + 1) ++ item (depth + 1)
    Bytes.ofString opening ++ Bytes.join (Bytes.ofString ",") inside ++ newLine depth ++
      Bytes.ofString closing

def array (items : List Value) : Value := block "[" "]" items

def object (fields : List (String × Value)) : Value :=
  block "\x7b" "\x7d" (fields.map fun (key, value) => fun depth =>
    ofString key depth ++ Bytes.ofString ": " ++ value depth)

/-- A field that is left out unless it says something. -/
def fieldIf (present : Bool) (key : String) (value : Value) : List (String × Value) :=
  if present then [(key, value)] else []

/-! ## Results -/

/-- Costs by line; the lines are in the order of their texts. -/
def ofLines (lines : LineTable Int64) : Value :=
  let entries := lines.toList.map fun (line, cost) => (toString line, cost)
  object ((entries.mergeSort (·.1 ≤ ·.1)).map fun (line, cost) => (line, ofCost cost))

def ofFunction (f : FunctionSummary) : Value :=
  object <|
    [("key", ofString f.key), ("name", ofString f.name)] ++
    fieldIf (f.line != 0) "line" (ofInt f.line) ++
    [("defined", ofBool f.defined), ("raw_cost", ofCost f.rawCost), ("cost", ofCost f.cost),
      ("invocations", ofCost f.invocations), ("resolved", ofBool f.resolved),
      ("call_sites", ofInt f.callSites)]

def ofLoop (l : LoopSummary) : Value :=
  object
    [("line", ofInt l.line), ("bound", ofInt l.bound), ("bound_type", ofString l.boundType),
      ("depth", ofInt l.depth), ("multiplier", ofCost l.multiplier)]

def ofHotLine (hot : HotLine) : Value :=
  object
    [("line", ofInt hot.line), ("cost", ofCost hot.cost), ("heat", ofString hot.heat.name),
      ("source", ofBytes hot.source)]

def ofResult : FileResult → Value
  | .failed file error =>
    object
      [("file", ofString file), ("line_costs", null), ("total_cost", ofInt 0),
        ("max_cost", ofInt 0), ("functions", null), ("hot_lines", null), ("error", ofBytes error)]
  | .analysed s =>
    let functions := match s.functions with
      | some functions => array (functions.map ofFunction)
      | none => null
    object <|
      [("file", ofString s.file), ("line_costs", ofLines s.lines), ("total_cost", ofCost s.total),
        ("max_cost", ofCost s.largest), ("functions", functions)] ++
      fieldIf (!s.loops.isEmpty) "loops" (array (s.loops.map ofLoop)) ++
      [("hot_lines", array (s.hotLines.map ofHotLine))]

/-- The whole report on a batch that took the given time. -/
def report (batch : Batch) (duration : String) : Bytes :=
  object
    [("files_analyzed", array (batch.files.map ofString)),
      ("results", array (batch.results.map ofResult)),
      ("failures", ofInt batch.failures),
      ("total_cost", ofCost batch.total),
      ("analysis_duration", ofString duration)] 0

end JsonReport

end ShaderCost
