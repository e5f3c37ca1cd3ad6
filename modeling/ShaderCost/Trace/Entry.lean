import ShaderCost.Text.Blank
import ShaderCost.Text.Quoted

/-! # Trace lines

What a run tells about its own progress. An entry is one line of `key=value` pairs, the level and the
message among them; a value that could be misread is quoted.
-/

namespace ShaderCost

inductive TraceLevel where
  | debug | error
  deriving DecidableEq, Repr, Inhabited

def TraceLevel.name : TraceLevel → String
  | debug => "DEBUG"
  | error => "ERROR"

structure TraceEntry where
  level : TraceLevel
  message : String
  fields : List (String × Bytes) := []
  deriving DecidableEq, Repr, Inhabited

namespace TraceEntry

/-- A glyph for whose sake a value is quoted: a blank, a control character, an equals sign, a quote,
and whatever does not show. A backslash is not one. -/
def isAmbiguous : Glyph → Bool
  | .char c =>
    if c.toNat < 0x80 then c.toNat ≤ 0x20 || c == '=' || c == '"'
    else c.toNat == 0xfffd || isWhiteSpace c || !isPrintable c
  | .stray _ => true

/-- A glyph between quotes; a stray byte is written by its number. -/
def escape : Glyph → String
  | .char c => Quoted.escape c
  | .stray b => "\\x" ++ Quoted.hex 2 b.toNat

/-- A value as it stands, or between quotes when it is empty or could be misread. -/
def value (text : Bytes) : Bytes :=
  let glyphs := Utf8.glyphs text
  if glyphs.isEmpty || glyphs.any isAmbiguous then
    "\"" ++ String.join (glyphs.map escape) ++ "\""
  else text

/-- The line of an entry, without its end. -/
def text (e : TraceEntry) : Bytes :=
  let fields :=
    ("level", (e.level.name : Bytes)) :: ("msg", (e.message : Bytes)) :: e.fields
  Bytes.join (Bytes.ofString " ") (fields.map fun (key, v) => Bytes.ofString (key ++ "=") ++ value v)

end TraceEntry

end ShaderCost
