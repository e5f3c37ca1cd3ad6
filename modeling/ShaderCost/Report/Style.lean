import ShaderCost.Report.Heat
import ShaderCost.Text.Bytes

/-! # Colours on a terminal

A style is a pair of control sequences, one that turns it on and one that turns it off again. Styles
are named for what they set off.
-/

namespace ShaderCost

structure Style where
  opening : String
  closing : String
  deriving DecidableEq, Repr, Inhabited

namespace Style

/-- The style with the given attributes and those that undo it. -/
def sequence (on off : String) : Style := ⟨"\x1b[" ++ on ++ "m", "\x1b[" ++ off ++ "m"⟩

/-- Titles and notes. -/
def note : Style := sequence "36" "0"

/-- The rule below the title. -/
def rule : Style := sequence "37" "0"

def failure : Style := sequence "31" "0"

def success : Style := sequence "32" "0"

def caution : Style := sequence "33" "0"

/-- The heading of a file. -/
def heading : Style := sequence "36;1" "0;22"

/-- The style of a heat level; what is cold has none. -/
def ofHeat : HeatLevel → Option Style
  | .cold => none
  | .warm => some (sequence "43;30" "0;0")
  | .hot => some (sequence "101;30" "0;0")
  | .critical => some (sequence "41;37;1" "0;0;22")

/-- The text in its style, or plain where there is no colour. -/
def paint (color : Bool) (style : Style) (text : Bytes) : Bytes :=
  if color then Bytes.ofString style.opening ++ text ++ Bytes.ofString style.closing else text

/-- The text in the style of a heat level. -/
def paintHeat (color : Bool) (level : HeatLevel) (text : Bytes) : Bytes :=
  match ofHeat level with
  | some style => paint color style text
  | none => text

end Style

end ShaderCost
