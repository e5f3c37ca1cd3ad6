import ShaderCost.Text.Quoted
import ShaderCost.Yaml.Basic
import ShaderCost.Yaml.Character

/-! # Writing documents

A document is written in blocks, indented by four blanks. A text of several lines is written as a
literal block. Any other is written plainly where it reads back as the same text; one that would be
taken for something else is put in double quotes, and one that plain writing cannot hold in single
quotes. Characters that do not show are escaped, which only double quotes allow.
-/

namespace ShaderCost

namespace Yaml

/-! ## Styles of texts -/

/-- Groups of a number in base sixty: a colon and up to two digits below sixty each. -/
def isSexagesimalTail : Nat → List Char → Bool
  | 0, _ => false
  | _, [] => true
  | _, '.' :: places => places.all fun c => c.isDigit || c == '_'
  | fuel + 1, ':' :: a :: b :: rest =>
    if a.isDigit && b.isDigit then '0' ≤ a && a ≤ '5' && isSexagesimalTail fuel rest
    else a.isDigit && isSexagesimalTail fuel (b :: rest)
  | _, [':', a] => a.isDigit
  | _, _ => false

/-- A text that older readers take for a number in base sixty. -/
def isSexagesimal (text : List Char) : Bool :=
  let rest := match text with
    | '-' :: rest => rest
    | '+' :: rest => rest
    | _ => text
  let tail := rest.dropWhile fun c => c.isDigit || c == '_'
  (rest.head?.map Char.isDigit).getD false && tail.head? == some ':' &&
    isSexagesimalTail (tail.length + 1) tail

/-- Written plainly, the text would be taken for something else. -/
def isMisread (text : String) : Bool :=
  meaning text != .text || (boolOfWord? text).isSome || isSexagesimal text.toList

/-- A character that can be written as it is, in a line or at its end. -/
def isShown (c : Char) : Bool :=
  let n := c.toNat
  n == 0x0a || (0x20 ≤ n && n ≤ 0x7e) || (0xa0 ≤ n && n ≤ 0xd7ff) ||
    (0xe000 ≤ n && n ≤ 0xfffd && n != 0xfeff)

/-- Marks that no plain text starts with. -/
def leadingMarks : List Char := "#,[]\x7b\x7d&*!|>'\"%@\x60".toList

/-- A mark that plain writing cannot hold at its place, given what stands before and after it. -/
def isMark (first : Bool) (before after : Option Char) (c : Char) : Bool :=
  let gapAfter := after.isNone || after == some ' ' || after == some '\t'
  let gapBefore := first || before == some ' ' || before == some '\t'
  if first && leadingMarks.contains c then true
  else if c == ':' then gapAfter
  else if first && (c == '?' || c == '-') then gapAfter
  else c == '#' && gapBefore

/-- A mark stands somewhere in the text. -/
def hasMark (before : Option Char) : List Char → Bool
  | [] => false
  | c :: rest => isMark before.isNone before rest.head? c || hasMark (some c) rest

/-- Somewhere in the text a character that meets the first test stands before one that meets the
second. -/
def hasPair (p q : Char → Bool) : List Char → Bool
  | a :: b :: rest => (p a && q b) || hasPair p q (b :: rest)
  | _ => false

/-- A blank stands before a line end; only double quotes can hold it. -/
def endsLineWithBlank (text : List Char) : Bool := hasPair (· == ' ') isBreak text

/-- A literal block can hold the text. -/
def fitsLiteral (text : List Char) : Bool :=
  text.getLast? != some ' ' && !endsLineWithBlank text && text.all fun c => isShown c || c == '\t'

/-- Single quotes can hold the text. -/
def fitsSingle (text : List Char) : Bool :=
  text.all isShown && !endsLineWithBlank text && !hasPair isBreak (· == ' ') text

/-- Plain writing can hold the text. -/
def fitsPlain (text : List Char) : Bool :=
  fitsSingle text && text.head? != some ' ' && text.getLast? != some ' ' && !text.any isBreak &&
    text.take 3 != "---".toList && text.take 3 != "...".toList && !hasMark none text

/-- How a text is written. -/
def styleOf (text : String) : ScalarStyle :=
  let chars := text.toList
  if chars.contains '\n' then if fitsLiteral chars then .literal else .double
  else if isMisread text then .double
  else if fitsPlain chars then .plain
  else if fitsSingle chars then .single
  else .double

/-! ## Scalars -/

/-- Blanks in front of a line. -/
def margin (indent : Nat) : String := String.ofList (List.replicate indent ' ')

/-- The escapes that have a name. -/
def escapeNames : List (Nat × Char) :=
  [(0, '0'), (7, 'a'), (8, 'b'), (9, 't'), (10, 'n'), (11, 'v'), (12, 'f'), (13, 'r'), (27, 'e'),
    (34, '"'), (92, '\\'), (0x85, 'N'), (0xa0, '_'), (0x2028, 'L'), (0x2029, 'P')]

/-- The escape of a character between double quotes. -/
def escapeChar (c : Char) : String :=
  let n := c.toNat
  let digits := fun (width : Nat) => (Quoted.hex width n).toUpper
  match escapeNames.lookup n with
  | some name => "\\" ++ name.toString
  | none =>
    if n ≤ 0xff then "\\x" ++ digits 2
    else if n ≤ 0xffff then "\\u" ++ digits 4
    else "\\U" ++ digits 8

/-- A character has to be escaped between double quotes. -/
def isEscaped (c : Char) : Bool := !isShown c || isBreak c || c == '"' || c == '\\'

/-- A text between double quotes. One that starts with a byte order mark is escaped throughout, so that
no reader takes the mark for the start of a file. -/
def writeDouble (text : List Char) : String :=
  let all := text.head?.map Char.toNat == some 0xfeff
  "\"" ++ String.join (text.map fun c => if all || isEscaped c then escapeChar c else c.toString) ++ "\""

/-- The characters of a text with a margin in front of each line that is not empty. The flag tells
whether a line starts here. -/
def withMargins (indent : Nat) (fresh : Bool) : List Char → String
  | [] => ""
  | c :: rest =>
    let blanks := if fresh && !isBreak c then margin indent else ""
    blanks ++ c.toString ++ withMargins indent (isBreak c) rest

/-- A text between single quotes, where a quote is written twice. -/
def writeSingle (indent : Nat) (text : List Char) : String :=
  let doubled := text.flatMap fun c => if c == '\'' then [c, c] else [c]
  "'" ++ withMargins indent false doubled ++ "'"

/-- What the header of a literal block says about the end of a text: that no line ends there, or that
empty lines end it. -/
def chompMark (text : List Char) : String :=
  match text.reverse with
  | [] => "-"
  | [c] => if isBreak c then "+" else "-"
  | c :: before :: _ => if !isBreak c then "-" else if isBreak before then "+" else ""

/-- A text as a literal block. The header tells the indentation where the text itself starts with a
blank or an empty line; such a line ends the header. -/
def writeLiteral (indent : Nat) (text : List Char) : String :=
  let startsEmpty := (text.head?.map isBreak).getD false
  let hint := if startsEmpty || text.head? == some ' ' then "4" else ""
  "|" ++ hint ++ chompMark text ++ (if startsEmpty then "" else "\n") ++ withMargins indent true text

/-- A scalar as it is written, with the margin of its later lines. -/
def writeText (indent : Nat) (style : ScalarStyle) (text : String) : String :=
  match style with
  | .plain => text
  | .single => writeSingle indent text.toList
  | .literal => writeLiteral indent text.toList
  | .double | .folded => writeDouble text.toList

def writeScalar (indent : Nat) (s : Scalar) : String :=
  (s.tag.map (· ++ " ")).getD "" ++ writeText indent s.style s.text

/-- A text up to the end of its line, which it may hold itself. -/
def endLine (text : String) : String :=
  if (text.toList.getLast?.map isBreak).getD false then text else text ++ "\n"

/-! ## Blocks -/

mutual

/-- A value behind a mark, from the blank after it to the end of its last line. Blocks inside of it are
indented by `indent`, and the later lines of a scalar by `inner`. -/
def writeValue (indent inner : Nat) : Yaml → String
  | .scalar s => endLine (" " ++ writeScalar inner s)
  | .reference name _ _ => " *" ++ name ++ "\n"
  | .list [] => " []\n"
  | .list items => "\n" ++ writeItems indent items
  | .mapping [] => " \x7b\x7d\n"
  | .mapping entries => "\n" ++ writeEntries indent entries

def writeItems (indent : Nat) : List Yaml → String
  | [] => ""
  | item :: rest =>
    margin indent ++ "-" ++ writeValue (indent + 4) (indent + 2) item ++ writeItems indent rest

def writeEntries (indent : Nat) : List (Yaml × Yaml) → String
  | [] => ""
  | (key, value) :: rest =>
    let mark := match key with
      | .scalar s => writeScalar (indent + 4) s
      | _ => "?" ++ writeValue (indent + 4) (indent + 4) key ++ margin indent
    margin indent ++ mark ++ ":" ++ writeValue (indent + 4) (indent + 4) value ++
      writeEntries indent rest

end

/-- The text of a document. -/
def write : Yaml → String
  | .mapping (entry :: rest) => writeEntries 0 (entry :: rest)
  | .list (item :: rest) => writeItems 0 (item :: rest)
  | value => String.ofList ((writeValue 0 4 value).toList.drop 1)

end Yaml

end ShaderCost
