import ShaderCost.Yaml.Scalar
import ShaderCost.Yaml.Token.Cursor

/-! # Texts of block scalars

A block scalar is a run of lines behind a header. Its indentation is given by the header or by the
first line that is not empty, and is no part of the text. A literal block keeps its line ends; a
folded one puts a blank for a newline between two lines that do not start with a blank. The header
also says what becomes of the line ends behind the last line.
-/

namespace ShaderCost

namespace Yaml

/-- What becomes of the line ends behind the last line of a block. -/
inductive Chomp where
  /-- One is kept. -/
  | clip
  | strip
  | keep
  deriving DecidableEq, Repr, Inhabited

/-- The header of a block: what becomes of the last line ends, and by how much the block is indented,
if that is given. -/
structure BlockHeader where
  chomp : Chomp := .clip
  increment : Option Nat := none
  deriving DecidableEq, Repr, Inhabited

namespace BlockHeader

def chomp? (c : Char) : Option Chomp :=
  if c == '+' then some .keep else if c == '-' then some .strip else none

def increment? (c : Char) : Option Nat := if c.isDigit then some (digitValue c) else none

/-- Adds an indicator to a header, unless there is one of its kind or the character is none. -/
def add? (h : BlockHeader) (c : Char) : Option BlockHeader :=
  match chomp? c, increment? c with
  | some chomp, _ => if h.chomp == .clip then some { h with chomp } else none
  | none, some n => if h.increment.isNone then some { h with increment := some n } else none
  | none, none => none

/-- The header in front, and its length. -/
def read (text : List Char) : BlockHeader × Nat :=
  match text with
  | a :: rest =>
    match add? {} a with
    | none => ({}, 0)
    | some one =>
      match rest.head?.bind one.add? with
      | none => (one, 1)
      | some two => (two, 2)
  | [] => ({}, 0)

end BlockHeader

/-- Passes over empty lines and the indentation of the line after them, which ends at `indent` where
that is known. Gives the line ends passed and the widest indentation; a tab is none. -/
def blockGap (indent : Option Nat) : Nat → Cursor → Option (List Char × Nat × Cursor)
  | 0, c => some ([], c.column, c)
  | fuel + 1, c =>
    let spaces := (c.rest.takeWhile (· == ' ')).length
    let c := c.skip (match indent with
      | some n => min spaces (n - c.column)
      | none => spaces)
    let inMargin := match indent with
      | some n => c.column < n
      | none => true
    match c.rest with
    | x :: _ =>
      if inMargin && x == '\t' then none
      else if isBreak x then do
        let (breaks, widest, last) ← blockGap indent fuel c.next
        return (x :: breaks, max c.column widest, last)
      else some ([], c.column, c)
    | [] => some ([], c.column, c)

/-- The lines of a block from one that is not empty on. -/
structure BlockLines where
  /-- The text up to the last character that is no line end. -/
  text : List Char
  /-- The end of the last line. -/
  lastBreak : List Char
  /-- The empty lines behind it. -/
  emptyLines : List Char
  next : Cursor

/-- What stands between two lines of a block, given the end of the first and the empty lines between
them. -/
def joinLines (fold : Bool) (lastBreak emptyLines : List Char) : List Char :=
  if fold && lastBreak == ['\n'] then if emptyLines.isEmpty then [' '] else emptyLines
  else lastBreak ++ emptyLines

/-- Reads the lines of a block. The text so far ends with a line end and empty lines; the flag tells
whether its last line started with a blank. -/
def blockLines (folded : Bool) (indent : Nat) :
    Nat → List Char → List Char → Bool → Cursor → Option BlockLines
  | 0, _, _, _, _ => none
  | fuel + 1, lastBreak, emptyLines, afterBlank, c =>
    match c.rest with
    | [] => some { text := [], lastBreak, emptyLines, next := c }
    | x :: _ =>
      if c.column != indent then some { text := [], lastBreak, emptyLines, next := c }
      else do
        let line := c.rest.takeWhile fun x => !isBreak x
        let end_ := c.skip line.length
        let (breaks, _, next) ← blockGap (some indent) (fuel + 1) end_.next
        let more ← blockLines folded indent fuel (end_.rest.take 1) breaks (isBlank x) next
        let joint := joinLines (folded && !afterBlank && !isBlank x) lastBreak emptyLines
        return { more with text := joint ++ line ++ more.text }

/-- The text of a block scalar, and what follows it. The cursor stands behind the mark of the block,
and `least` is the least column of what belongs to the block around it. -/
def block (folded : Bool) (least : Nat) (c : Cursor) : Option (String × Cursor) := do
  let (header, length) := BlockHeader.read c.rest
  if header.increment == some 0 then none
  let c := (c.skip length).skipWhile isBlank
  let c := if c.rest.head? == some '#' then c.skipLine else c
  if !atLineEnd c.rest then none
  let given := header.increment.map (least - 1 + ·)
  let (breaks, widest, first) ← blockGap given (c.rest.length + 1) c.next
  let indent := given.getD (max widest (max least 1))
  let lines ← blockLines folded indent (c.rest.length + 1) [] breaks false first
  let tail := match header.chomp with
    | .clip => lines.lastBreak
    | .strip => []
    | .keep => lines.lastBreak ++ lines.emptyLines
  return (String.ofList (lines.text ++ tail), lines.next)

end Yaml

end ShaderCost
