import ShaderCost.Yaml.Character

/-! # Places in a text

A cursor moves by passing over characters one at a time, so its line and column are always those of
the characters it has passed.
-/

namespace ShaderCost

namespace Yaml

/-- What is left to read, and where it starts. -/
structure Cursor where
  rest : List Char
  /-- The number of characters passed. -/
  index : Nat := 0
  line : Nat := 0
  column : Nat := 0
  /-- A line has ended since the last character that is no blank. -/
  freshLine : Bool := false
  deriving DecidableEq, Repr, Inhabited

namespace Cursor

/-- Passes over one character. -/
def next (c : Cursor) : Cursor :=
  match c.rest with
  | [] => c
  | x :: rest =>
    if isBreak x then
      { rest, index := c.index + 1, line := c.line + 1, column := 0, freshLine := true }
    else
      { c with
        rest
        index := c.index + 1
        column := c.column + 1
        freshLine := c.freshLine && isBlank x }

/-- Passes over a number of characters. -/
def skip (c : Cursor) : Nat → Cursor
  | 0 => c
  | n + 1 => c.next.skip n

/-- Passes over the characters in front that meet a test. -/
def skipWhile (c : Cursor) (p : Char → Bool) : Cursor := c.skip (c.rest.takeWhile p).length

/-- Passes over what is left of the line. -/
def skipLine (c : Cursor) : Cursor := c.skipWhile fun x => !isBreak x

/-- The marks between documents stand alone at the start of a line. -/
def atDocumentMark (c : Cursor) : Bool :=
  c.column == 0 &&
    (("---".toList.isPrefixOf c.rest || "...".toList.isPrefixOf c.rest) && atGap (c.rest.drop 3))

end Cursor

end Yaml

end ShaderCost
