/-! # Characters of settings files

Lines end with a newline, a carriage return, both, a next-line character, a line separator or a
paragraph separator. The last two are kept apart; all others are one newline before anything else is
looked at.
-/

namespace ShaderCost

namespace Yaml

def isBlank (c : Char) : Bool := c == ' ' || c == '\t'

/-- The end of a line. -/
def isBreak (c : Char) : Bool := c == '\n' || c.toNat == 0x2028 || c.toNat == 0x2029

/-- What stands between words: blanks and line ends. -/
def isGap (c : Char) : Bool := isBlank c || isBreak c

/-- At a blank, at the end of a line or at the end of the text. -/
def atGap : List Char → Bool
  | [] => true
  | c :: _ => isGap c

/-- At the end of a line or at the end of the text. -/
def atLineEnd : List Char → Bool
  | [] => true
  | c :: _ => isBreak c

/-- The characters of names of anchors and of tag handles. -/
def isNameChar (c : Char) : Bool := c.isAlphanum || c == '_' || c == '-'

/-- The characters that a document may hold. -/
def isAllowed (c : Char) : Bool :=
  let n := c.toNat
  n == 0x09 || n == 0x0a || n == 0x0d || (0x20 ≤ n && n ≤ 0x7e) || n == 0x85 ||
    (0xa0 ≤ n && n ≤ 0xd7ff) || (0xe000 ≤ n && n ≤ 0xfffd) || 0x10000 ≤ n

/-- The line ends that are not kept apart as one newline each. -/
def unifyLineEnds : List Char → List Char
  | '\r' :: '\n' :: rest => '\n' :: unifyLineEnds rest
  | c :: rest => (if c == '\r' || c.toNat == 0x85 then '\n' else c) :: unifyLineEnds rest
  | [] => []

/-- The characters of a document without a byte order mark in front, if all of them are allowed. -/
def characters? (text : String) : Option (List Char) :=
  let chars := match text.toList with
    | c :: rest => if c.toNat == 0xfeff then rest else c :: rest
    | [] => []
  if chars.all isAllowed then some (unifyLineEnds chars) else none

end Yaml

end ShaderCost
