/-! # Byte strings

Shader sources are byte strings: they need not be valid UTF-8, and every offset and column counts
bytes. `Bytes` is a plain list, so that scanning is recursion on the input and "nothing is lost" is
an equation between lists. Text that is known to be valid (file names, messages made of names) stays
a `String` and enters this world through `Bytes.ofString`.
-/

namespace ShaderCost

/-- A string of bytes. -/
abbrev Bytes := List UInt8

namespace Byte

abbrev tab : UInt8 := 9
abbrev newline : UInt8 := 10
abbrev verticalTab : UInt8 := 11
abbrev formFeed : UInt8 := 12
abbrev carriageReturn : UInt8 := 13
abbrev space : UInt8 := 32
abbrev hash : UInt8 := 35
abbrev star : UInt8 := 42
abbrev plus : UInt8 := 43
abbrev minus : UInt8 := 45
abbrev dot : UInt8 := 46
abbrev slash : UInt8 := 47
abbrev zero : UInt8 := 48
abbrev backslash : UInt8 := 92
abbrev underscore : UInt8 := 95

/-- The byte of an ASCII character. -/
def ofChar (c : Char) : UInt8 := c.toNat.toUInt8

/-- The character whose code point is the byte. -/
def toChar (b : UInt8) : Char := Char.ofNat b.toNat

def isDigit (b : UInt8) : Bool := 48 ≤ b && b ≤ 57

def isHexDigit (b : UInt8) : Bool :=
  isDigit b || (97 ≤ b && b ≤ 102) || (65 ≤ b && b ≤ 70)

/-- A byte that can begin a name: an ASCII letter or an underscore. -/
def isNameStart (b : UInt8) : Bool :=
  (97 ≤ b && b ≤ 122) || (65 ≤ b && b ≤ 90) || b == underscore

/-- A byte that can go on a name. -/
def isNameByte (b : UInt8) : Bool := isNameStart b || isDigit b

/-- The blanks that separate tokens on one line. -/
def isBlank (b : UInt8) : Bool :=
  b == space || b == tab || b == carriageReturn || b == formFeed || b == verticalTab

end Byte

namespace Bytes

/-- The UTF-8 encoding of a text. -/
def ofString (s : String) : Bytes := s.toList.flatMap String.utf8EncodeChar

instance : Coe String Bytes := ⟨ofString⟩

theorem ofString_append (s t : String) : ofString (s ++ t) = ofString s ++ ofString t := by
  unfold ofString
  rw [String.toList_append, List.flatMap_append]

/-- Each byte read as the character with its code; on ASCII bytes this is their text. -/
def toAscii (b : Bytes) : String := String.ofList (b.map Byte.toChar)

/-- The bytes before the first place where `mark` stands, if there is one. -/
def before? (mark : Bytes) : Bytes → Option Bytes
  | [] => if mark.isEmpty then some [] else none
  | b :: rest =>
    if mark.isPrefixOf (b :: rest) then some [] else (before? mark rest).map (b :: ·)

/-- Cuts at every occurrence of `mark`; the pieces are one more than the marks. -/
def splitAt (mark : UInt8) (b : Bytes) : List Bytes :=
  let step := fun (b : UInt8) (acc : Bytes × List Bytes) =>
    if b == mark then ([], acc.1 :: acc.2) else (b :: acc.1, acc.2)
  let (first, others) := b.foldr step ([], [])
  first :: others

/-- The pieces with `separator` between them. -/
def join (separator : Bytes) (parts : List Bytes) : Bytes := separator.intercalate parts

/-- The bytes with a newline after each line of `lines`. -/
def unlines (lines : List Bytes) : Bytes := lines.flatMap (· ++ [Byte.newline])

end Bytes

end ShaderCost
