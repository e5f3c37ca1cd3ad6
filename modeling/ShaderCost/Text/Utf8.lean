import ShaderCost.Text.Bytes

/-! # UTF-8 with stray bytes

A byte string reads as a list of glyphs: well-formed UTF-8 sequences give their character, and any
byte that begins none stands for itself. No byte is lost, so `Glyph.encode` gives the byte string
back; showing the text puts one replacement character for each stray byte.
-/

namespace ShaderCost

/-- One element of a byte string: a character, or a byte that belongs to no character. -/
inductive Glyph where
  | char (c : Char)
  | stray (b : UInt8)
  deriving DecidableEq, Repr, Inhabited

namespace Utf8

/-- A byte that goes on a multi-byte sequence. -/
def isTail (b : UInt8) : Bool := 0x80 ≤ b && b ≤ 0xbf

/-- A well-formed sequence of two bytes. -/
def isPair (a b : UInt8) : Bool := 0xc2 ≤ a && a ≤ 0xdf && isTail b

/-- A well-formed sequence of three bytes: neither overlong nor a surrogate. -/
def isTriple (a b c : UInt8) : Bool :=
  let low := if a == 0xe0 then 0xa0 else 0x80
  let high := if a == 0xed then 0x9f else 0xbf
  0xe0 ≤ a && a ≤ 0xef && low ≤ b && b ≤ high && isTail c

/-- A well-formed sequence of four bytes: neither overlong nor past U+10FFFF. -/
def isQuadruple (a b c d : UInt8) : Bool :=
  let low := if a == 0xf0 then 0x90 else 0x80
  let high := if a == 0xf4 then 0x8f else 0xbf
  0xf0 ≤ a && a ≤ 0xf4 && low ≤ b && b ≤ high && isTail c && isTail d

/-- The payload bits of a sequence's bytes, the first of which keeps its low `bits` bits. -/
def scalar (bits : Nat) (first : UInt8) (others : List UInt8) : Char :=
  Char.ofNat (others.foldl (fun n b => n * 64 + b.toNat % 64) (first.toNat % Nat.pow 2 bits))

/-- The glyph at the front of a non-empty byte string, and the number of its bytes. -/
def first (a : UInt8) (rest : Bytes) : Glyph × Nat :=
  if a < 0x80 then (.char (Byte.toChar a), 1)
  else
    match rest with
    | b :: c :: d :: _ =>
      if isPair a b then (.char (scalar 5 a [b]), 2)
      else if isTriple a b c then (.char (scalar 4 a [b, c]), 3)
      else if isQuadruple a b c d then (.char (scalar 3 a [b, c, d]), 4)
      else (.stray a, 1)
    | [b, c] =>
      if isPair a b then (.char (scalar 5 a [b]), 2)
      else if isTriple a b c then (.char (scalar 4 a [b, c]), 3)
      else (.stray a, 1)
    | [b] => if isPair a b then (.char (scalar 5 a [b]), 2) else (.stray a, 1)
    | [] => (.stray a, 1)

/-- `glyphs` with a count of bytes still to pass over: those of the glyph just read. -/
def glyphsFrom (acc : List Glyph) : Nat → Bytes → List Glyph
  | _, [] => acc.reverse
  | skip + 1, _ :: rest => glyphsFrom acc skip rest
  | 0, a :: rest =>
    let (glyph, size) := first a rest
    glyphsFrom (glyph :: acc) (size - 1) rest

/-- The glyphs of a byte string, from left to right. -/
def glyphs (b : Bytes) : List Glyph := glyphsFrom [] 0 b

end Utf8

namespace Glyph

/-- The bytes a glyph was read from. -/
def encode : Glyph → Bytes
  | char c => String.utf8EncodeChar c
  | stray b => [b]

/-- The character shown for a glyph. -/
def shown : Glyph → Char
  | char c => c
  | stray _ => Char.ofNat 0xfffd

end Glyph

namespace Bytes

/-- The text of a byte string, with a replacement character for each stray byte. -/
def toText (b : Bytes) : String := String.ofList ((Utf8.glyphs b).map Glyph.shown)

/-- The text of a byte string that is valid UTF-8. -/
def toString? (b : Bytes) : Option String :=
  let glyphs := Utf8.glyphs b
  if glyphs.all fun g => match g with | .char _ => true | .stray _ => false then
    some (String.ofList (glyphs.map Glyph.shown))
  else none

end Bytes

end ShaderCost
