import ShaderCost.Text.Utf8

/-! # White space of texts

Directive texts and shown source lines are trimmed and cut into words at the white space of Unicode,
which is wider than the blanks that separate tokens: it holds the no-break space and the spaces of
various widths, and stray bytes never belong to it.
-/

namespace ShaderCost

/-- The characters with the Unicode property White_Space. -/
def isWhiteSpace (c : Char) : Bool :=
  let n := c.toNat
  (9 ≤ n && n ≤ 13) || n == 0x20 || n == 0x85 || n == 0xa0 || n == 0x1680 ||
    (0x2000 ≤ n && n ≤ 0x200a) || n == 0x2028 || n == 0x2029 || n == 0x202f || n == 0x205f ||
    n == 0x3000

/-- White space among glyphs. -/
def Glyph.isWhiteSpace : Glyph → Bool
  | .char c => ShaderCost.isWhiteSpace c
  | .stray _ => false

namespace Bytes

/-- The bytes without the white space at both ends. -/
def trim (b : Bytes) : Bytes :=
  let glyphs := (Utf8.glyphs b).dropWhile Glyph.isWhiteSpace
  ((glyphs.reverse.dropWhile Glyph.isWhiteSpace).reverse).flatMap Glyph.encode

/-- The maximal runs of bytes free of white space, from left to right. -/
def words (b : Bytes) : List Bytes :=
  let step := fun (g : Glyph) (acc : Bytes × List Bytes) =>
    if g.isWhiteSpace then ([], if acc.1.isEmpty then acc.2 else acc.1 :: acc.2)
    else (g.encode ++ acc.1, acc.2)
  let (last, others) := (Utf8.glyphs b).foldr step ([], [])
  if last.isEmpty then others else last :: others

end Bytes

end ShaderCost
