import ShaderCost.Text.Printable

/-! # Quoted text

Messages show a text that came from outside between double quotes, so that its ends and its
invisible characters can be seen: graphic characters as they are, the usual letter escapes, and a
hexadecimal escape for the rest, as wide as the character needs.
-/

namespace ShaderCost.Quoted

/-- `n` in lower-case hexadecimal, with leading zeros up to `width` digits. -/
def hex (width n : Nat) : String :=
  let digits := Nat.toDigits 16 n
  String.ofList (List.replicate (width - digits.length) '0' ++ digits)

/-- A character inside the quotes. -/
def escape (c : Char) : String :=
  if c == '"' then "\\\""
  else if c == '\\' then "\\\\"
  else if isPrintable c then c.toString
  else
    match c.toNat with
    | 7 => "\\a"
    | 8 => "\\b"
    | 9 => "\\t"
    | 10 => "\\n"
    | 11 => "\\v"
    | 12 => "\\f"
    | 13 => "\\r"
    | n =>
      if n < 0x20 || n == 0x7f then "\\x" ++ hex 2 n
      else if n < 0x10000 then "\\u" ++ hex 4 n
      else "\\U" ++ hex 8 n

/-- The text between double quotes, with escapes. -/
def quote (s : String) : String :=
  "\"" ++ String.join (s.toList.map escape) ++ "\""

end ShaderCost.Quoted
