import ShaderCost.Text.Utf8

/-! # Base 64

Bytes written as text, four characters for three bytes. Equals signs fill the last group up, and line
ends may stand anywhere.
-/

namespace ShaderCost.Base64

/-- The six bits that a character stands for. -/
def bits? (c : Char) : Option Nat :=
  if 'A' ≤ c && c ≤ 'Z' then some (c.toNat - 'A'.toNat)
  else if 'a' ≤ c && c ≤ 'z' then some (c.toNat - 'a'.toNat + 26)
  else if c.isDigit then some (c.toNat - '0'.toNat + 52)
  else if c == '+' then some 62
  else if c == '/' then some 63
  else none

/-- The bytes of groups of four characters. Bits that fill no byte are passed over. -/
def groups? : List Char → Option Bytes
  | [] => some []
  | [a, b, '=', '='] => do
    let n := (← bits? a) * 64 + (← bits? b)
    return [(n / 16).toUInt8]
  | [a, b, c, '='] => do
    let n := ((← bits? a) * 64 + (← bits? b)) * 64 + (← bits? c)
    return [(n / 1024).toUInt8, (n / 4).toUInt8]
  | a :: b :: c :: d :: rest => do
    let n := (((← bits? a) * 64 + (← bits? b)) * 64 + (← bits? c)) * 64 + (← bits? d)
    return (n / 65536).toUInt8 :: (n / 256).toUInt8 :: n.toUInt8 :: (← groups? rest)
  | _ => none

/-- The bytes that a text stands for. -/
def decode? (text : String) : Option Bytes :=
  groups? (text.toList.filter fun c => c != '\n' && c != '\r')

end ShaderCost.Base64
