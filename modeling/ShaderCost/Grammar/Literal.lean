import ShaderCost.Token.Basic
import ShaderCost.Tree.Node

/-! # Literals

Integer literals denote 32-bit words: hexadecimal after `0x`, octal after another leading zero, and
decimal otherwise. A word that is read as signed keeps its bit pattern, so the upper half of the range
is negative. Float literals are rounded to the nearest double and must not overflow.
-/

namespace ShaderCost.Literal

/-- Why a lexeme has no value. -/
inductive Fault where
  | tooBig
  | malformed
  deriving DecidableEq, Repr, Inhabited

/-- The value of a digit in any base up to sixteen. -/
def digit? (c : Char) : Option Nat :=
  if '0' ≤ c && c ≤ '9' then some (c.toNat - '0'.toNat)
  else if 'a' ≤ c && c ≤ 'f' then some (c.toNat - 'a'.toNat + 10)
  else if 'A' ≤ c && c ≤ 'F' then some (c.toNat - 'A'.toNat + 10)
  else none

/-- Reads digits from left to right behind those that gave `value`, and stops at the first that is
none of the base or takes the value out of 32 bits. -/
def digits (base : Nat) : Nat → List Char → Except Fault Nat
  | value, [] => .ok value
  | value, c :: rest =>
    match digit? c with
    | none => .error .malformed
    | some d =>
      if d ≥ base then .error .malformed
      else if value * base + d ≥ 0x100000000 then .error .tooBig
      else digits base (value * base + d) rest

/-- The word an integer literal denotes. -/
def word (text : String) : Except Fault Nat :=
  match text.toList with
  | '0' :: 'x' :: c :: rest => digits 16 0 (c :: rest)
  | '0' :: 'X' :: c :: rest => digits 16 0 (c :: rest)
  | '0' :: rest => digits 8 0 rest
  | cs => digits 10 0 cs

/-- A word as a signed number in two's complement. -/
def signed (w : Nat) : Int := if w < 0x80000000 then w else (w : Int) - 0x100000000

/-- The number written by decimal digits. -/
def decimal (cs : List Char) : Nat := cs.foldl (fun n c => n * 10 + (c.toNat - '0'.toNat)) 0

/-- The exponent behind `e` or `E`, zero where there is none. -/
def exponent : List Char → Int
  | _ :: '-' :: cs => -(decimal cs : Int)
  | _ :: '+' :: cs => decimal cs
  | _ :: cs => decimal cs
  | [] => 0

/-- The double a float literal denotes. -/
def double? (text : String) : Option Binary64 :=
  let cs := text.toList
  let whole := cs.takeWhile Char.isDigit
  let rest := cs.dropWhile Char.isDigit
  let (fraction, rest) :=
    match rest with
    | '.' :: more => (more.takeWhile Char.isDigit, more.dropWhile Char.isDigit)
    | _ => ([], rest)
  Binary64.ofDecimal? (decimal (whole ++ fraction)) (exponent rest - fraction.length)

/-- The value of a literal; any other lexeme is malformed. -/
def value : Lexeme → Except Fault Constant
  | .int text => (word text).map fun w => .int (signed w)
  | .uint text => (word text).map fun w => .uint w
  | .float text =>
    match double? text with
    | some x => .ok (.float x)
    | none => .error .malformed
  | .bool b => .ok (.bool b)
  | _ => .error .malformed

end ShaderCost.Literal
