/-! # Double-precision numbers as bit patterns

Float constants of a shader are doubles, but nothing is computed with them beyond reading a literal,
taking an integer over and changing a sign. So a double is kept as its 64 bits, and the one rounding
there is, that of a literal, is done exactly on natural numbers: to the nearest double, a tie going
to the even one.
-/

namespace ShaderCost

/-- A double in its interchange format. -/
structure Binary64 where
  bits : UInt64
  deriving DecidableEq, Repr, Inhabited

namespace Binary64

def zero : Binary64 := ⟨0⟩

/-- The number with the other sign. -/
def negate (x : Binary64) : Binary64 := ⟨x.bits ^^^ 0x8000000000000000⟩

def isNegative (x : Binary64) : Bool := x.bits.toNat ≥ 0x8000000000000000

/-- The magnitude of a finite double as `m * 2 ^ (e - 1074)`, given as `(m, e)`. -/
def magnitude (x : Binary64) : Nat × Nat :=
  let exponent := x.bits.toNat / Nat.pow 2 52 % Nat.pow 2 11
  let fraction := x.bits.toNat % Nat.pow 2 52
  if exponent == 0 then (fraction, 0) else (Nat.pow 2 52 + fraction, exponent - 1)

/-- The quotient of two natural numbers rounded to the nearest integer, a tie to the even one. -/
def roundedQuotient (num den : Nat) : Nat :=
  let quotient := num / den
  let remainder := num % den
  if 2 * remainder < den then quotient
  else if 2 * remainder > den then quotient + 1
  else quotient + quotient % 2

/-- The exponent `e` for which `num / den` is a multiple of about 53 bits of `2 ^ (e - 1074)`: the
least one, zero apart, for which the integer part of the scaled quotient has at most 53 bits. -/
def scaleOf (num den : Nat) : Nat :=
  -- `num / den` lies between `2 ^ (l - 1)` and `2 ^ (l + 1)` for the difference `l` of the logarithms
  let guess := num.log2 + 1074 - den.log2 - 52
  if num * Nat.pow 2 1074 < den * Nat.pow 2 (guess + 52) then guess - 1 else guess

/-- The double nearest to `num / den`, unless that is beyond the greatest finite one. -/
def ofRatio? (num den : Nat) : Option Binary64 :=
  let scale := scaleOf num den
  let mantissa := roundedQuotient (num * Nat.pow 2 1074) (den * Nat.pow 2 scale)
  -- A mantissa rounded up to `2 ^ 53` carries into the exponent field by itself.
  let bits := scale * Nat.pow 2 52 + mantissa
  if bits < 2047 * Nat.pow 2 52 then some ⟨bits.toUInt64⟩ else none

/-- The number of decimal digits. -/
def decimalLength (n : Nat) : Nat := (Nat.toDigits 10 n).length

/-- The double nearest to `digits * 10 ^ exponent`, unless that overflows. Exponents that are
hopelessly large or small are settled by the number of digits alone. -/
def ofDecimal? (digits : Nat) (exponent : Int) : Option Binary64 :=
  if digits == 0 then some zero
  else
    let size := (decimalLength digits : Int) + exponent
    if size > 310 then none
    else if size < -330 then some zero
    else if 0 ≤ exponent then ofRatio? (digits * Nat.pow 10 exponent.toNat) 1
    else ofRatio? digits (Nat.pow 10 (-exponent).toNat)

/-- The double nearest to an integer; the integers met here are exact. -/
def ofInt (i : Int) : Binary64 :=
  let x := if i == 0 then zero else (ofRatio? i.natAbs 1).getD zero
  if i < 0 then x.negate else x

end Binary64

end ShaderCost
