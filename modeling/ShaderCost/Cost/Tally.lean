/-! # Cost arithmetic

Costs, loop multipliers and invocation counts are only ever added and multiplied. The analysis is
written once for any type of such numbers: 64-bit words, where a result that does not fit is pinned
to the greatest word and a negative operand counts as nothing, and the natural numbers, where nothing
is ever lost. The second says what the first should give.
-/

namespace ShaderCost

/-- The numbers in which costs are counted. -/
class Tally (α : Type) where
  ofNat : Nat → α
  add : α → α → α
  mul : α → α → α
  isZero : α → Bool

namespace Tally

variable {α : Type} [Tally α]

def zero : α := ofNat 0

def one : α := ofNat 1

end Tally

namespace Saturating

/-- The greatest cost. -/
def cap : Int64 := Int64.maxValue

/-- The sum, or the cap when the sum does not fit. Negative operands count as zero. -/
def add (a b : Int64) : Int64 :=
  let a := max a 0
  let b := max b 0
  if a > cap - b then cap else a + b

/-- The product, or the cap when the product does not fit. Negative operands count as zero. -/
def mul (a b : Int64) : Int64 :=
  if a ≤ 0 || b ≤ 0 then 0
  else if a > cap / b then cap
  else a * b

/-- The number itself, or the cap when it does not fit. -/
def ofNat (n : Nat) : Int64 := if n < 0x8000000000000000 then Int64.ofNat n else cap

instance : Tally Int64 where
  ofNat := ofNat
  add := add
  mul := mul
  isZero n := n == 0

end Saturating

instance : Tally Nat where
  ofNat n := n
  add := Nat.add
  mul := Nat.mul
  isZero n := n == 0

end ShaderCost
