import ShaderCost.Number.Binary64

/-! # The shortest decimal of a double

A double is written with the fewest significant digits that read back as the same double; of two
such decimals the nearer one is taken. The search goes through the decimal grids from coarse to
fine: on each, only the two neighbours of the exact value can lie in the interval of reals that round
to it, so the first grid with a hit gives the digits.
-/

namespace ShaderCost

namespace Shortest

/-- The reals that round to a double: its value, and the two ends of its interval, over a common
denominator. The ends belong to it when the mantissa is even. -/
structure Interval where
  low : Nat
  value : Nat
  high : Nat
  den : Nat
  closed : Bool

/-- The interval of a positive finite double. Below a power of two the next double is half as far. -/
def interval (x : Binary64) : Interval :=
  let (m, e) := x.magnitude
  let unit := Nat.pow 2 e
  let below := if m == Nat.pow 2 52 && e > 0 then 1 else 2
  { low := (4 * m - below) * unit
    value := 4 * m * unit
    high := (4 * m + 2) * unit
    den := 4 * Nat.pow 2 1074
    closed := m % 2 == 0 }

/-- The decimal exponent of a positive ratio: the `k` with `10 ^ k ≤ num / den < 10 ^ (k + 1)`,
found from a start that is too high, in at most `steps` steps down. -/
def decimalExponent (num den : Nat) : Nat → Int → Int
  | 0, k => k
  | steps + 1, k =>
    let fits := if 0 ≤ k then den * Nat.pow 10 k.toNat ≤ num else den ≤ num * Nat.pow 10 (-k).toNat
    if fits then k else decimalExponent num den steps (k - 1)

/-- The multiple of `10 ^ k` below or at the value that is read from a grid, with a test for each of
the two neighbours: `some` digits when one lies in the interval. -/
def onGrid (i : Interval) (k : Int) : Option Nat :=
  -- Everything is brought over one denominator, in which `10 ^ k` is `step`.
  let up := (-k).toNat
  let low := i.low * Nat.pow 10 up
  let value := i.value * Nat.pow 10 up
  let high := i.high * Nat.pow 10 up
  let step := i.den * Nat.pow 10 k.toNat
  let down := value / step
  let inside := fun n =>
    if i.closed then low ≤ n * step && n * step ≤ high else low < n * step && n * step < high
  match inside down, inside (down + 1) with
  | true, true =>
    let toDown := value - down * step
    let toUp := (down + 1) * step - value
    some (if toDown < toUp then down else if toUp < toDown then down + 1 else down + down % 2)
  | true, false => some down
  | false, true => some (down + 1)
  | false, false => none

/-- Tries `count` digits, then one more, and so on; seventeen always suffice. -/
def search (i : Interval) (exponent : Int) : Nat → Nat → Nat × Int
  | 0, count => (0, exponent - count)
  | steps + 1, count =>
    let k := exponent + 1 - count
    match onGrid i k with
    | some digits => (digits, k)
    | none => search i exponent steps (count + 1)

/-- The shortest decimal of a positive finite double: digits without trailing zeros and the place of
the point, which stands before the first digit when it is zero. -/
def digits (x : Binary64) : List Char × Int :=
  let i := interval x
  let exponent := decimalExponent i.value i.den 700 310
  let (n, k) := search i exponent 17 1
  let all := Nat.toDigits 10 n
  let kept := (all.reverse.dropWhile (· == '0')).reverse
  (kept, k + all.length)

/-- An exponent with its sign and at least two digits. -/
def exponentText (e : Int) : String :=
  let size := toString e.natAbs
  (if e < 0 then "e-" else "e+") ++ (if size.length < 2 then "0" ++ size else size)

/-- The text of digits with the point at the given place: positional when the decimal exponent is at
least -4 and below 6, otherwise with an exponent. -/
def layout (digits : List Char) (point : Int) : String :=
  let exponent := point - 1
  if exponent < -4 || exponent ≥ 6 then
    let first := digits.take 1
    let others := digits.drop 1
    String.ofList (if others.isEmpty then first else first ++ '.' :: others) ++
      exponentText exponent
  else if point ≤ 0 then
    String.ofList ('0' :: '.' :: (List.replicate (-point).toNat '0' ++ digits))
  else
    let place := point.toNat
    let whole := digits.take place ++ List.replicate (place - digits.length) '0'
    let fraction := digits.drop place
    String.ofList (if fraction.isEmpty then whole else whole ++ '.' :: fraction)

end Shortest

/-- The shortest text of a finite double. -/
def Binary64.text (x : Binary64) : String :=
  let unsigned :=
    if x.magnitude.1 == 0 then "0"
    else
      let (digits, point) := Shortest.digits x
      Shortest.layout digits point
  if x.isNegative then "-" ++ unsigned else unsigned

end ShaderCost
