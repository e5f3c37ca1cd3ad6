/-! # Durations

A duration is shown in the largest unit that leaves something before the point, from nanoseconds to
seconds, and from a minute on as hours, minutes and seconds. Zeros at the end of the places after the
point are left out.
-/

namespace ShaderCost

namespace Duration

/-- `n` divided by ten to the power `places`, in decimal notation. -/
def decimal (places n : Nat) : String :=
  let unit := Nat.pow 10 places
  let digits := (toString (n % unit)).toList
  let fraction := List.replicate (places - digits.length) '0' ++ digits
  let shown := (fraction.reverse.dropWhile (· == '0')).reverse
  if n % unit == 0 then toString (n / unit)
  else toString (n / unit) ++ "." ++ String.ofList shown

/-- The text of a number of nanoseconds. -/
def text (nanoseconds : Nat) : String :=
  let second := 1000000000
  if nanoseconds == 0 then "0s"
  else if nanoseconds < 1000 then toString nanoseconds ++ "ns"
  else if nanoseconds < 1000000 then decimal 3 nanoseconds ++ "µs"
  else if nanoseconds < second then decimal 6 nanoseconds ++ "ms"
  else
    let minutes := nanoseconds / (60 * second)
    let seconds := decimal 9 (nanoseconds % (60 * second)) ++ "s"
    if minutes == 0 then seconds
    else if minutes < 60 then toString minutes ++ "m" ++ seconds
    else toString (minutes / 60) ++ "h" ++ toString (minutes % 60) ++ "m" ++ seconds

end Duration

end ShaderCost
