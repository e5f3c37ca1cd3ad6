import ShaderCost.Number.Binary64
import ShaderCost.Text.Base64

/-! # Scalars of settings files

A scalar is a text that was written plainly, between quotes or as a block of lines. A plain one may
mean something else than its text: nothing, a truth value, a number or a point in time. In any other
style it is text. A tag in front of a scalar says what it has to be, whatever its style.
-/

namespace ShaderCost

namespace Yaml

inductive ScalarStyle where
  | plain
  | single
  | double
  | literal
  | folded
  deriving DecidableEq, Repr, Inhabited

/-- A scalar; the tags of the language itself start with two exclamation marks. -/
structure Scalar where
  style : ScalarStyle := .plain
  tag : Option String := none
  text : String
  deriving DecidableEq, Repr, Inhabited

/-- What a scalar means. A fraction is known by its whole part, as far as that is a 64-bit word. -/
inductive Meaning where
  | null
  | bool (value : Bool)
  | int (value : Int)
  | fraction (whole : Option Int)
  | time
  | text
  deriving DecidableEq, Repr, Inhabited

/-! ## Numbers -/

/-- The value of a digit in bases up to sixteen. -/
def digitValue (c : Char) : Nat :=
  if c.isDigit then c.toNat - '0'.toNat
  else if 'a' ≤ c && c ≤ 'f' then c.toNat - 'a'.toNat + 10
  else if 'A' ≤ c && c ≤ 'F' then c.toNat - 'A'.toNat + 10
  else 16

/-- The number that digits of a base stand for. -/
def natOfDigits? (base : Nat) (digits : List Char) : Option Nat :=
  if digits.isEmpty || digits.any (fun c => digitValue c ≥ base) then none
  else some (digits.foldl (fun n c => n * base + digitValue c) 0)

/-- A number without its sign: hexadecimal, octal or binary behind a mark, octal behind a zero, and
decimal otherwise. -/
def magnitude? : List Char → Option Nat
  | '0' :: mark :: rest =>
    if mark == 'x' || mark == 'X' then natOfDigits? 16 rest
    else if mark == 'o' || mark == 'O' then natOfDigits? 8 rest
    else if mark == 'b' || mark == 'B' then natOfDigits? 2 rest
    else natOfDigits? 8 (mark :: rest)
  | digits => natOfDigits? 10 digits

/-- The sign in front of a number, and the rest. -/
def splitSign : List Char → Option Bool × List Char
  | '-' :: rest => (some true, rest)
  | '+' :: rest => (some false, rest)
  | text => (none, text)

/-- A whole number: one with a sign is a signed 64-bit word, one without may use all 64 bits. -/
def int? (text : List Char) : Option Int :=
  let (sign, rest) := splitSign text
  match sign, magnitude? rest with
  | _, none => none
  | none, some n => if n < 0x10000000000000000 then some n else none
  | some false, some n => if n < 0x8000000000000000 then some n else none
  | some true, some n => if n ≤ 0x8000000000000000 then some (-(n : Int)) else none

/-- The exponent of a fraction, zero when there is none. -/
def exponent? : List Char → Option Int
  | [] => some 0
  | mark :: rest =>
    if mark != 'e' && mark != 'E' then none
    else
      let (sign, digits) := splitSign rest
      (natOfDigits? 10 digits).map fun n => if sign == some true then -(n : Int) else n

/-- A double without its decimal places, as a 64-bit word. All that is below the least word counts as
the least word, and so does 2^63, the first number above the greatest; beyond that there is none. -/
def wholePart (negative : Bool) (x : Binary64) : Option Int :=
  let (mantissa, exponent) := x.magnitude
  let size := mantissa * Nat.pow 2 exponent / Nat.pow 2 1074
  let least : Int := Int64.minValue.toInt
  if size < 0x8000000000000000 then some (if negative then -(size : Int) else size)
  else if negative || mantissa * Nat.pow 2 exponent == Nat.pow 2 1137 then some least
  else none

/-- A decimal number with a point, an exponent, both or neither, rounded to the nearest double. One
that is too great for a double is none. -/
def fraction? (text : List Char) : Option (Option Int) := do
  let (sign, rest) := splitSign text
  let whole := rest.takeWhile Char.isDigit
  let rest := rest.dropWhile Char.isDigit
  let (places, rest) := match rest with
    | '.' :: more => (more.takeWhile Char.isDigit, more.dropWhile Char.isDigit)
    | _ => ([], rest)
  let digits ← natOfDigits? 10 (whole ++ places)
  let exponent ← exponent? rest
  let double ← Binary64.ofDecimal? digits (exponent - places.length)
  return wholePart (sign == some true) double

/-- A binary or octal number with a sign between its mark and its digits. -/
def markedInt? : List Char → Option Int
  | '0' :: mark :: rest =>
    let base := if mark == 'b' then 2 else if mark == 'o' then 8 else 0
    let (sign, digits) := splitSign rest
    match sign, natOfDigits? base digits with
    | some negative, some n =>
      if n < 0x8000000000000000 then some (if negative then -(n : Int) else n)
      else if negative && n == 0x8000000000000000 then some Int64.minValue.toInt
      else none
    | _, _ => none
  | _ => none

/-- Every underscore stands between two digits. -/
def underscoresDivide (before : Option Char) : List Char → Bool
  | [] => true
  | c :: rest =>
    (c != '_' || ((before.map Char.isDigit).getD false && (rest.head?.map Char.isDigit).getD false)) &&
      underscoresDivide (some c) rest

/-- The whole part of what is not a number or not finite. -/
def notFinite? (text : String) : Option (Option Int) :=
  if ["-.inf", "-.Inf", "-.INF"].contains text then some (some Int64.minValue.toInt)
  else if [".inf", ".Inf", ".INF", "+.inf", "+.Inf", "+.INF", ".nan", ".NaN", ".NAN"].contains text then
    some none
  else none

/-! ## Points in time -/

/-- Up to two digits at the front, their value within bounds, and the rest. -/
def shortNumber? (low high : Nat) (text : List Char) : Option (Nat × List Char) :=
  let digits := (text.take 2).takeWhile Char.isDigit
  match natOfDigits? 10 digits with
  | some n => if low ≤ n && n ≤ high then some (n, text.drop digits.length) else none
  | none => none

/-- The number of days of a month. -/
def daysIn (year month : Nat) : Nat :=
  if month == 2 then
    if year % 4 == 0 && (year % 100 != 0 || year % 400 == 0) then 29 else 28
  else if [4, 6, 9, 11].contains month then 30
  else 31

/-- A date at the front: year, month and day with hyphens between them. -/
def date? (text : List Char) : Option (List Char) := do
  let digits := text.takeWhile Char.isDigit
  if digits.length != 4 then none
  let year ← natOfDigits? 10 digits
  match text.drop 4 with
  | '-' :: rest =>
    match ← shortNumber? 1 12 rest with
    | (month, '-' :: rest) => (·.2) <$> shortNumber? 1 (daysIn year month) rest
    | _ => none
  | _ => none

/-- A time of day at the front, with decimal places of a second behind a point or a comma. -/
def clock? (text : List Char) : Option (List Char) := do
  match ← shortNumber? 0 23 text with
  | (_, ':' :: rest) =>
    match ← shortNumber? 0 59 rest with
    | (_, ':' :: rest) =>
      match ← shortNumber? 0 59 rest with
      | (_, mark :: rest) =>
        if (mark == '.' || mark == ',') && !(rest.takeWhile Char.isDigit).isEmpty then
          some (rest.dropWhile Char.isDigit)
        else some (mark :: rest)
      | (_, []) => some []
    | _ => none
  | _ => none

/-- A time zone: the letter for none, or a sign with hours and minutes. -/
def isZone : List Char → Bool
  | ['Z'] => true
  | [sign, a, b, ':', c, d] =>
    (sign == '+' || sign == '-') && [a, b, c, d].all Char.isDigit &&
      ((natOfDigits? 10 [a, b]).getD 99) ≤ 24 && ((natOfDigits? 10 [c, d]).getD 99) ≤ 60
  | _ => false

/-- A date, or a date with a time of day: behind a letter with a time zone, behind blanks without. -/
def isTime (text : List Char) : Bool :=
  match date? text with
  | none => false
  | some [] => true
  | some (mark :: rest) =>
    if mark == 'T' || mark == 't' then ((clock? rest).map isZone).getD false
    else mark == ' ' && clock? (rest.dropWhile (· == ' ')) == some []

/-! ## Meanings -/

/-- What a number or a point in time means. Underscores in a number are passed over. -/
def numberMeaning (text : List Char) : Meaning :=
  if isTime text then .time
  else
    let digits := text.filter (· != '_')
    match int? digits, fraction? digits, markedInt? digits with
    | some n, _, _ => .int n
    | none, some whole, _ => .fraction whole
    | none, none, some n => .int n
    | none, none, none => .text

/-- What a plain scalar means: only one that starts with a digit, a sign or a point can be a number.
Behind a point, underscores are passed over where they divide digits. -/
def meaning (text : String) : Meaning :=
  if ["", "~", "null", "Null", "NULL"].contains text then .null
  else if ["true", "True", "TRUE"].contains text then .bool true
  else if ["false", "False", "FALSE"].contains text then .bool false
  else
    match notFinite? text, text.toList with
    | some whole, _ => .fraction whole
    | none, '.' :: rest =>
      if underscoresDivide (some '.') rest then
        ((fraction? ('.' :: rest.filter (· != '_'))).map Meaning.fraction).getD .text
      else .text
    | none, c :: rest =>
      if c.isDigit || c == '+' || c == '-' then numberMeaning (c :: rest) else .text
    | none, [] => .null

namespace Scalar

/-- What a scalar means. A tag of the language must agree with what the text means by itself, but a
whole number may be called a fraction; behind any other tag it is text. -/
def meaning? (s : Scalar) : Option Meaning :=
  let own := meaning s.text
  match s.tag with
  | none => some (if s.style == .plain then own else .text)
  | some "!!null" => if own == .null then some own else none
  | some "!!timestamp" => if own == .time then some own else none
  | some "!!bool" => match own with
    | .bool _ => some own
    | _ => none
  | some "!!int" => match own with
    | .int _ => some own
    | _ => none
  | some "!!float" => match own with
    | .fraction _ => some own
    | .int n =>
      if Int64.minValue.toInt ≤ n && n ≤ Int64.maxValue.toInt then
        some (.fraction (wholePart (n < 0) (Binary64.ofInt (n.natAbs : Int))))
      else none
    | _ => none
  | some _ => some .text

/-- The text of a scalar, decoded if its tag says that it is not written as it is. -/
def content? (s : Scalar) : Option String :=
  if s.tag == some "!!binary" then (Base64.decode? s.text).map Bytes.toText else some s.text

end Scalar

/-- The 64-bit word that a meaning stands for: a number, without its decimal places. -/
def Meaning.word? : Meaning → Option Int
  | int n => if Int64.minValue.toInt ≤ n && n ≤ Int64.maxValue.toInt then some n else none
  | fraction whole => whole
  | _ => none

/-- Words for a truth value. -/
def trueWords : List String := ["y", "Y", "yes", "Yes", "YES", "on", "On", "ON"]

/-- Words for the other truth value. -/
def falseWords : List String := ["n", "N", "no", "No", "NO", "off", "Off", "OFF"]

/-- The truth value that a text stands for. -/
def boolOfWord? (text : String) : Option Bool :=
  if trueWords.contains text then some true
  else if falseWords.contains text then some false
  else none

end Yaml

end ShaderCost
