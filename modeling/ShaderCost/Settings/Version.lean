/-! # Semantic versions

A version is up to three numbers, and after all three optionally a pre-release behind a hyphen and
build data behind a plus. Missing numbers count as zero, a pre-release comes before the release it
leads to, and build data have no place in the order.
-/

namespace ShaderCost

structure Version where
  major : Nat
  minor : Nat := 0
  patch : Nat := 0
  /-- The identifiers of the pre-release, none for a release. -/
  preRelease : List (List Char) := []
  deriving DecidableEq, Repr, Inhabited

namespace Version

/-- A number of a version: digits without a leading zero. -/
def isNumeral (digits : List Char) : Bool :=
  !digits.isEmpty && digits.all Char.isDigit && (digits.length == 1 || digits.head? != some '0')

/-- The value of decimal digits. -/
def value (digits : List Char) : Nat :=
  digits.foldl (fun n c => n * 10 + (c.toNat - '0'.toNat)) 0

/-- The pieces between the marks. -/
def pieces (mark : Char) (text : List Char) : List (List Char) :=
  let step := fun (c : Char) (acc : List Char × List (List Char)) =>
    if c == mark then ([], acc.1 :: acc.2) else (c :: acc.1, acc.2)
  let (first, others) := text.foldr step ([], [])
  first :: others

/-- An identifier of a pre-release or of build data. -/
def isIdentifier (text : List Char) : Bool :=
  !text.isEmpty && text.all fun c => c.isAlphanum || c == '-'

/-- A pre-release identifier: one made of digits is a number. -/
def isPreReleaseIdentifier (text : List Char) : Bool :=
  isIdentifier text && (!text.all Char.isDigit || isNumeral text)

/-- What stands before the first `mark`, and what stands after it, if there is one. -/
def cut (mark : Char) (text : List Char) : List Char × Option (List Char) :=
  (text.takeWhile (· != mark), (text.dropWhile (· != mark)).tail?)

/-- Reads the numbers, the pre-release and the build data of a version. -/
def parse? (text : String) : Option Version :=
  let (rest, build) := cut '+' text.toList
  let (core, preRelease) := cut '-' rest
  let numbers := pieces '.' core
  if !numbers.all isNumeral || !(build.map (pieces '.')).all (·.all isIdentifier) then none
  else
    let identifiers := (preRelease.map (pieces '.')).getD []
    if !identifiers.all isPreReleaseIdentifier then none
    else
      match numbers.map value with
      | [major, minor, patch] => some { major, minor, patch, preRelease := identifiers }
      | [major, minor] =>
        if preRelease.isNone && build.isNone then some { major, minor } else none
      | [major] => if preRelease.isNone && build.isNone then some { major } else none
      | _ => none

/-- Numbers come before words; numbers go by value and words by their characters. -/
def identifierLt (a b : List Char) : Bool :=
  match a.all Char.isDigit, b.all Char.isDigit with
  | true, true => value a < value b
  | true, false => true
  | false, true => false
  | false, false => a < b

/-- The order of pre-releases: identifier by identifier, and the shorter of two that agree first. -/
def identifiersLt : List (List Char) → List (List Char) → Bool
  | _, [] => false
  | [], _ :: _ => true
  | a :: as, b :: bs => identifierLt a b || (a == b && identifiersLt as bs)

/-- The order of versions. -/
def lt (a b : Version) : Bool :=
  let core := fun (v : Version) => [v.major, v.minor, v.patch]
  if core a != core b then core a < core b
  else
    match a.preRelease, b.preRelease with
    | _, [] => !a.preRelease.isEmpty
    | [], _ => false
    | as, bs => identifiersLt as bs

end Version

end ShaderCost
