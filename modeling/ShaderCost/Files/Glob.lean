import ShaderCost.Text.Utf8

/-! # Patterns for names

A pattern is matched against a whole path element, which holds no slash. A star stands for any bytes,
a question mark for one character, a bracket for one character of a set, and a backslash takes what
follows for itself. A pattern that breaks these rules matches nothing.

Matching keeps the suffixes of the name that are still to be matched, the longest first. A star turns
them into all suffixes of the longest; every other item takes one glyph or byte off each. The name
matches when the empty suffix is left at the end.
-/

namespace ShaderCost

/-- One part of a pattern. -/
inductive GlobItem where
  | anyBytes
  | anyGlyph
  | byte (b : UInt8)
  | oneOf (negated : Bool) (ranges : List (Char × Char))
  deriving DecidableEq, Repr, Inhabited

namespace Glob

/-! ## Reading a pattern -/

/-- One end of a range inside brackets, and the rest, which must not be empty. -/
def rangeEnd? : List Char → Option (Char × List Char)
  | '\\' :: c :: d :: rest => some (c, d :: rest)
  | '\\' :: _ => none
  | '-' :: _ => none
  | ']' :: _ => none
  | c :: d :: rest => some (c, d :: rest)
  | _ => none

/-- The ranges up to the closing bracket, and what follows it. At least one range is needed. -/
def ranges? : Nat → List (Char × Char) → List Char → Option (List (Char × Char) × List Char)
  | 0, _, _ => none
  | fuel + 1, found, text =>
    match found, text with
    | _ :: _, ']' :: rest => some (found.reverse, rest)
    | _, _ =>
      match rangeEnd? text with
      | none => none
      | some (low, '-' :: rest) =>
        match rangeEnd? rest with
        | none => none
        | some (high, rest) => ranges? fuel ((low, high) :: found) rest
      | some (low, rest) => ranges? fuel ((low, low) :: found) rest

/-- The bytes of a character, as items. -/
def literal (c : Char) : List GlobItem := (String.utf8EncodeChar c).map GlobItem.byte

/-- The items of a pattern, if it is well formed. -/
def parseFrom? : Nat → List Char → Option (List GlobItem)
  | _, [] => some []
  | 0, _ :: _ => none
  | fuel + 1, '*' :: rest => (parseFrom? fuel rest).map (.anyBytes :: ·)
  | fuel + 1, '?' :: rest => (parseFrom? fuel rest).map (.anyGlyph :: ·)
  | fuel + 1, '\\' :: rest =>
    match rest with
    | [] => none
    | c :: rest => (parseFrom? fuel rest).map (literal c ++ ·)
  | fuel + 1, '[' :: rest =>
    let negated := rest.head? == some '^'
    let body := if negated then rest.tail else rest
    match ranges? (body.length + 1) [] body with
    | none => none
    | some (ranges, rest) => (parseFrom? fuel rest).map (.oneOf negated ranges :: ·)
  | fuel + 1, c :: rest => (parseFrom? fuel rest).map (literal c ++ ·)

def parse? (pattern : String) : Option (List GlobItem) :=
  let text := pattern.toList
  parseFrom? text.length text

/-! ## Matching -/

/-- A glyph is in one of the ranges; a stray byte counts as the replacement character. -/
def inRanges (ranges : List (Char × Char)) (g : Glyph) : Bool :=
  ranges.any fun (low, high) => low ≤ g.shown && g.shown ≤ high

/-- What is left of a name once an item other than a star has matched its front. -/
def takeItem (item : GlobItem) : Bytes → Option Bytes
  | [] => none
  | b :: rest =>
    let (glyph, size) := Utf8.first b rest
    match item with
    | .anyBytes => none
    | .anyGlyph => some (rest.drop (size - 1))
    | .byte expected => if b == expected then some rest else none
    | .oneOf negated ranges =>
      if inRanges ranges glyph != negated then some (rest.drop (size - 1)) else none

/-- All suffixes of a name, the longest first. -/
def suffixes : Bytes → List Bytes
  | [] => [[]]
  | b :: rest => (b :: rest) :: suffixes rest

/-- The suffixes still to be matched after one more item. -/
def step (left : List Bytes) (item : GlobItem) : List Bytes :=
  match item with
  | .anyBytes => (left.head?.map suffixes).getD []
  | item => left.filterMap (takeItem item)

def matchesItems (items : List GlobItem) (name : Bytes) : Bool :=
  (items.foldl step [name]).any List.isEmpty

/-- The whole name fits the pattern. -/
def fits (pattern name : String) : Bool :=
  match parse? pattern with
  | some items => matchesItems items (Bytes.ofString name)
  | none => false

end Glob

end ShaderCost
