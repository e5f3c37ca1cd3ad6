import ShaderCost.Yaml.Token.Basic
import ShaderCost.Yaml.Token.Cursor

/-! # Anchors, tags and directives

An anchor names a value and a reference stands for it. A tag says what a value is: written in full in
angle brackets, or as a handle between exclamation marks with a suffix. Directives in front of a
document give the version of the language and what the handles stand for.
-/

namespace ShaderCost

namespace Yaml

/-! ## Anchors -/

/-- Marks that may follow a name directly. -/
def nameEnds : List Char := "?:,]\x7d%@\x60".toList

/-- The name of an anchor or a reference, behind its mark. -/
def anchorName (c : Cursor) : Option (String × Cursor) := do
  let name := c.rest.takeWhile isNameChar
  let next := c.skip name.length
  if name.isEmpty || !(atGap next.rest || (next.rest.head?.map nameEnds.contains).getD true) then none
  return (String.ofList name, next)

/-! ## Tags -/

/-- The characters of a tag besides those of names. A percent sign starts an escape. -/
def tagMarks : List Char := ";/?:@&=+$,.!~*'()[]%".toList

/-- How many bytes the character has whose first byte this is. -/
def sequenceLength (byte : Nat) : Nat :=
  if byte < 0x80 then 1
  else if byte / 0x20 == 6 then 2
  else if byte / 0x10 == 14 then 3
  else if byte / 0x08 == 30 then 4
  else 0

/-- An escaped byte in front. -/
def escapedByte? : List Char → Option Nat
  | '%' :: a :: b :: _ =>
    if digitValue a < 16 && digitValue b < 16 then some (digitValue a * 16 + digitValue b) else none
  | _ => none

/-- A run of escaped bytes that make up one character, each of which is kept for itself. -/
def escapedBytes : Nat → Cursor → Option (List Char × Cursor)
  | 0, c => some ([], c)
  | count + 1, c => do
    let byte ← escapedByte? c.rest
    if byte / 0x40 != 2 then none
    let (more, last) ← escapedBytes count (c.skip 3)
    return (Char.ofNat byte :: more, last)

/-- The characters of a tag in front. -/
def tagCharsFrom : Nat → Cursor → Option (List Char × Cursor)
  | 0, c => some ([], c)
  | fuel + 1, c =>
    match c.rest with
    | '%' :: _ => do
      let byte ← escapedByte? c.rest
      if sequenceLength byte == 0 then none
      let (others, next) ← escapedBytes (sequenceLength byte - 1) (c.skip 3)
      let (more, last) ← tagCharsFrom fuel next
      return (Char.ofNat byte :: (others ++ more), last)
    | x :: _ =>
      if isNameChar x || tagMarks.contains x then do
        let (more, last) ← tagCharsFrom fuel c.next
        return (x :: more, last)
      else some ([], c)
    | [] => some ([], c)

def tagChars (c : Cursor) : Option (List Char × Cursor) := tagCharsFrom (c.rest.length + 1) c

/-- A handle in front: an exclamation mark and a name, and a second mark if there is one. -/
def handle (c : Cursor) : Option (List Char × Cursor) :=
  match c.rest with
  | '!' :: rest =>
    let name := rest.takeWhile isNameChar
    let next := c.skip (name.length + 1)
    if next.rest.head? == some '!' then some ('!' :: (name ++ ['!']), next.next)
    else some ('!' :: name, next)
  | _ => none

/-- A tag in angle brackets. -/
def fullTag (c : Cursor) : Option (Token × Cursor) := do
  let (suffix, next) ← tagChars (c.skip 2)
  if suffix.isEmpty || next.rest.head? != some '>' then none
  return (.tag "" (String.ofList suffix), next.next)

/-- A tag with a handle. Where no handle is closed, what looked like one is the start of the suffix
behind the handle `!`; that mark alone is a tag without a handle. -/
def shortTag (c : Cursor) : Option (Token × Cursor) := do
  let (name, next) ← handle c
  let (suffix, next) ← tagChars next
  if name.length > 1 && name.getLast? == some '!' then
    if suffix.isEmpty then none
    else some (.tag (String.ofList name) (String.ofList suffix), next)
  else if name.length == 1 && suffix.isEmpty then some (.tag "" "!", next)
  else some (.tag "!" (String.ofList (name.drop 1 ++ suffix)), next)

/-- A tag, which a gap must follow. -/
def tag (c : Cursor) : Option (Token × Cursor) := do
  let (token, next) ← if c.rest[1]? == some '<' then fullTag c else shortTag c
  if !atGap next.rest then none
  return (token, next)

/-! ## Directives -/

/-- A number of at most two digits. -/
def versionNumber (c : Cursor) : Option (Nat × Cursor) := do
  let digits := c.rest.takeWhile Char.isDigit
  if digits.length > 2 then none
  return (← natOfDigits? 10 digits, c.skip digits.length)

/-- The version of the language. -/
def version (c : Cursor) : Option (Token × Cursor) := do
  let (major, c) ← versionNumber (c.skipWhile isBlank)
  if c.rest.head? != some '.' then none
  let (minor, c) ← versionNumber c.next
  return (.versionDirective major minor, c)

/-- A handle, which is a single mark or closed by one, and what it stands for. -/
def handleTarget (c : Cursor) : Option (Token × Cursor) := do
  let (name, c) ← handle (c.skipWhile isBlank)
  if name != ['!'] && !(name.length > 1 && name.getLast? == some '!') then none
  if !(c.rest.head?.map isBlank).getD false then none
  let (target, c) ← tagChars (c.skipWhile isBlank)
  if target.isEmpty || !atGap c.rest then none
  return (.tagDirective (String.ofList name) (String.ofList target), c)

/-- A directive with the end of its line. The cursor stands at the percent sign. -/
def directive (c : Cursor) : Option (Token × Cursor) := do
  let c := c.next
  let name := c.rest.takeWhile isNameChar
  let c := c.skip name.length
  if !atGap c.rest then none
  let (token, c) ←
    if name == "YAML".toList then version c
    else if name == "TAG".toList then handleTarget c
    else none
  let c := c.skipWhile isBlank
  let c := if c.rest.head? == some '#' then c.skipLine else c
  if !atLineEnd c.rest then none
  return (token, c.next)

end Yaml

end ShaderCost
