import ShaderCost.Yaml.Scalar
import ShaderCost.Yaml.Token.Cursor

/-! # Texts of plain and quoted scalars

The text of a scalar is read word by word. Between two words of a line it keeps the blanks; where it
goes on in a later line, the blanks beside the line ends are dropped, a single newline counts as one
blank, and of several newlines the first is dropped.
-/

namespace ShaderCost

namespace Yaml

/-! ## Gaps -/

/-- The blanks and line ends in front. -/
def gapOf (text : List Char) : List Char := text.takeWhile isGap

/-- What a gap between two words stands for. -/
def foldGap (gap : List Char) : List Char :=
  match gap.filter isBreak with
  | [] => gap
  | ['\n'] => [' ']
  | '\n' :: more => more
  | breaks => breaks

/-- A tab stands left of a column in a line that starts in the gap. The column of the next character
is given once a line has started. -/
def tabLeftOf (limit : Nat) : Option Nat → List Char → Bool
  | _, [] => false
  | column?, c :: rest =>
    if isBreak c then tabLeftOf limit (some 0) rest
    else
      match column? with
      | none => tabLeftOf limit none rest
      | some column => (c == '\t' && column < limit) || tabLeftOf limit (some (column + 1)) rest

/-! ## Plain scalars -/

/-- Marks that end a word in brackets. -/
def flowMarks : List Char := ",?[]\x7b\x7d".toList

/-- A word of a plain scalar: up to a gap, or a colon before one, or a mark in brackets. -/
def plainWord (flow : Bool) : List Char → List Char
  | [] => []
  | c :: rest =>
    if isGap c || (c == ':' && atGap rest) || (flow && flowMarks.contains c) then []
    else c :: plainWord flow rest

/-- The text of a plain scalar from a word on, and what follows it with the gap behind it. A comment
ends it, and so does a mark between documents or, outside brackets, a word left of `indent`. -/
def plainFrom (flow : Bool) (indent : Nat) : Nat → Cursor → Option (List Char × Cursor)
  | 0, c => some ([], c)
  | fuel + 1, c =>
    if c.atDocumentMark || c.rest.head? == some '#' then some ([], c)
    else
      let word := plainWord flow c.rest
      let c := c.skip word.length
      let gap := gapOf c.rest
      let next := c.skip gap.length
      if word.isEmpty || gap.isEmpty then some (word, c)
      else if tabLeftOf indent none gap then none
      else if !flow && next.column < indent then some (word, next)
      else do
        let (more, last) ← plainFrom flow indent fuel next
        return (if more.isEmpty then word else word ++ foldGap gap ++ more, last)

/-- The text of a plain scalar, and what follows it. -/
def plain (flow : Bool) (indent : Nat) (c : Cursor) : Option (String × Cursor) := do
  let (text, next) ← plainFrom flow indent (c.rest.length + 1) c
  return (String.ofList text, next)

/-! ## Quoted scalars -/

/-- The escapes of one character. -/
def escapes : List (Char × Nat) :=
  [('0', 0), ('a', 7), ('b', 8), ('t', 9), ('\t', 9), ('n', 10), ('v', 11), ('f', 12), ('r', 13),
    ('e', 27), (' ', 32), ('"', 34), ('\'', 39), ('\\', 92), ('N', 0x85), ('_', 0xa0),
    ('L', 0x2028), ('P', 0x2029)]

/-- The escapes that give the number of a character in hexadecimal digits. -/
def escapeWidths : List (Char × Nat) := [('x', 2), ('u', 4), ('U', 8)]

/-- The number that hexadecimal digits stand for. -/
def hexNumber? (digits : List Char) : Option Nat :=
  digits.foldlM (fun n c => if digitValue c < 16 then some (n * 16 + digitValue c) else none) 0

/-- The character that an escape stands for, and the length of the escape without its backslash. -/
def escape? : List Char → Option (Char × Nat)
  | [] => none
  | mark :: rest =>
    match escapes.lookup mark, escapeWidths.lookup mark with
    | some n, _ => some (Char.ofNat n, 1)
    | none, some width => do
      if (rest.take width).length < width then none
      let n ← hexNumber? (rest.take width)
      if (0xd800 ≤ n && n ≤ 0xdfff) || n > 0x10ffff then none
      return (Char.ofNat n, width + 1)
    | none, none => none

/-- A word between quotes, what follows it, and whether it ends with an escaped line end. -/
def quotedWord (quote : Char) : Nat → Cursor → Option (List Char × Cursor × Bool)
  | 0, c => some ([], c, false)
  | fuel + 1, c =>
    match c.rest with
    | [] => some ([], c, false)
    | x :: rest =>
      let andThen := fun (here : List Char) (length : Nat) => do
        let (more, last, joined) ← quotedWord quote fuel (c.skip length)
        return (here ++ more, last, joined)
      if isGap x then some ([], c, false)
      else if x == quote then
        if quote == '\'' && rest.head? == some quote then andThen [quote] 2
        else some ([], c, false)
      else if quote == '"' && x == '\\' then
        if (rest.head?.map isBreak).getD false then some ([], c.skip 2, true)
        else do
          let (escaped, length) ← escape? rest
          andThen [escaped] (length + 1)
      else andThen [x] 1

/-- The text between quotes from a word on, and what follows the closing quote. Behind an escaped line
end no blank is put, but the line ends that follow it are kept. -/
def quotedFrom (quote : Char) : Nat → Cursor → Option (List Char × Cursor)
  | 0, _ => none
  | fuel + 1, c =>
    if c.atDocumentMark || c.rest.isEmpty then none
    else do
      let (word, c, joined) ← quotedWord quote (fuel + 1) c
      if c.rest.head? == some quote then return (word, c.next)
      let gap := gapOf c.rest
      let (more, last) ← quotedFrom quote fuel (c.skip gap.length)
      return (word ++ (if joined then gap.filter isBreak else foldGap gap) ++ more, last)

/-- The text of a quoted scalar, and what follows it. The cursor stands at the opening quote. -/
def quoted (quote : Char) (c : Cursor) : Option (String × Cursor) := do
  let (text, next) ← quotedFrom quote (c.rest.length + 1) c.next
  return (String.ofList text, next)

end Yaml

end ShaderCost
