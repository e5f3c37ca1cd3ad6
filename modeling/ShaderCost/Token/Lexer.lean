import ShaderCost.Token.Basic
import ShaderCost.Text.Blank

/-! # Scanning

Scanning alternates between two pure questions about the bytes that are left: how much of them is
trivia (blanks, line breaks, continued lines and comments), and which lexeme comes next and how long
it is. A cursor only moves by passing over bytes one at a time, so its line and column are always
those of the bytes it has passed.

`tokenize` stops after the end of input or after the first lexeme that cannot be read; `Cursor.next`
can be asked for more.
-/

namespace ShaderCost

/-! ## Trivia -/

/-- Inside what kind of trivia the scan stands. -/
inductive TriviaMode where
  | code
  | lineComment
  | blockComment
  deriving DecidableEq, Repr

/-- Measures the trivia at the front of a byte string, `length` bytes of which are already passed.
The flag says whether only trivia has been seen on the current line; a line break that is escaped or
stands in a block comment does not begin a new line in this sense. -/
def trivia : TriviaMode → Bool → Nat → Bytes → Nat × Bool
  | _, fresh, length, [] => (length, fresh)
  | .lineComment, fresh, length, b :: rest =>
    if b == Byte.newline then trivia .code true (length + 1) rest
    else trivia .lineComment fresh (length + 1) rest
  | .blockComment, fresh, length, b :: rest =>
    match rest with
    | [] => (length + 1, fresh)
    | c :: tail =>
      if b == Byte.star && c == Byte.slash then trivia .code fresh (length + 2) tail
      else trivia .blockComment fresh (length + 1) (c :: tail)
  | .code, fresh, length, b :: rest =>
    if b == Byte.newline then trivia .code true (length + 1) rest
    else if Byte.isBlank b then trivia .code fresh (length + 1) rest
    else
      match rest with
      | [] => (length, fresh)
      | c :: tail =>
        if b == Byte.backslash && c == Byte.newline then trivia .code fresh (length + 2) tail
        else if b == Byte.slash && c == Byte.slash then trivia .lineComment fresh (length + 2) tail
        else if b == Byte.slash && c == Byte.star then trivia .blockComment fresh (length + 2) tail
        else (length, fresh)

/-! ## Lexemes -/

namespace Lexeme

/-- A directive runs to the end of its line. Its text is trimmed, and a line comment is cut off. -/
def scanDirective (bytes : Bytes) : Lexeme × Nat :=
  let line := bytes.takeWhile (· != Byte.newline)
  let text := Bytes.trim (line.drop 1)
  let text :=
    match Bytes.before? [Byte.slash, Byte.slash] text with
    | some kept => Bytes.trim kept
    | none => text
  (directive text, line.length)

/-- Whether two underscores follow each other. -/
def hasDoubleUnderscore : Bytes → Bool
  | b :: c :: rest =>
    (b == Byte.underscore && c == Byte.underscore) || hasDoubleUnderscore (c :: rest)
  | _ => false

/-- The lexeme of a complete word. Words with two underscores in a row are reserved, those of the
language itself excepted. -/
def ofWord (bytes : Bytes) : Lexeme :=
  let text := bytes.toAscii
  if text == "true" then bool true
  else if text == "false" then bool false
  else
    match Keyword.ofText? text with
    | some word => keyword word
    | none =>
      if ("gl_".toList.map Byte.ofChar).isPrefixOf bytes || !hasDoubleUnderscore bytes then name text
      else bad (.reservedName text)

def scanWord (bytes : Bytes) : Lexeme × Nat :=
  let word := bytes.takeWhile Byte.isNameByte
  (ofWord word, word.length)

/-- The length of the digits at the front of a byte string. -/
def digitsLength (bytes : Bytes) : Nat := (bytes.takeWhile Byte.isDigit).length

/-- The length of the fraction at the front of a byte string: a point and its digits. -/
def fractionLength : Bytes → Nat
  | b :: rest => if b == Byte.dot then 1 + digitsLength rest else 0
  | [] => 0

/-- The length of the sign at the front of an exponent's digits. -/
def signLength : Bytes → Nat
  | b :: _ => if b == Byte.plus || b == Byte.minus then 1 else 0
  | [] => 0

/-- The exponent at the front of a byte string: the length up to its digits, and the number of
digits. Both are zero where there is no exponent. -/
def exponentLength : Bytes → Nat × Nat
  | b :: rest =>
    if b == Byte.ofChar 'e' || b == Byte.ofChar 'E' then
      let sign := signLength rest
      (1 + sign, digitsLength (rest.drop sign))
    else (0, 0)
  | [] => (0, 0)

/-- Whether the bytes begin with `0x` or `0X`. -/
def isHex : Bytes → Bool
  | b :: c :: _ => b == Byte.zero && (c == Byte.ofChar 'x' || c == Byte.ofChar 'X')
  | _ => false

/-- What the spelling of a number says before its suffix: whether it is a float, and its length; or
why it is malformed, and how many bytes that takes. -/
def numberBody (bytes : Bytes) : Except (LexError × Nat) (Bool × Nat) :=
  if isHex bytes then
    let digits := ((bytes.drop 2).takeWhile Byte.isHexDigit).length
    if digits == 0 then .error (.malformedHex, 2) else .ok (false, 2 + digits)
  else
    let whole := digitsLength bytes
    let fraction := fractionLength (bytes.drop whole)
    let mantissa := whole + fraction
    let (mark, digits) := exponentLength (bytes.drop mantissa)
    if mark == 0 then .ok (fraction != 0, mantissa)
    else if digits == 0 then .error (.malformedExponent, mantissa + mark)
    else .ok (true, mantissa + mark + digits)

/-- A number: `u` may follow an integer and `f` a float; no other name byte may follow directly. -/
def scanNumber (bytes : Bytes) : Lexeme × Nat :=
  match numberBody bytes with
  | .error (error, length) => (bad error, length)
  | .ok (isFloat, length) =>
    let text := Bytes.toAscii (bytes.take length)
    let plain := if isFloat then float text else int text
    match bytes.drop length with
    | [] => (plain, length)
    | b :: _ =>
      if !isFloat && (b == Byte.ofChar 'u' || b == Byte.ofChar 'U') then (uint text, length + 1)
      else if isFloat && (b == Byte.ofChar 'f' || b == Byte.ofChar 'F') then (float text, length + 1)
      else if Byte.isNameStart b then (bad .invalidSuffix, length)
      else (plain, length)

/-- Whether a number begins here: a digit, or a point with a digit after it. -/
def startsNumber : Bytes → Bool
  | b :: c :: _ => Byte.isDigit b || (b == Byte.dot && Byte.isDigit c)
  | [b] => Byte.isDigit b
  | [] => false

/-- The longest symbol at the front of a byte string. -/
def symbolAt? (bytes : Bytes) : Option Symbol :=
  Symbol.longestFirst.find? (·.bytes.isPrefixOf bytes)

/-- The lexeme at the front of a byte string, and the number of its bytes. A directive is recognised
only where nothing but trivia stands before it on its line. -/
def scan (fresh : Bool) (bytes : Bytes) : Lexeme × Nat :=
  match bytes with
  | [] => (endOfInput, 0)
  | b :: _ =>
    if b == Byte.hash && fresh then scanDirective bytes
    else if Byte.isNameStart b then scanWord bytes
    else if startsNumber bytes then scanNumber bytes
    else
      match symbolAt? bytes with
      | some mark => (symbol mark, mark.bytes.length)
      | none => (bad (.unexpected b), 1)

end Lexeme

/-! ## The cursor -/

/-- A place between two bytes of a source: its offset, its line counted from one, and the offset at
which that line begins. -/
structure Position where
  offset : Nat
  line : Nat
  lineStart : Nat
  deriving DecidableEq, Repr, Inhabited

namespace Position

/-- The front of a source. -/
def origin : Position := ⟨0, 1, 0⟩

/-- The place behind one more byte. -/
def after (p : Position) (b : UInt8) : Position :=
  if b == Byte.newline then ⟨p.offset + 1, p.line + 1, p.offset + 1⟩
  else { p with offset := p.offset + 1 }

/-- Columns count bytes from one. -/
def column (p : Position) : Nat := p.offset - p.lineStart + 1

end Position

/-- A place in a source, the bytes behind it, and whether only trivia stands between it and the
start of its line. -/
structure Cursor where
  position : Position
  rest : Bytes
  fresh : Bool
  deriving DecidableEq, Repr, Inhabited

namespace Cursor

/-- The cursor at the front of a source. -/
def start (source : Bytes) : Cursor := ⟨.origin, source, true⟩

/-- Passes over `count` bytes, or over all that are left. -/
def pass (count : Nat) (c : Cursor) : Cursor :=
  { c with
    position := (c.rest.take count).foldl Position.after c.position
    rest := c.rest.drop count }

/-- Passes over the trivia in front. -/
def passTrivia (c : Cursor) : Cursor :=
  let (length, fresh) := trivia .code c.fresh 0 c.rest
  { c.pass length with fresh }

/-- The next token and the cursor behind it. At the end of the source this is the end of input,
however often it is asked for. -/
def next (c : Cursor) : Token × Cursor :=
  let here := c.passTrivia
  let (lexeme, length) := Lexeme.scan here.fresh here.rest
  let behind := { here.pass length with fresh := false }
  ({ lexeme
     start := here.position.offset
     stop := behind.position.offset
     line := here.position.line
     column := here.position.column }, behind)

/-- The first `count` tokens from here, whatever they are. -/
def take (c : Cursor) : Nat → List Token
  | 0 => []
  | count + 1 =>
    let (token, behind) := c.next
    token :: behind.take count

/-- The tokens up to and including the last one, at most `limit` of them, behind those already
`seen`, which stand in reverse order. -/
def tokens (seen : List Token) (c : Cursor) : Nat → List Token
  | 0 => seen.reverse
  | limit + 1 =>
    let (token, behind) := c.next
    if token.lexeme.isLast then (token :: seen).reverse
    else tokens (token :: seen) behind limit

end Cursor

/-- All tokens of a source, ending with the end of input or with the first that cannot be read.
Every other token takes at least one byte, so one more than the bytes is room enough. -/
def tokenize (source : Bytes) : List Token :=
  Cursor.tokens [] (Cursor.start source) (source.length + 1)

end ShaderCost
