import ShaderCost.Yaml.Token.Lines
import ShaderCost.Yaml.Token.Properties
import ShaderCost.Yaml.Token.Words

/-! # Scanning settings files

Outside brackets the layout counts. A column that is further right than the block around it opens a
block at the first key or dash that stands there, and a token that is further left closes it again.
That a token is a key is known only when the colon behind it is met, so the places where a key may have
started are kept, one for each level of brackets; a key stands on one line and is not long. Where
nothing but a key can stand, it is an error if no colon comes.

A document may be over before its text is, so a scan does not fail as a whole: `scan` gives the tokens
that can be relied on, and leaves out `streamEnd` if it could not go on. A token can be relied on once
two more have been scanned and it is settled that no key starts with it.
-/

namespace ShaderCost

namespace Yaml

/-- A place where a key may have started. -/
structure PossibleKey where
  /-- Nothing else can stand here. -/
  required : Bool
  /-- The number of tokens before it. -/
  place : Nat
  index : Nat
  line : Nat
  column : Nat
  deriving DecidableEq, Repr, Inhabited

/-- The greatest number of characters from the start of a key to its colon. -/
def longestKey : Nat := 1024

/-- The greatest depth of blocks and of brackets. -/
def deepest : Nat := 10000

/-- A colon at the cursor could still belong to the key. -/
def PossibleKey.reaches (k : PossibleKey) (c : Cursor) : Bool :=
  k.line == c.line && c.index ≤ k.index + longestKey

/-- How far a text has been scanned. -/
structure Lexer where
  cursor : Cursor
  tokens : Array Token := #[]
  /-- The columns of the open blocks, the innermost first. -/
  blocks : List Nat := []
  /-- Where a key may have started on the innermost level of brackets. -/
  key? : Option PossibleKey := none
  /-- The same for the levels around it; there are as many as open brackets. -/
  outerKeys : List (Option PossibleKey) := []
  /-- A key can start at the cursor, and outside brackets so can a dash. -/
  keyAllowed : Bool := true
  deriving Inhabited

namespace Lexer

def inBrackets (s : Lexer) : Bool := !s.outerKeys.isEmpty

/-- The least column of what belongs to the innermost block. -/
def least (s : Lexer) : Nat :=
  match s.blocks with
  | [] => 0
  | column :: _ => column + 1

/-! ## Keys and blocks -/

/-- Gives up the key that may have started on this level. -/
def dropKey (s : Lexer) : Option Lexer :=
  if (s.key?.map (·.required)).getD false then none else some { s with key? := none }

/-- Notes that a key may start here. -/
def noteKey (s : Lexer) : Option Lexer :=
  if !s.keyAllowed then some s
  else do
    let s ← s.dropKey
    let here : PossibleKey :=
      { required := !s.inBrackets && s.blocks.head? == some s.cursor.column
        place := s.tokens.size
        index := s.cursor.index
        line := s.cursor.line
        column := s.cursor.column }
    return { s with key? := some here }

/-- Opens a block at a column, unless the innermost one is already there or further right. The token
is put at its place among the others. -/
def openBlock (s : Lexer) (column place : Nat) (token : Token) : Option Lexer :=
  if s.inBrackets || column < s.least then some s
  else if s.blocks.length ≥ deepest then none
  else some { s with
    blocks := column :: s.blocks
    tokens := s.tokens.insertIdxIfInBounds place token }

/-- Closes the blocks that are further right than a column; all of them if there is none. -/
def closeBlocks (s : Lexer) (column? : Option Nat) : Lexer :=
  if s.inBrackets then s
  else
    let isClosed := fun block => match column? with
      | some column => block > column
      | none => true
    { s with
      blocks := s.blocks.dropWhile isClosed
      tokens := s.tokens ++ (s.blocks.takeWhile isClosed).map fun _ => Token.blockEnd }

/-! ## Between tokens -/

/-- Passes over a comment, and over the lines behind it that hold nothing but a comment. -/
def skipComments : Nat → Cursor → Cursor
  | 0, c => c
  | fuel + 1, c =>
    let lineEnd := c.skipLine
    let next := lineEnd.skipWhile isGap
    if next.rest.head? == some '#' then skipComments fuel next else lineEnd

/-- Passes over blanks, comments and line ends. A tab is not passed over where a key can start outside
brackets; behind a line end there, one can. -/
def skipGap : Nat → Lexer → Lexer
  | 0, s => s
  | fuel + 1, s =>
    let tabs := s.inBrackets || !s.keyAllowed
    let c := s.cursor.skipWhile fun x => x == ' ' || (tabs && x == '\t')
    let c := if c.rest.head? == some '#' then skipComments (fuel + 1) c else c
    match c.rest with
    | x :: _ =>
      if isBreak x then
        skipGap fuel { s with cursor := c.next, keyAllowed := s.keyAllowed || !s.inBrackets }
      else { s with cursor := c }
    | [] => { s with cursor := c }

/-- Passes over a comment on the line of the last token, which tabs may set off. -/
def skipLineComment (s : Lexer) : Lexer :=
  let next := s.cursor.skipWhile isBlank
  if !s.cursor.freshLine && s.tokens.back? != some .item && next.rest.head? == some '#' then
    { s with cursor := next.skipLine }
  else s

/-! ## Tokens -/

/-- Adds a token of some characters, behind which a key may be allowed. -/
def push (s : Lexer) (token : Token) (length : Nat) (keyAllowed : Bool) : Lexer :=
  { s with tokens := s.tokens.push token, cursor := s.cursor.skip length, keyAllowed }

/-- Adds a token that was read up to a cursor. -/
def pushTo (s : Lexer) (token : Token) (cursor : Cursor) (keyAllowed : Bool) : Lexer :=
  { s with tokens := s.tokens.push token, cursor, keyAllowed }

/-- The end of the text. -/
def finish (s : Lexer) : Option Lexer := do
  return (← (s.closeBlocks none).dropKey).push .streamEnd 0 false

/-- A directive, which closes all blocks. -/
def pushDirective (s : Lexer) : Option Lexer := do
  let s ← (s.closeBlocks none).dropKey
  let (token, next) ← directive s.cursor
  return s.pushTo token next false

/-- A mark between documents, which closes all blocks. -/
def pushDocumentMark (s : Lexer) : Option Lexer := do
  let s ← (s.closeBlocks none).dropKey
  let token := if s.cursor.rest.head? == some '-' then Token.documentStart else .documentEnd
  return s.push token 3 false

def openBracket (s : Lexer) (token : Token) : Option Lexer := do
  let s ← s.noteKey
  if s.outerKeys.length ≥ deepest then none
  return { s.push token 1 true with key? := none, outerKeys := s.key? :: s.outerKeys }

/-- A closing bracket; one that closes nothing is still a token. -/
def closeBracket (s : Lexer) (token : Token) : Option Lexer := do
  let s := (← s.dropKey).push token 1 false
  match s.outerKeys with
  | [] => return s
  | key? :: outerKeys => return { s with key?, outerKeys }

def pushSeparator (s : Lexer) : Option Lexer := do
  return (← s.dropKey).push .separator 1 true

/-- A dash. -/
def pushItem (s : Lexer) : Option Lexer := do
  if !s.inBrackets && !s.keyAllowed then none
  let s ← s.openBlock s.cursor.column s.tokens.size .blockList
  return (← s.dropKey).push .item 1 true

/-- A question mark, which starts a key that may be of any kind. -/
def pushKey (s : Lexer) : Option Lexer := do
  if !s.inBrackets && !s.keyAllowed then none
  let s ← s.openBlock s.cursor.column s.tokens.size .blockMapping
  return (← s.dropKey).push .key 1 (!s.inBrackets)

/-- A colon that makes no key. -/
def pushBareValue (s : Lexer) : Option Lexer := do
  if !s.inBrackets && !s.keyAllowed then none
  let s ← s.openBlock s.cursor.column s.tokens.size .blockMapping
  return s.push .value 1 (!s.inBrackets)

/-- A colon: it makes a key of what stands before it, or follows a key that a question mark started. -/
def pushValue (s : Lexer) : Option Lexer :=
  match s.key? with
  | some k =>
    if k.reaches s.cursor then do
      let s := { s with
        tokens := s.tokens.insertIdxIfInBounds k.place .key
        key? := none }
      return (← s.openBlock k.column k.place .blockMapping).push .value 1 false
    else if k.required then none
    else { s with key? := none : Lexer }.pushBareValue
  | none => s.pushBareValue

def pushAnchor (s : Lexer) (token : String → Token) : Option Lexer := do
  let s ← s.noteKey
  let (name, next) ← anchorName s.cursor.next
  return s.pushTo (token name) next false

def pushTag (s : Lexer) : Option Lexer := do
  let s ← s.noteKey
  let (token, next) ← tag s.cursor
  return s.pushTo token next false

def pushBlock (s : Lexer) (folded : Bool) : Option Lexer := do
  let s ← s.dropKey
  let (text, next) ← block folded s.least s.cursor.next
  return s.pushTo (.scalar (if folded then .folded else .literal) text) next true

def pushQuoted (s : Lexer) (quote : Char) : Option Lexer := do
  let s ← s.noteKey
  let (text, next) ← quoted quote s.cursor
  return s.pushTo (.scalar (if quote == '"' then .double else .single) text) next false

/-- A plain scalar. A key can start behind the lines it was read over. -/
def pushPlain (s : Lexer) : Option Lexer := do
  let s ← s.noteKey
  let (text, next) ← plain s.inBrackets s.least s.cursor
  return s.pushTo (.scalar .plain text) next next.freshLine

/-- The first characters that no plain scalar has by themselves. -/
def indicators : List Char := "-?:,[]\x7b\x7d#&*!|>'\"%@\x60".toList

/-- The token that starts with a character. Some marks are tokens only before a gap or in brackets. -/
def pushToken (s : Lexer) (c : Char) (rest : List Char) : Option Lexer :=
  let flow := s.inBrackets
  let gap := atGap rest
  if c == '[' then s.openBracket .flowList
  else if c == '\x7b' then s.openBracket .flowMapping
  else if c == ']' then s.closeBracket .flowListEnd
  else if c == '\x7d' then s.closeBracket .flowMappingEnd
  else if c == ',' then s.pushSeparator
  else if c == '-' && gap then s.pushItem
  else if c == '?' && (flow || gap) then s.pushKey
  else if c == ':' && (flow || gap) then s.pushValue
  else if c == '*' then s.pushAnchor .reference
  else if c == '&' then s.pushAnchor .anchor
  else if c == '!' then s.pushTag
  else if c == '|' && !flow then s.pushBlock false
  else if c == '>' && !flow then s.pushBlock true
  else if c == '\'' || c == '"' then s.pushQuoted c
  else if c == '-' || c == '?' || c == ':' || !(indicators.contains c || isGap c) then s.pushPlain
  else none

/-- Scans the next token, and tokens for what the layout says before it. The fuel is enough for the
lines that are left. -/
def step (fuel : Nat) (s : Lexer) : Option Lexer :=
  let s := skipGap fuel s
  let s := s.closeBlocks (some s.cursor.column)
  match s.cursor.rest with
  | [] => s.finish
  | c :: rest =>
    if c == '%' && s.cursor.column == 0 then s.pushDirective
    else if s.cursor.atDocumentMark then s.pushDocumentMark
    else (s.pushToken c rest).map skipLineComment

/-- The tokens that can be relied on though the scan cannot go on. -/
def settled (s : Lexer) : List Token :=
  let open_ := (s.key? :: s.outerKeys).filterMap fun key? =>
    key?.filter fun k => k.required || k.reaches s.cursor
  s.tokens.toList.take ((open_.map (·.place)).foldl min (s.tokens.size - 2))

/-- Scans to the end of the text, or as far as it can be scanned. -/
def run : Nat → Lexer → List Token
  | 0, s => s.settled
  | fuel + 1, s =>
    match step (fuel + 1) s with
    | none => s.settled
    | some next => if next.tokens.back? == some .streamEnd then next.tokens.toList else run fuel next

end Lexer

/-- The tokens of a text. -/
def scan (text : List Char) : List Token := Lexer.run (text.length + 1) { cursor := { rest := text } }

end Yaml

end ShaderCost
