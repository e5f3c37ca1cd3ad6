import ShaderCost.Yaml.Basic
import ShaderCost.Yaml.Token.Lexer

/-! # Reading documents

A settings file is its first document; what follows is not read, but for the token right behind it.
The tokens are read from left to right, and a value is known by its first one. Values that are left
out are nothing: behind a dash, behind a key, and behind a name or a tag without a value.

A text that breaks the rules has no value; why is not recorded.
-/

namespace ShaderCost

namespace Yaml

/-- How far the tokens have been read. -/
structure Progress where
  tokens : List Token
  /-- What the handles of tags stand for. -/
  handles : List (String × String) := []
  /-- The numbers of the names, the latest first. -/
  names : List (String × Nat) := []
  /-- The named values that are complete. -/
  named : List (Nat × Yaml) := []
  /-- The next number. -/
  fresh : Nat := 0

/-- Reads some of the tokens, unless they break the rules. -/
abbrev Reading := StateT Progress Option

namespace Reading

/-- The next token, which stays where it is. -/
def peek : Reading Token := do
  match (← get).tokens with
  | token :: _ => return token
  | [] => failure

def skip : Reading Unit := modify fun p => { p with tokens := p.tokens.tail }

/-- The next token is passed over; it must be the one that is expected. -/
def expect (token : Token) : Reading Unit := do
  if (← peek) != token then failure
  skip

/-- Passes over the next token if it is the one given. -/
def accept (token : Token) : Reading Bool := do
  if (← peek) == token then
    skip
    return true
  else return false

def number : Reading Nat := do
  let p ← get
  set { p with fresh := p.fresh + 1 }
  return p.fresh

/-! ## Names and tags -/

/-- The tags of the language itself are written with two marks. -/
def ownTags : String := "tag:yaml.org,2002:"

/-- A tag without its handle. The tags of the language are shortened again. -/
def tagText (handle suffix : String) : Reading String := do
  let full ←
    if handle.isEmpty then pure suffix
    else
      match (← get).handles.lookup handle with
      | some target => pure (target ++ suffix)
      | none => failure
  if ownTags.toList.isPrefixOf full.toList then
    return "!!" ++ String.ofList (full.toList.drop ownTags.length)
  else return full

/-- What can stand in front of a value. -/
structure Properties where
  name : Option String := none
  tag : Option String := none

def Properties.isEmpty (p : Properties) : Bool := p.name.isNone && p.tag.isNone

def anchor? : Reading (Option String) := do
  match ← peek with
  | .anchor name =>
    skip
    return some name
  | _ => return none

def tag? : Reading (Option String) := do
  match ← peek with
  | .tag handle suffix =>
    skip
    return some (← tagText handle suffix)
  | _ => return none

/-- A name and a tag in either order; both, one or none of them. -/
def properties : Reading Properties := do
  let name ← anchor?
  let tag ← tag?
  let name ← if name.isNone then anchor? else pure name
  return { name, tag }

/-- Reads a value that has a name, if there is one. References inside of the value know it already. -/
def withName (name : Option String) (read : Reading Yaml) : Reading Yaml := do
  match name with
  | none => read
  | some name =>
    let n ← number
    modify fun p => { p with names := (name, n) :: p.names }
    let value ← read
    modify fun p => { p with named := (n, value) :: p.named }
    return value

/-- A value that refers to one that has been named before. -/
def referenceTo (name : String) : Reading Yaml := do
  match (← get).names.lookup name with
  | some target => return .reference name (← number) target
  | none => failure

/-! ## Values -/

/-- A tag that consists of a single mark says nothing. -/
def scalarOf (style : ScalarStyle) (tag : Option String) (text : String) : Yaml :=
  .scalar { style, tag := tag.filter (· != "!"), text }

/-- A value that is left out, behind a name or a tag. -/
def absent (given : Properties) : Reading Yaml :=
  if given.isEmpty then failure else pure (scalarOf .plain given.tag "")

mutual

/-- A value. Blocks are read where they are allowed, and a list without a block of its own where that
is allowed. -/
def value (block bareList : Bool) : Nat → Reading Yaml
  | 0 => failure
  | fuel + 1 => do
    match ← peek with
    | .reference name =>
      skip
      referenceTo name
    | _ =>
      let given ← properties
      withName given.name do
        match ← peek with
        | .scalar style text =>
          skip
          return scalarOf style given.tag text
        | .flowList =>
          skip
          return .list (← flowItems true fuel)
        | .flowMapping =>
          skip
          return .mapping (← flowEntries true fuel)
        | .blockList =>
          if block then
            skip
            return .list (← blockItems fuel)
          else absent given
        | .blockMapping =>
          if block then
            skip
            return .mapping (← blockEntries fuel)
          else absent given
        | .item => if bareList then return .list (← bareItems fuel) else absent given
        | _ => absent given

/-- A value, unless the next token shows that it is left out. -/
def valueUnless (ends : List Token) (block bareList : Bool) : Nat → Reading Yaml
  | 0 => failure
  | fuel + 1 => do
    if ends.contains (← peek) then return nothing else value block bareList fuel

/-- The items of a block up to its end. -/
def blockItems : Nat → Reading (List Yaml)
  | 0 => failure
  | fuel + 1 => do
    if ← accept .blockEnd then return []
    expect .item
    let first ← valueUnless [.item, .blockEnd] true false fuel
    return first :: (← blockItems fuel)

/-- The items of a list in the column of the keys around it; it ends with the last of them. -/
def bareItems : Nat → Reading (List Yaml)
  | 0 => failure
  | fuel + 1 => do
    if ← accept .item then
      let first ← valueUnless [.item, .key, .value, .blockEnd] true false fuel
      return first :: (← bareItems fuel)
    else return []

/-- The entries of a block up to its end. -/
def blockEntries : Nat → Reading (List (Yaml × Yaml))
  | 0 => failure
  | fuel + 1 => do
    if ← accept .blockEnd then return []
    expect .key
    let ends := [Token.key, .value, .blockEnd]
    let key ← valueUnless ends true true fuel
    let held ← if ← accept .value then valueUnless ends true true fuel else pure nothing
    return (key, held) :: (← blockEntries fuel)

/-- The items in brackets up to the closing one. An item may be a single entry of a mapping. -/
def flowItems (isFirst : Bool) : Nat → Reading (List Yaml)
  | 0 => failure
  | fuel + 1 => do
    if ← accept .flowListEnd then return []
    if !isFirst then expect .separator
    if ← accept .flowListEnd then return []
    let first ← if ← accept .key then flowPair fuel else value false false fuel
    return first :: (← flowItems false fuel)

/-- A single entry as an item. Where its key is left out, the token after the place of the key is
passed over. -/
def flowPair : Nat → Reading Yaml
  | 0 => failure
  | fuel + 1 => do
    let ends := [Token.separator, .flowListEnd]
    let key ←
      if (Token.value :: ends).contains (← peek) then
        skip
        pure nothing
      else value false false fuel
    let held ← if ← accept .value then valueUnless ends false false fuel else pure nothing
    return .mapping [(key, held)]

/-- The entries in braces up to the closing one. A value by itself is a key without a value. -/
def flowEntries (isFirst : Bool) : Nat → Reading (List (Yaml × Yaml))
  | 0 => failure
  | fuel + 1 => do
    if ← accept .flowMappingEnd then return []
    if !isFirst then expect .separator
    if ← accept .flowMappingEnd then return []
    let ends := [Token.separator, .flowMappingEnd]
    if ← accept .key then
      let key ← valueUnless (.value :: ends) false false fuel
      let held ← if ← accept .value then valueUnless ends false false fuel else pure nothing
      return (key, held) :: (← flowEntries false fuel)
    else
      let key ← value false false fuel
      return (key, nothing) :: (← flowEntries false fuel)

end

/-! ## Documents -/

/-- The directives in front of a document. The version can only be the one that is read, and nothing
is declared twice. -/
def directives (versioned : Bool) : Nat → Reading Unit
  | 0 => failure
  | fuel + 1 => do
    match ← peek with
    | .versionDirective major minor =>
      if versioned || major != 1 || minor != 1 then failure
      skip
      directives true fuel
    | .tagDirective handle target =>
      if ((← get).handles.lookup handle).isSome then failure
      skip
      modify fun p => { p with handles := (handle, target) :: p.handles }
      directives versioned fuel
    | _ => return

/-- Handles stand for themselves and for the tags of the language, unless they are declared. -/
def defaultHandles : Reading Unit :=
  modify fun p => { p with handles := p.handles ++ [("!", "!"), ("!!", ownTags)] }

/-- The value of the first document; of a text without one it is nothing. The token behind the value
must have been scanned. -/
def document (fuel : Nat) : Reading Yaml := do
  match ← peek with
  | .streamEnd => return nothing
  | .versionDirective _ _ | .tagDirective _ _ | .documentStart =>
    directives false fuel
    defaultHandles
    expect .documentStart
    match ← peek with
    | .versionDirective _ _ | .tagDirective _ _ | .documentStart | .documentEnd | .streamEnd =>
      return nothing
    | _ =>
      let value ← value true false fuel
      let _ ← peek
      return value
  | _ =>
    defaultHandles
    let value ← value true false fuel
    let _ ← peek
    return value

end Reading

/-- The first document of a list of tokens. -/
def Document.ofTokens? (tokens : List Token) : Option Document := do
  let size := tokens.length
  let (value, p) ← (Reading.document (3 * size + 3)).run { tokens }
  return { value, named := p.named, reach := (size + 1) * (size + 1) }

/-- The document that a text holds. -/
def parse? (text : String) : Option Document := do
  Document.ofTokens? (scan (← characters? text))

end Yaml

end ShaderCost
