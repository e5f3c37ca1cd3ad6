import ShaderCost.Text.Quoted

/-! # The command line

Arguments are flags and paths in any order. A flag has a long name behind two hyphens and sometimes a
letter behind one. Flags that take a text read it behind an equals sign, from the rest of a group of
letters, or from the next argument; switches take a value only behind an equals sign. Two hyphens
alone end the flags.
-/

namespace ShaderCost

namespace Quoted

/-- A character between single quotes, with escapes. -/
def quoteChar (c : Char) : String :=
  let text := if c == '\'' then "\\'" else if c == '"' then "\"" else escape c
  "'" ++ text ++ "'"

end Quoted

/-- The flags, in the order of their names. -/
inductive Flag where
  | config | format | generateConfig | help | identity | nesting | output | recursion | verbose
  | watch
  deriving DecidableEq, Repr, Inhabited

namespace Flag

def all : List Flag :=
  [config, format, generateConfig, help, identity, nesting, output, recursion, verbose, watch]

def name : Flag → String
  | config => "config"
  | format => "format"
  | generateConfig => "generate-config"
  | help => "help"
  | identity => "identity"
  | nesting => "nesting"
  | output => "output"
  | recursion => "recursion"
  | verbose => "verbose"
  | watch => "watch"

def letter? : Flag → Option Char
  | config => some 'c'
  | format => some 'f'
  | help => some 'h'
  | output => some 'o'
  | verbose => some 'v'
  | watch => some 'w'
  | _ => none

/-- The flag is on or off, and takes no text. -/
def isSwitch : Flag → Bool
  | generateConfig | help | verbose | watch => true
  | _ => false

def description : Flag → String
  | config => "Path to configuration file"
  | format => "Output format (console, json, html) (default \"console\")"
  | generateConfig => "Generate sample configuration file"
  | help => "help for shadertune"
  | identity => "Function identity (name, signature)"
  | nesting => "Loop nesting policy (additive, multiplicative)"
  | output => "Write the report to this file"
  | recursion => "Recursion handling (error, partial)"
  | verbose => "Show configuration, loops and pass traces"
  | watch => "Re-analyze shaders when they change"

/-- Both names of a flag, as errors show them. -/
def title (f : Flag) : String :=
  match f.letter? with
  | some c => "-" ++ c.toString ++ ", --" ++ f.name
  | none => "--" ++ f.name

def ofName? (name : String) : Option Flag := all.find? (·.name == name)

def ofLetter? (c : Char) : Option Flag := all.find? (·.letter? == some c)

/-- A flag as the usage lists it, without its description. -/
def synopsis (f : Flag) : String :=
  let names := match f.letter? with
    | some c => "  -" ++ c.toString ++ ", --" ++ f.name
    | none => "      --" ++ f.name
  if f.isSwitch then names else names ++ " string"

/-- The lines of the usage, with the descriptions in one column. -/
def usageLines : List String :=
  let width := (all.map (·.synopsis.length)).foldl max 0 + 3
  all.map fun f =>
    f.synopsis ++ String.ofList (List.replicate (width - f.synopsis.length) ' ') ++ f.description

end Flag

/-- What is wrong with a command line. -/
inductive FlagError where
  | badSyntax (argument : String)
  | unknown (name : String)
  /-- The letter is shown by its first byte. -/
  | unknownLetter (letter : Char) (group : String)
  | needsText (argument : String)
  | letterNeedsText (letter : Char) (group : String)
  | notBoolean (flag : Flag) (value : String)
  deriving DecidableEq, Repr, Inhabited

/-- The character whose code is the first byte of a character. -/
def firstByte (c : Char) : Char :=
  match String.utf8EncodeChar c with
  | b :: _ => Char.ofNat b.toNat
  | [] => c

def FlagError.message : FlagError → String
  | badSyntax argument => "bad flag syntax: " ++ argument
  | unknown name => "unknown flag: --" ++ name
  | unknownLetter letter group =>
    "unknown shorthand flag: " ++ Quoted.quoteChar (firstByte letter) ++ " in -" ++ group
  | needsText argument => "flag needs an argument: " ++ argument
  | letterNeedsText letter group =>
    "flag needs an argument: " ++ Quoted.quoteChar letter ++ " in -" ++ group
  | notBoolean flag value =>
    "invalid argument " ++ Quoted.quote value ++ " for " ++ Quoted.quote flag.title ++
      " flag: strconv.ParseBool: parsing " ++ Quoted.quote value ++ ": invalid syntax"

/-- The values given to flags, the later ones first. Switches hold one of two texts. -/
structure CommandLine where
  values : List (Flag × String) := []
  paths : List String := []
  deriving DecidableEq, Repr, Inhabited

namespace CommandLine

/-- The spellings of a switch that is on. -/
def onWords : List String := ["1", "t", "T", "TRUE", "true", "True"]

/-- The spellings of a switch that is off. -/
def offWords : List String := ["0", "f", "F", "FALSE", "false", "False"]

/-- The text of a flag, if it was given. -/
def text? (c : CommandLine) (f : Flag) : Option String := c.values.lookup f

/-- Whether a switch is on, if it was given. -/
def switch? (c : CommandLine) (f : Flag) : Option Bool := (c.text? f).map onWords.contains

/-- A switch was turned on. -/
def isOn (c : CommandLine) (f : Flag) : Bool := (c.switch? f).getD false

/-! ## Reading -/

/-- A flag that waits for its text, with the error if none comes. -/
abbrev Waiting := Flag × FlagError

/-- Gives a value to a flag. -/
def set (c : CommandLine) (f : Flag) (value : String) : Except FlagError CommandLine :=
  if f.isSwitch && !onWords.contains value && !offWords.contains value then
    .error (.notBoolean f value)
  else .ok { c with values := (f, value) :: c.values }

/-- Reads an argument behind two hyphens. -/
def readLong (c : CommandLine) (argument : String) (body : List Char) :
    Except FlagError (CommandLine × Option Waiting) := do
  let name := String.ofList (body.takeWhile (· != '='))
  let value := (body.dropWhile (· != '=')).tail?
  if name.isEmpty || body.head? == some '-' then .error (.badSyntax argument)
  match Flag.ofName? name, value with
  | none, _ => .error (.unknown name)
  | some f, some value => return (← c.set f (String.ofList value), none)
  | some f, none =>
    if f.isSwitch then return (← c.set f "true", none)
    else return (c, some (f, .needsText argument))

/-- What a group of letters starts with when it is meant for a test run. -/
def testMark : List Char := "test.".toList

/-- Reads a group of letters behind one hyphen. What is meant for a test run is passed over. -/
def readLetters (c : CommandLine) : List Char → Except FlagError (CommandLine × Option Waiting)
  | [] => .ok (c, none)
  | letter :: rest =>
    let group := String.ofList (letter :: rest)
    if testMark.isPrefixOf (letter :: rest) then .ok (c, none)
    else match Flag.ofLetter? letter, rest with
    | none, _ => .error (.unknownLetter letter group)
    | some f, '=' :: v :: value => do return (← c.set f (String.ofList (v :: value)), none)
    | some f, _ =>
      if f.isSwitch then do readLetters (← c.set f "true") rest
      else if rest.isEmpty then .ok (c, some (f, .letterNeedsText letter group))
      else do return (← c.set f (String.ofList rest), none)

/-- How far the arguments have been read. -/
structure Progress where
  line : CommandLine := {}
  waiting : Option Waiting := none
  /-- All that follows is a path. -/
  pathsOnly : Bool := false

/-- Reads one more argument. -/
def readArgument (p : Progress) (argument : String) : Except FlagError Progress :=
  let asPath := { p with line := { p.line with paths := p.line.paths ++ [argument] } }
  match p.waiting with
  | some (f, _) => do return { p with line := ← p.line.set f argument, waiting := none }
  | none =>
    if p.pathsOnly then .ok asPath
    else
      match argument.toList with
      | ['-', '-'] => .ok { p with pathsOnly := true }
      | '-' :: '-' :: body => do
        let (line, waiting) ← p.line.readLong argument body
        return { p with line, waiting }
      | '-' :: letter :: rest => do
        let (line, waiting) ← p.line.readLetters (letter :: rest)
        return { p with line, waiting }
      | _ => .ok asPath

/-- Reads the arguments; the first that cannot be read is the error. -/
def parse (arguments : List String) : Except FlagError CommandLine := do
  let p ← arguments.foldlM readArgument {}
  match p.waiting with
  | some (_, error) => .error error
  | none => return p.line

end CommandLine

end ShaderCost
