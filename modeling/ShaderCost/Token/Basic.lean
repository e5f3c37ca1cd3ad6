import ShaderCost.Text.Bytes

/-! # Tokens of the shading language

A token is a lexeme with its place in the source. The lexeme says all that the grammar looks at:
two sources whose lexemes agree one by one are the same program laid out differently.
-/

namespace ShaderCost

/-- The reserved words. The two Boolean literals are lexemes of their own. -/
inductive Keyword where
  | «attribute» | «break» | centroid | const | «continue» | discard | «do» | «else» | flat | «for»
  | highp | «if» | «in» | inout | invariant | layout | lowp | mediump | noperspective | out
  | precision | «return» | smooth | struct | uniform | varying | «while»
  deriving DecidableEq, Repr, Inhabited

namespace Keyword

def all : List Keyword :=
  [«attribute», «break», centroid, const, «continue», discard, «do», «else», flat, «for», highp,
    «if», «in», inout, invariant, layout, lowp, mediump, noperspective, out, precision, «return»,
    smooth, struct, uniform, varying, «while»]

def text : Keyword → String
  | «attribute» => "attribute"
  | «break» => "break"
  | centroid => "centroid"
  | const => "const"
  | «continue» => "continue"
  | discard => "discard"
  | «do» => "do"
  | «else» => "else"
  | flat => "flat"
  | «for» => "for"
  | highp => "highp"
  | «if» => "if"
  | «in» => "in"
  | inout => "inout"
  | invariant => "invariant"
  | layout => "layout"
  | lowp => "lowp"
  | mediump => "mediump"
  | noperspective => "noperspective"
  | out => "out"
  | precision => "precision"
  | «return» => "return"
  | smooth => "smooth"
  | struct => "struct"
  | uniform => "uniform"
  | varying => "varying"
  | «while» => "while"

/-- The reserved word with the given spelling. -/
def ofText? (s : String) : Option Keyword := all.find? (·.text == s)

end Keyword

/-- Operators and delimiters. -/
inductive Symbol where
  | plus | minus | star | slash | percent | amp | pipe | caret | tilde | bang | less | greater
  | equals | dot | question
  | plusPlus | minusMinus | ampAmp | pipePipe | caretCaret | lessLess | greaterGreater
  | lessEquals | greaterEquals | equalsEquals | bangEquals
  | plusEquals | minusEquals | starEquals | slashEquals | percentEquals | ampEquals | pipeEquals
  | caretEquals | lessLessEquals | greaterGreaterEquals
  | leftParen | rightParen | leftBrace | rightBrace | leftBracket | rightBracket
  | semicolon | colon | comma
  deriving DecidableEq, Repr, Inhabited

namespace Symbol

def all : List Symbol :=
  [plus, minus, star, slash, percent, amp, pipe, caret, tilde, bang, less, greater, equals, dot,
    question, plusPlus, minusMinus, ampAmp, pipePipe, caretCaret, lessLess, greaterGreater,
    lessEquals, greaterEquals, equalsEquals, bangEquals, plusEquals, minusEquals, starEquals,
    slashEquals, percentEquals, ampEquals, pipeEquals, caretEquals, lessLessEquals,
    greaterGreaterEquals, leftParen, rightParen, leftBrace, rightBrace, leftBracket, rightBracket,
    semicolon, colon, comma]

def text : Symbol → String
  | plus => "+"
  | minus => "-"
  | star => "*"
  | slash => "/"
  | percent => "%"
  | amp => "&"
  | pipe => "|"
  | caret => "^"
  | tilde => "~"
  | bang => "!"
  | less => "<"
  | greater => ">"
  | equals => "="
  | dot => "."
  | question => "?"
  | plusPlus => "++"
  | minusMinus => "--"
  | ampAmp => "&&"
  | pipePipe => "||"
  | caretCaret => "^^"
  | lessLess => "<<"
  | greaterGreater => ">>"
  | lessEquals => "<="
  | greaterEquals => ">="
  | equalsEquals => "=="
  | bangEquals => "!="
  | plusEquals => "+="
  | minusEquals => "-="
  | starEquals => "*="
  | slashEquals => "/="
  | percentEquals => "%="
  | ampEquals => "&="
  | pipeEquals => "|="
  | caretEquals => "^="
  | lessLessEquals => "<<="
  | greaterGreaterEquals => ">>="
  | leftParen => "("
  | rightParen => ")"
  | leftBrace => "\x7b"
  | rightBrace => "\x7d"
  | leftBracket => "["
  | rightBracket => "]"
  | semicolon => ";"
  | colon => ":"
  | comma => ","

/-- The bytes of the symbol; all are ASCII. -/
def bytes (s : Symbol) : Bytes := s.text.toList.map Byte.ofChar

/-- All symbols, the longer ones first: the first that fits is the longest. -/
def longestFirst : List Symbol :=
  [3, 2, 1].flatMap fun size => all.filter (·.text.length == size)

end Symbol

/-- Why the scanner cannot read a lexeme. -/
inductive LexError where
  | unexpected (byte : UInt8)
  | reservedName (name : String)
  | malformedHex
  | malformedExponent
  | invalidSuffix
  deriving DecidableEq, Repr, Inhabited

/-- The wording of a lexical error; an unexpected byte is shown as the character with its code. -/
def LexError.message : LexError → String
  | unexpected byte => "unexpected character " ++ (Byte.toChar byte).toString
  | reservedName name => "identifiers containing __ are reserved: " ++ name
  | malformedHex => "malformed hex literal"
  | malformedExponent => "malformed exponent"
  | invalidSuffix => "invalid suffix on numeric literal"

/-- What a token is, apart from where it stands. Numbers keep their spelling without a suffix. -/
inductive Lexeme where
  | bad (error : LexError)
  | endOfInput
  | int (digits : String)
  | uint (digits : String)
  | float (digits : String)
  | bool (value : Bool)
  | name (text : String)
  | directive (text : Bytes)
  | keyword (word : Keyword)
  | symbol (mark : Symbol)
  deriving DecidableEq, Repr, Inhabited

namespace Lexeme

/-- The kinds of tokens by name: the open classes, then the reserved words, then the symbols. -/
def kindNames : List String :=
  ["error", "EOF", "int", "uint", "float", "true", "false", "identifier", "directive"] ++
    Keyword.all.map Keyword.text ++ Symbol.all.map Symbol.text

def kindName : Lexeme → String
  | bad _ => "error"
  | endOfInput => "EOF"
  | int _ => "int"
  | uint _ => "uint"
  | float _ => "float"
  | bool true => "true"
  | bool false => "false"
  | name _ => "identifier"
  | directive _ => "directive"
  | keyword word => word.text
  | symbol mark => mark.text

/-- The text a lexeme carries. -/
def value : Lexeme → Bytes
  | bad error => error.message
  | endOfInput => []
  | int digits => digits
  | uint digits => digits
  | float digits => digits
  | bool true => "true"
  | bool false => "false"
  | name text => text
  | directive text => text
  | keyword word => word.text
  | symbol mark => mark.text

/-- How a complaint names the lexeme it met. -/
def describe : Lexeme → String
  | int digits => "'" ++ digits ++ "'"
  | uint digits => "'" ++ digits ++ "'"
  | float digits => "'" ++ digits ++ "'"
  | name text => "'" ++ text ++ "'"
  | bad error => error.message
  | other => other.kindName

/-- Whether scanning stops after this lexeme. -/
def isLast : Lexeme → Bool
  | bad _ => true
  | endOfInput => true
  | _ => false

end Lexeme

/-- A lexeme at its place: the byte range `[start, stop)`, and the line and column of its first
byte, both counted from one. -/
structure Token where
  lexeme : Lexeme
  start : Nat
  stop : Nat
  line : Nat
  column : Nat
  deriving DecidableEq, Repr, Inhabited

/-- What the grammar sees past the last token: an end of input that stands nowhere. -/
def Token.nowhere : Token := ⟨.endOfInput, 0, 0, 0, 0⟩

end ShaderCost
