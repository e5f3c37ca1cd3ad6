import ShaderCost.Grammar.Literal
import ShaderCost.Grammar.Parser
import ShaderCost.Token.Lexer

/-! # Directives

Lines that begin with `#`. Versions, extensions, pragmas and line numbers are passed over, a
definition must name one literal with at most one minus sign before it, and conditional compilation is
refused: the tree of a shader must not depend on it.
-/

namespace ShaderCost.Directive

open ShaderCost.Parser

def ignored : List Bytes := ["version", "extension", "pragma", "line"].map Bytes.ofString

def unsupported : List Bytes :=
  ["if", "ifdef", "ifndef", "elif", "else", "endif", "undef"].map Bytes.ofString

/-- The literal in the body of a definition, and whether a minus sign stands before it. -/
def literalOf? (body : List Token) : Option (Lexeme × Bool) :=
  match body.map Token.lexeme with
  | [.symbol .minus, lexeme, .endOfInput] => some (lexeme, true)
  | [lexeme, .endOfInput] => some (lexeme, false)
  | _ => none

/-- The spelling of a number. -/
def spelling : Lexeme → String
  | .int text | .uint text | .float text => text
  | other => other.kindName

/-- A definition, given as the words behind `define`. -/
def define (token : Token) : List Bytes → Parser Unit
  | [] => failAt token .macroWithoutName
  | name :: body => do
    if name.contains (Byte.ofChar '(') then failAt token (.functionLikeMacro name)
    match literalOf? (tokenize (Bytes.join [Byte.space] body)) with
    | none => failAt token (.macroNotLiteral name)
    | some (lexeme, negated) =>
      match Literal.value lexeme with
      | .error .tooBig => failAt token (.literalTooBig (spelling lexeme))
      | .error .malformed => failAt token (.macroNotLiteral name)
      | .ok value =>
        let value := if negated then value.negate else value
        modify fun s => { s with macros := { name, value } :: s.macros }

/-- A directive, whose token is already consumed. -/
def parse (token : Token) (text : Bytes) : Parser Unit := do
  match text.words with
  | [] => return
  | name :: rest =>
    if ignored.contains name then return
    else if name == Bytes.ofString "define" then define token rest
    else if unsupported.contains name then failAt token (.unsupportedDirective name)
    else failAt token (.unknownDirective name)

end ShaderCost.Directive
