import ShaderCost.Shape.Basic
import ShaderCost.Token.Basic

/-! # Complaints

Why a shader is refused. Reading stops at the first complaint, so a refusal is one complaint with the
place of one token. The texts of directives and macro names may hold any bytes, which is why a
message is a byte string.
-/

namespace ShaderCost

inductive Complaint where
  /-- The token could not be read at all. -/
  | lexical (error : LexError)
  -- tokens
  | expected (kind : String) (met : Lexeme)
  | expectedPrecision
  | expectedType (met : Lexeme)
  | unexpected (met : Lexeme)
  | unexpectedEnd
  | unterminatedParenthesis
  -- directives and literals
  | unsupportedDirective (name : Bytes)
  | unknownDirective (name : Bytes)
  | macroWithoutName
  | functionLikeMacro (name : Bytes)
  | macroNotLiteral (name : Bytes)
  | literalTooBig (text : String)
  | invalidLiteral (text : String)
  -- declarations
  | unknownType (name : String)
  | redefinition (name : String)
  | duplicateField (name : String)
  | arrayOfArrays
  | badArraySize
  | illegalVoid
  | cannotInitialize (name : String)
  | cannotConvert (source target : Shape)
  | uninitializedConst (name : String)
  | redefinesBuiltin (name : String)
  | resultMismatch (name : String)
  | alreadyHasBody (name : String)
  -- expressions
  | booleanExpected
  | readOnlyTarget (op : Symbol) (name : String)
  | notATarget (op : Symbol)
  | wrongOperands (op : Symbol) (left right : Shape)
  | noSuchOperation (op : Symbol) (left right : Shape)
  | wrongPlusOperand
  | wrongOperand (op : Symbol) (operand : Shape)
  | notIndexable
  | integerIndexRequired
  | indexOutOfRange (index : Int)
  | noSuchField (name : String)
  | notSelectable (name : String)
  | illegalSwizzle (name : String)
  | undeclared (name : String)
  | functionNameExpected (name : String)
  | noMatchingFunction (name : String)
  -- constructors
  | constructorWithoutArguments (target : Shape)
  | constructorFieldCount (target : Shape)
  | constructorField (target : Shape) (position : Nat) (source field : Shape)
  | notConstructible (target : Shape)
  | constructorArgument (target : Shape) (position : Nat) (source : Shape)
  | constructorTooMany (target : Shape)
  | constructorNotEnough (target : Shape)
  /-- The depth allowance ran out, which the number of tokens rules out. -/
  | exhausted
  /-- What a rule relies on is not there, which the rules before it rule out. -/
  | lost
  deriving DecidableEq, Repr, Inhabited

namespace Complaint

/-- What stands between quotes before the colon, and the rest of the message. -/
def about (subject text : String) : Bytes := "'" ++ subject ++ "' : " ++ text

def message : Complaint → Bytes
  | lexical error => error.message
  | expected kind met => "expected " ++ kind ++ ", got " ++ met.describe
  | expectedPrecision => "expected precision qualifier"
  | expectedType met => "expected type, got " ++ met.describe
  | unexpected met => "syntax error: unexpected " ++ met.describe
  | unexpectedEnd => "unexpected end of file, expected \x7d"
  | unterminatedParenthesis => "unterminated parenthesis"
  | unsupportedDirective name =>
    Bytes.ofString "preprocessor directive #" ++ name ++ Bytes.ofString " is not supported"
  | unknownDirective name => Bytes.ofString "unknown preprocessor directive #" ++ name
  | macroWithoutName => "#define requires a name"
  | functionLikeMacro name =>
    Bytes.ofString "function-like macro " ++ name ++ Bytes.ofString " is not supported"
  | macroNotLiteral name =>
    Bytes.ofString "macro " ++ name ++ Bytes.ofString " must expand to a single literal"
  | literalTooBig text => about text "integer literal too big"
  | invalidLiteral text => about text "invalid literal"
  | unknownType name => about name "unknown type"
  | redefinition name => about name "redefinition"
  | duplicateField name => about name "duplicate field name"
  | arrayOfArrays => "arrays of arrays are not supported"
  | badArraySize => "array size must be a positive integer constant"
  | illegalVoid => "illegal use of type 'void'"
  | cannotInitialize name => about name "cannot initialize this type of qualifier"
  | cannotConvert source target =>
    about "=" ("cannot convert from '" ++ source.text ++ "' to '" ++ target.text ++ "'")
  | uninitializedConst name => about name "variables with qualifier 'const' must be initialized"
  | redefinesBuiltin name => about name "cannot redefine a built-in function"
  | resultMismatch name => about name "overloaded functions must have the same return type"
  | alreadyHasBody name => about name "function already has a body"
  | booleanExpected => "boolean expression expected"
  | readOnlyTarget op name =>
    about op.text ("l-value required (can't modify a const or uniform '" ++ name ++ "')")
  | notATarget op => about op.text "l-value required"
  | wrongOperands op left right =>
    about op.text ("wrong operand types: '" ++ left.text ++ "' and '" ++ right.text ++ "'")
  | noSuchOperation op left right =>
    about op.text ("wrong operand types: no operation '" ++ op.text ++
      "' exists that takes a left-hand operand of type '" ++ left.text ++
      "' and a right operand of type '" ++ right.text ++ "'")
  | wrongPlusOperand => about "+" "wrong operand type"
  | wrongOperand op operand => about op.text ("wrong operand type '" ++ operand.text ++ "'")
  | notIndexable => about "[" "left of '[' is not of type array, matrix, or vector"
  | integerIndexRequired => about "[" "integer expression required"
  | indexOutOfRange index => about "[" ("index out of range '" ++ toString index ++ "'")
  | noSuchField name => about name "no such field in structure"
  | notSelectable name =>
    about name "field selection requires structure, vector, or scalar on left hand side"
  | illegalSwizzle name => about name "vector swizzle selection out of range or illegal"
  | undeclared name => about name "undeclared identifier"
  | functionNameExpected name => about name "function name expected"
  | noMatchingFunction name => about name "no matching overloaded function found"
  | constructorWithoutArguments target =>
    about target.text "constructor does not have any arguments"
  | constructorFieldCount target =>
    about target.text
      "Number of constructor parameters does not match the number of structure fields"
  | constructorField target position source field =>
    about target.text ("cannot convert parameter " ++ toString position ++ " from '" ++
      source.text ++ "' to '" ++ field.text ++ "'")
  | notConstructible target => about target.text "cannot construct this type"
  | constructorArgument target position source =>
    about target.text
      ("cannot convert parameter " ++ toString position ++ " from '" ++ source.text ++ "'")
  | constructorTooMany target => about target.text "too many arguments"
  | constructorNotEnough target => about target.text "not enough data provided for construction"
  | exhausted => "nesting too deep"
  | lost => "reference to nothing"

end Complaint

/-- A complaint at the place of a token. -/
structure ParseError where
  complaint : Complaint
  line : Nat
  column : Nat
  deriving DecidableEq, Repr, Inhabited

namespace ParseError

def message (e : ParseError) : Bytes := e.complaint.message

/-- The complaint behind its line and column. -/
def text (e : ParseError) : Bytes :=
  Bytes.ofString (toString e.line ++ ":" ++ toString e.column ++ ": ") ++ e.message

end ParseError

end ShaderCost
