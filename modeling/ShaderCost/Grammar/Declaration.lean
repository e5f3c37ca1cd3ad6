import ShaderCost.Grammar.Expression

/-! # Declarations

Qualifiers, type specifiers and declarators. A declaration with an initialiser becomes an assignment
to the variable, unless it gives a constant scalar a literal value: then the variable stands for that
value and leaves no trace in the tree but the literal itself.
-/

namespace ShaderCost.Declaration

open ShaderCost.Parser
open ShaderCost.Expression (Naming)

variable [Naming]

/-! ## Qualifiers -/

/-- What the qualifiers of a declaration say about writing to it. -/
structure Qualifiers where
  isConst : Bool := false
  isUniform : Bool := false
  deriving DecidableEq, Repr, Inhabited

/-- Qualifiers without a bearing on the tree. -/
def isPlainQualifier : Keyword → Bool
  | .varying | .in | .out | .inout | .centroid | .flat | .smooth | .noperspective | .invariant
  | .highp | .mediump | .lowp => true
  | _ => false

/-- Keywords that can begin a declaration. -/
def startsWith : Keyword → Bool
  | .const | .uniform | .attribute | .layout | .struct => true
  | other => isPlainQualifier other

/-- Passes over one token inside `depth` open parentheses. -/
def parenthesesStep (depth : Nat) : Parser (Turn Nat Unit) := do
  let token ← advance
  match token.lexeme with
  | .symbol .leftParen => return .again (depth + 1)
  | .symbol .rightParen => if depth ≤ 1 then return .stop () else return .again (depth - 1)
  | .endOfInput => fail .unterminatedParenthesis
  | _ => return .again depth

/-- Passes over a balanced pair of parentheses. -/
def skipParentheses : Parser Unit := do
  let _ ← expect .leftParen
  loop parenthesesStep 1

/-- One more qualifier. -/
def qualifierStep (q : Qualifiers) : Parser (Turn Qualifiers Qualifiers) := do
  match (← current).lexeme with
  | .keyword .const =>
    let _ ← advance
    return .again { q with isConst := true }
  | .keyword .uniform | .keyword .attribute =>
    let _ ← advance
    return .again { q with isUniform := true }
  | .keyword .layout =>
    let _ ← advance
    skipParentheses
    return .again q
  | .keyword word =>
    if isPlainQualifier word then
      let _ ← advance
      return .again q
    else return .stop q
  | _ => return .stop q

/-- All qualifiers in front. -/
def qualifiers : Parser Qualifiers := loop qualifierStep {}

/-- The precision of a precision statement. -/
def precision : Parser Unit := do
  match (← current).lexeme with
  | .keyword .highp | .keyword .mediump | .keyword .lowp =>
    let _ ← advance
    return
  | _ => fail .expectedPrecision

/-! ## Types -/

/-- The length of an array behind a name, if there is one. -/
def arraySuffix (shape : Shape) : Parser Shape := do
  if !(← accept .leftBracket) then return shape
  if shape.isArray then fail .arrayOfArrays
  let token ← current
  let size ← nodeAt (← Expression.parseConditional)
  match size.constant?.bind Constant.integer? with
  | none => failAt token .badArraySize
  | some length =>
    if length ≤ 0 then failAt token .badArraySize
    let _ ← expect .rightBracket
    return { shape with arrayLength := length }

/-- One name of a field declaration, with the comma behind it. -/
def fieldStep (shape : Shape) (fields : List Field) : Parser (Turn (List Field) (List Field)) := do
  let (token, name) ← expectName
  let fieldShape ← arraySuffix shape
  if fields.any (·.name == name) then failAt token (.duplicateField name)
  let fields := fields ++ [{ name, shape := fieldShape }]
  if ← accept .comma then return .again fields else return .stop fields

/-- One field declaration of a structure, or its closing brace. -/
def memberStep (specifier : Parser Shape) (fields : List Field) :
    Parser (Turn (List Field) (List Field)) := do
  if ← accept .rightBrace then return .stop fields
  let _ ← qualifiers
  let shape ← specifier
  let fields ← loop (fieldStep shape) fields
  let _ ← expect .semicolon
  return .again fields

/-- A structure with its fields. Its name is taken once the fields are complete. -/
def structSpecifier (specifier : Parser Shape) : Parser Shape := do
  let _ ← expectKeyword .struct
  let (token, name) ← expectName
  if (← get).isTypeName name then failAt token (.redefinition name)
  let _ ← expect .leftBrace
  let fields ← loop (memberStep specifier) []
  modify fun s => { s with structs := { name, fields } :: s.structs }
  return .ofStruct name

/-- A type name or a structure. Types have one rule, which fields call again. -/
def specifierRule (self : Unit → Parser Shape) (_ : Unit) : Parser Shape := do
  let token ← current
  match token.lexeme with
  | .keyword .struct => structSpecifier (self ())
  | .name name =>
    let _ ← advance
    match (← get).type? name with
    | some shape => return shape
    | none => failAt token (.unknownType name)
  | other => fail (.expectedType other)

/-- A type specifier. -/
def specifier : Parser Shape := knot specifierRule ()

/-- Whether a declaration begins here: a qualifier, or a type name with another name behind it. -/
def starts : Parser Bool := do
  match (← current).lexeme with
  | .keyword word => return startsWith word
  | .name name =>
    match (← following).lexeme with
    | .name _ => return (← get).isTypeName name
    | _ => return false
  | _ => return false

/-! ## Declarators -/

/-- The value that a constant variable of the given shape stands for, when its initialiser is a
literal. -/
def foldedValue? (q : Qualifiers) (shape : Shape) (initial : Node) : Option Constant :=
  match initial.constant? with
  | none => none
  | some value =>
    if q.isConst && shape.isScalar then
      some (if shape.basic == .float then value.toFloat else value)
    else none

/-- The initialiser of a variable: the value it stands for, or the assignment that sets it. -/
def initializer (q : Qualifiers) (shape : Shape) (token : Token) (name : String) :
    Parser (Option Constant × Option NodeId) := do
  if q.isUniform then failAt token (.cannotInitialize name)
  let initial ← Expression.parse .assignment
  let n ← nodeAt initial
  if !shape.accepts n.shape then failAt token (.cannotConvert n.shape shape)
  match foldedValue? q shape n with
  | some value => return (some value, none)
  | none =>
    let target ← addNode { form := .symbol, name, shape, line := token.line }
    let assign ← addBinary .assign target initial shape token.line
    return (none, some assign)

/-- One declarator with the comma behind it; the assignments made so far are in order. -/
def declaratorStep (q : Qualifiers) (shape : Shape) (isGlobal : Bool) (assigns : List NodeId) :
    Parser (Turn (List NodeId) (List NodeId)) := do
  let (token, name) ← expectName
  let s ← get
  if s.isTypeName name || (s.scope.find? name).isSome then failAt token (.redefinition name)
  let shape ← arraySuffix shape
  let (value, assign) ←
    if ← accept .equals then initializer q shape token name
    else if q.isConst then failAt token (.uninitializedConst name)
    else pure (none, none)
  declare { name, shape, readOnly := q.isConst || q.isUniform, value }
  if isGlobal && value.isNone then
    let global ← addNode { form := .symbol, name, shape, line := token.line }
    modify fun s => { s with globals := s.globals ++ [global] }
  let assigns := assigns ++ assign.toList
  if ← accept .comma then return .again assigns else return .stop assigns

/-- The declarators of a declaration and its semicolon. The node, if there is one, holds the
assignments. -/
def declarators (q : Qualifiers) (shape : Shape) (isGlobal : Bool) : Parser (Option NodeId) := do
  if shape.basic == .void then fail .illegalVoid
  let assigns ← loop (declaratorStep q shape isGlobal) []
  let _ ← expect .semicolon
  match assigns with
  | [] => return none
  | [assign] => return some assign
  | first :: _ =>
    let line := (← nodeAt first).line
    return some (← addNode { form := .sequence, op := .sequence, line, operands := assigns })

end ShaderCost.Declaration
