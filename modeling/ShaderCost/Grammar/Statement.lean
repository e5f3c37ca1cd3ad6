import ShaderCost.Grammar.Declaration
import ShaderCost.Grammar.Directive

/-! # Statements

Statements that leave no node (empty ones, directives, declarations without an initialiser) are
dropped from their block; as the body of a control statement they become an empty sequence, so that a
loop or a choice always has a body. The initialiser of a `for` loop stands before the loop in a
sequence.
-/

namespace ShaderCost.Statement

open ShaderCost.Parser
open ShaderCost.Expression (Naming)

variable [Naming]

/-- One statement of a block. The brace that closes it is left in front. -/
def blockStep (self : Unit → Parser (Option NodeId)) (items : List NodeId) :
    Parser (Turn (List NodeId) (List NodeId)) := do
  match (← current).lexeme with
  | .symbol .rightBrace => return .stop items.reverse
  | .endOfInput => fail .unexpectedEnd
  | _ =>
    match ← self () with
    | some item => return .again (item :: items)
    | none => return .again items

/-- The statements of a block with their braces, in the scope at hand. -/
def block (self : Unit → Parser (Option NodeId)) : Parser NodeId := do
  let opening ← expect .leftBrace
  let items ← loop (blockStep self) []
  let _ ← expect .rightBrace
  addSequence .sequence items opening.line

/-- A block with a scope of its own, which begins behind the opening brace. -/
def scopedBlock (self : Unit → Parser (Option NodeId)) : Parser NodeId := do
  let opening ← expect .leftBrace
  inScope do
    let items ← loop (blockStep self) []
    let _ ← expect .rightBrace
    addSequence .sequence items opening.line

/-- The body of a control statement, in a scope of its own. -/
def body (self : Unit → Parser (Option NodeId)) : Parser NodeId := do
  let line := (← current).line
  match ← inScope (self ()) with
  | some item => return item
  | none => addSequence .sequence [] line

/-- An expression that must be a Boolean scalar. -/
def booleanExpression : Parser NodeId := do
  let token ← current
  let condition ← Expression.parse .expression
  if (← shapeAt condition) != .scalar .bool then failAt token .booleanExpected
  return condition

/-- A condition in parentheses. -/
def condition : Parser NodeId := do
  let _ ← expect .leftParen
  let node ← booleanExpression
  let _ ← expect .rightParen
  return node

def ifStatement (self : Unit → Parser (Option NodeId)) : Parser NodeId := do
  let token ← expectKeyword .if
  let test ← condition
  let yes ← body self
  let no ←
    if (← current).lexeme == .keyword .else then
      let _ ← advance
      pure [← body self]
    else pure []
  addNode { form := .selection, line := token.line, operands := [test, yes] ++ no }

/-- What stands before the first semicolon of a `for` loop, with the semicolon. -/
def forInitializer : Parser (Option NodeId) := do
  if ← accept .semicolon then return none
  if ← Declaration.starts then
    let q ← Declaration.qualifiers
    let shape ← Declaration.specifier
    Declaration.declarators q shape false
  else
    let node ← Expression.parse .expression
    let _ ← expect .semicolon
    return some node

def addLoop (parts : LoopParts) (line : Nat) : Parser NodeId :=
  addNode { form := .loop parts, line }

def forStatement (self : Unit → Parser (Option NodeId)) : Parser NodeId := do
  let token ← expectKeyword .for
  let _ ← expect .leftParen
  inScope do
    let initial ← forInitializer
    let test ← if ← isAt .semicolon then pure none else some <$> booleanExpression
    let _ ← expect .semicolon
    let terminal ←
      if ← isAt .rightParen then pure none else some <$> Expression.parse .expression
    let _ ← expect .rightParen
    let inner ← body self
    let node ← addLoop { test, body := some inner, terminal, testLast := false } token.line
    match initial with
    | none => return node
    | some initial => addSequence .sequence [initial, node] token.line

def whileStatement (self : Unit → Parser (Option NodeId)) : Parser NodeId := do
  let token ← expectKeyword .while
  let test ← condition
  let inner ← body self
  addLoop { test := some test, body := some inner, terminal := none, testLast := false } token.line

def doStatement (self : Unit → Parser (Option NodeId)) : Parser NodeId := do
  let token ← expectKeyword .do
  let inner ← body self
  let _ ← expectKeyword .while
  let test ← condition
  let _ ← expect .semicolon
  addLoop { test := some test, body := some inner, terminal := none, testLast := true } token.line

/-- `return`, with or without a value. -/
def returnStatement : Parser NodeId := do
  let token ← advance
  let value ←
    if ← isAt .semicolon then pure [] else do pure [← Expression.parse .expression]
  let _ ← expect .semicolon
  addNode { form := .branch, op := .return, line := token.line, operands := value }

/-- A branch that consists of one keyword. -/
def branch (op : Operator) : Parser NodeId := do
  let token ← advance
  let _ ← expect .semicolon
  addNode { form := .branch, op, line := token.line }

/-- A local declaration, or only the type in front of its semicolon. -/
def localDeclaration : Parser (Option NodeId) := do
  let q ← Declaration.qualifiers
  let shape ← Declaration.specifier
  if ← accept .semicolon then return none
  Declaration.declarators q shape false

/-- A statement. There is one rule, which the bodies of control statements call again. -/
def rule (self : Unit → Parser (Option NodeId)) (_ : Unit) : Parser (Option NodeId) := do
  match (← current).lexeme with
  | .symbol .leftBrace => some <$> scopedBlock self
  | .symbol .semicolon =>
    let _ ← advance
    return none
  | .keyword .if => some <$> ifStatement self
  | .keyword .for => some <$> forStatement self
  | .keyword .while => some <$> whileStatement self
  | .keyword .do => some <$> doStatement self
  | .keyword .return => some <$> returnStatement
  | .keyword .break => some <$> branch .break
  | .keyword .continue => some <$> branch .continue
  | .keyword .discard => some <$> branch .discard
  | .directive text =>
    Directive.parse (← advance) text
    return none
  | _ =>
    if ← Declaration.starts then localDeclaration
    else
      let node ← Expression.parse .expression
      let _ ← expect .semicolon
      return some node

/-- Reads a statement; `none` when it leaves no node. -/
def parse : Parser (Option NodeId) := knot rule ()

/-- Reads the block of a function, whose scope already holds the parameters. -/
def functionBody : Parser NodeId := block fun _ => parse

end ShaderCost.Statement
