import ShaderCost.Grammar.Statement

/-! # Shaders

The top level of a shader: directives, precision statements, declarations and functions. The root of
the tree is a sequence of what they leave, closed by the list of the global variables.
-/

namespace ShaderCost.Shader

open ShaderCost.Parser
open ShaderCost.Expression (Naming)

variable [Naming]

/-! ## Functions -/

/-- A parameter; it may be left without a name. -/
structure Param where
  name : Option String
  shape : Shape
  line : Nat
  deriving DecidableEq, Repr, Inhabited

/-- One more parameter, or the end of the list; the parameters so far are in reverse order. -/
def paramStep (params : List Param) : Parser (Turn (List Param) (List Param)) := do
  if ← isAt .rightParen then return .stop params.reverse
  if !params.isEmpty then
    let _ ← expect .comma
  let _ ← Declaration.qualifiers
  let shape ← Declaration.specifier
  if shape.basic == .void then fail .illegalVoid
  let token ← current
  let name ←
    match token.lexeme with
    | .name text =>
      let _ ← advance
      pure (some text)
    | _ => pure none
  let shape ← Declaration.arraySuffix shape
  return .again ({ name, shape, line := token.line } :: params)

/-- The parameters of a function, in parentheses. A lone `void` counts as none. -/
def params : Parser (List Param) := do
  let _ ← expect .leftParen
  if (← current).lexeme == .name "void" && (← following).lexeme == .symbol .rightParen then
    let _ ← advance
  let params ← loop paramStep []
  let _ ← expect .rightParen
  return params

/-- Records a declaration of a function; a second one with the same signature must agree with the
first in its result. -/
def declareFunction (token : Token) (name : String) (result : Shape) (shapes : List Shape) :
    Parser FunctionDecl := do
  let signature := signatureOf name shapes
  match ((← get).overloads name).find? (·.signature == signature) with
  | some decl =>
    if decl.result != result then failAt token (.resultMismatch name)
    return decl
  | none =>
    let decl : FunctionDecl := { name, signature, params := shapes, result }
    modify fun s => { s with functions := s.functions ++ [decl] }
    return decl

/-- Marks a declared function as having a body. -/
def markDefined (decl : FunctionDecl) : Parser Unit :=
  modify fun s =>
    { s with
      functions := s.functions.map fun d =>
        if d.name == decl.name && d.signature == decl.signature then { d with isDefined := true }
        else d }

/-- Declares a parameter inside its function; one without a name leaves nothing. -/
def declareParam (param : Param) : Parser (Option NodeId) := do
  match param.name with
  | none => return none
  | some name =>
    declare { name, shape := param.shape }
    return some (← addNode { form := .symbol, name, shape := param.shape, line := param.line })

/-- A function whose result shape is already read; `none` when it is only declared. -/
def function (result : Shape) : Parser (Option NodeId) := do
  let (token, name) ← expectName
  if (Builtin.function? name).isSome then failAt token (.redefinesBuiltin name)
  if (← get).isTypeName name then failAt token (.redefinition name)
  let params ← params
  let decl ← declareFunction token name result (params.map (·.shape))
  if ← accept .semicolon then return none
  if decl.isDefined then failAt token (.alreadyHasBody name)
  markDefined decl
  inScope do
    let symbols ← params.mapM declareParam
    let list ← addSequence .parameters (symbols.filterMap id) token.line
    let body ← Statement.functionBody
    return some (← addNode
      { form := .function, op := .function, name := decl.name, signature := decl.signature,
        shape := result, line := token.line, operands := [list, body] })

/-! ## The top level -/

/-- A declaration at the top level; `none` when it leaves no node. -/
def externalDeclaration : Parser (Option NodeId) := do
  let q ← Declaration.qualifiers
  match (← current).lexeme, (← following).lexeme with
  | .name name, .symbol .semicolon =>
    -- qualifies a variable that is already there
    if !(← get).isTypeName name then
      let _ ← advance
      let _ ← advance
      return none
  | _, _ => pure ()
  let shape ← Declaration.specifier
  if ← accept .semicolon then return none
  match (← current).lexeme, (← following).lexeme with
  | .name _, .symbol .leftParen => function shape
  | _, _ => Declaration.declarators q shape true

/-- One item of the top level; the nodes so far are in reverse order. -/
def itemStep (items : List NodeId) : Parser (Turn (List NodeId) (List NodeId)) := do
  match (← current).lexeme with
  | .endOfInput => return .stop items.reverse
  | .directive text =>
    Directive.parse (← advance) text
    return .again items
  | .symbol .semicolon =>
    let _ ← advance
    return .again items
  | .keyword .precision =>
    let _ ← advance
    Declaration.precision
    let _ ← Declaration.specifier
    let _ ← expect .semicolon
    return .again items
  | _ =>
    match ← externalDeclaration with
    | some item => return .again (item :: items)
    | none => return .again items

/-- A whole shader; the result is its root. -/
def shader : Parser NodeId := do
  let items ← loop itemStep []
  let globals ← addNode
    { form := .sequence, op := .linkerObjects, operands := (← get).globals }
  addSequence .sequence (items ++ [globals]) 1

end Shader

/-- The tree of a token list. -/
def Tree.ofTokens (tokens : List Token) : Except ParseError Tree := do
  let (root, s) ← Shader.shader.run { rest := tokens }
  return { nodes := s.nodes, root := some root }

/-- The tree of a source, or the one complaint about it. -/
def Tree.ofSource (source : Bytes) : Except ParseError Tree := Tree.ofTokens (tokenize source)

end ShaderCost
