import ShaderCost.Grammar.Complaint
import ShaderCost.Language.Builtins
import ShaderCost.Tree.Basic

/-! # Reading tokens

A parser consumes tokens from the front of a list, adds nodes to an arena and keeps track of what has
been declared; it ends with a result or with the one complaint that stops the reading.

Two combinators carry all recursion. `Parser.loop` repeats a step, and `Parser.knot` lets the rules
of a grammar call each other. Both are given one more turn than there are tokens left: a step that
goes on, and a rule that calls another, has consumed a token before, so the allowance never ends
first.
-/

namespace ShaderCost

/-! ## Declarations -/

/-- A declared variable. A constant variable with a literal value stands for that value. -/
structure Variable where
  name : String
  shape : Shape
  readOnly : Bool := false
  value : Option Constant := none
  deriving DecidableEq, Repr, Inhabited

/-- The variables of one block, the latest first. -/
abbrev Scope := List Variable

namespace Scope

def find? (s : Scope) (name : String) : Option Variable := List.find? (·.name == name) s

/-- The variables that every shader starts with. -/
def builtin : Scope := Builtin.globals.map fun (name, shape) => { name, shape }

end Scope

structure Field where
  name : String
  shape : Shape
  deriving DecidableEq, Repr, Inhabited

structure StructDecl where
  name : String
  fields : List Field
  deriving DecidableEq, Repr, Inhabited

structure FunctionDecl where
  name : String
  signature : String
  params : List Shape
  result : Shape
  isDefined : Bool := false
  deriving DecidableEq, Repr, Inhabited

/-- A function's name with the shapes of its parameters. -/
def signatureOf (name : String) (params : List Shape) : String :=
  name ++ "(" ++ String.intercalate "," (params.map Shape.text) ++ ")"

/-- A name that stands for a literal. -/
structure MacroDef where
  name : Bytes
  value : Constant
  deriving DecidableEq, Repr, Inhabited

/-! ## The state -/

/-- What a parser has and knows: the tokens left, the nodes made so far, the innermost scope and
those around it, the declarations (functions in the order of declaration, structures and macros the
latest first), and the global variables in the order of declaration. -/
structure ParserState where
  rest : List Token
  nodes : Array Node := #[]
  scope : Scope := .builtin
  enclosing : List Scope := []
  functions : List FunctionDecl := []
  structs : List StructDecl := []
  macros : List MacroDef := []
  globals : List NodeId := []
  deriving Repr, Inhabited

namespace ParserState

/-- The innermost variable with the given name. -/
def lookup? (s : ParserState) (name : String) : Option Variable :=
  (s.scope :: s.enclosing).findSome? (·.find? name)

def struct? (s : ParserState) (name : String) : Option StructDecl :=
  s.structs.find? (·.name == name)

/-- The literal a macro name stands for. -/
def expansion? (s : ParserState) (name : String) : Option Constant :=
  (s.macros.find? (·.name == Bytes.ofString name)).map (·.value)

/-- The shape a name stands for as a type. -/
def type? (s : ParserState) (name : String) : Option Shape :=
  match Builtin.type? name with
  | some shape => some shape
  | none => (s.struct? name).map fun decl => .ofStruct decl.name

def isTypeName (s : ParserState) (name : String) : Bool := (s.type? name).isSome

/-- The declarations of a function name, the earliest first. -/
def overloads (s : ParserState) (name : String) : List FunctionDecl :=
  s.functions.filter (·.name == name)

end ParserState

/-- A parser ends with a result and a new state, or with a complaint. -/
abbrev Parser := StateT ParserState (Except ParseError)

/-- What a step of a loop decides. -/
inductive Turn (α β : Type) where
  | again (a : α)
  | stop (b : β)

namespace Parser

/-! ## Tokens -/

/-- The token in front. -/
def current : Parser Token := do
  return (← get).rest.headD .nowhere

/-- The token behind the one in front. -/
def following : Parser Token := do
  return (← get).rest.getD 1 .nowhere

/-- Complains at a token; at one that could not be read, that is the complaint. -/
def failAt {α : Type} (token : Token) (complaint : Complaint) : Parser α :=
  let complaint :=
    match token.lexeme with
    | .bad error => .lexical error
    | _ => complaint
  throw { complaint, line := token.line, column := token.column }

/-- Complains at the token in front. -/
def fail {α : Type} (complaint : Complaint) : Parser α := do
  failAt (← current) complaint

/-- Consumes the token in front. -/
def advance : Parser Token := do
  let token ← current
  match token.lexeme with
  | .bad error => failAt token (.lexical error)
  | _ =>
    modify fun s => { s with rest := s.rest.tail }
    return token

/-- Consumes the token in front when it is the given symbol. -/
def accept (mark : Symbol) : Parser Bool := do
  if (← current).lexeme == .symbol mark then
    let _ ← advance
    return true
  else
    return false

/-- Whether the token in front is the given symbol. -/
def isAt (mark : Symbol) : Parser Bool := do
  return (← current).lexeme == .symbol mark

/-- Consumes the given lexeme, which must be in front. -/
def expectLexeme (lexeme : Lexeme) : Parser Token := do
  let token ← current
  if token.lexeme == lexeme then advance
  else fail (.expected lexeme.kindName token.lexeme)

def expect (mark : Symbol) : Parser Token := expectLexeme (.symbol mark)

def expectKeyword (word : Keyword) : Parser Token := expectLexeme (.keyword word)

/-- Consumes a name, which must be in front. -/
def expectName : Parser (Token × String) := do
  let token ← current
  match token.lexeme with
  | .name text =>
    let _ ← advance
    return (token, text)
  | other => fail (.expected "identifier" other)

/-- What the rules before must have made or declared. -/
def found {α : Type} (x : Option α) : Parser α :=
  match x with
  | some a => return a
  | none => fail .lost

/-! ## Repetition and recursion -/

/-- Repeats `step` until it stops, at most as often as allowed. -/
def loopWithin {α β : Type} (step : α → Parser (Turn α β)) : Nat → α → Parser β
  | 0, _ => fail .exhausted
  | turns + 1, a => do
    match ← step a with
    | .again a => loopWithin step turns a
    | .stop b => return b

/-- Repeats `step` until it stops. A step that goes on must have consumed a token. -/
def loop {α β : Type} (step : α → Parser (Turn α β)) (a : α) : Parser β := fun s =>
  loopWithin step (s.rest.length + 1) a s

/-- The rules of a grammar, calling each other to the given depth. -/
def knotWithin {ρ α : Type} (rules : (ρ → Parser α) → ρ → Parser α) : Nat → ρ → Parser α
  | 0, _ => fail .exhausted
  | depth + 1, rule => rules (knotWithin rules depth) rule

/-- The rules of a grammar, calling each other. A rule must have consumed a token before it calls. -/
def knot {ρ α : Type} (rules : (ρ → Parser α) → ρ → Parser α) (rule : ρ) : Parser α := fun s =>
  knotWithin rules (s.rest.length + 1) rule s

/-! ## Nodes -/

/-- Adds a node to the arena and gives its number. -/
def addNode (n : Node) : Parser NodeId :=
  modifyGet fun s => (s.nodes.size, { s with nodes := s.nodes.push n })

def nodeAt (id : NodeId) : Parser Node := do
  found (← get).nodes[id]?

def shapeAt (id : NodeId) : Parser Shape := do
  return (← nodeAt id).shape

/-- A literal node. -/
def addConstant (value : Constant) (line : Nat) : Parser NodeId :=
  addNode { form := .constant value, shape := .scalar value.basic, line }

/-- A node with one operand. -/
def addUnary (op : Operator) (operand : NodeId) (shape : Shape) (line : Nat) : Parser NodeId :=
  addNode { form := .unary, op, shape, line, operands := [operand] }

/-- A node with two operands. -/
def addBinary (op : Operator) (left right : NodeId) (shape : Shape) (line : Nat) : Parser NodeId :=
  addNode { form := .binary, op, shape, line, operands := [left, right] }

/-- A list of statements. -/
def addSequence (op : Operator) (items : List NodeId) (line : Nat) : Parser NodeId :=
  addNode { form := .sequence, op, line, operands := items }

/-! ## Scopes -/

/-- Declares a variable in the innermost scope. -/
def declare (v : Variable) : Parser Unit :=
  modify fun s => { s with scope := v :: s.scope }

/-- Runs a parser in a scope of its own. -/
def inScope {α : Type} (body : Parser α) : Parser α := do
  modify fun s => { s with scope := [], enclosing := s.scope :: s.enclosing }
  let result ← body
  modify fun s => { s with scope := s.enclosing.headD [], enclosing := s.enclosing.tail }
  return result

end Parser

end ShaderCost
