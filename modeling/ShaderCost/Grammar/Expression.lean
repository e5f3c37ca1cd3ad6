import ShaderCost.Grammar.Literal
import ShaderCost.Grammar.Parser
import ShaderCost.Shape.Typing

/-! # Expressions

Expressions are read and checked in one pass: a node is made when its operands are complete, with its
shape already known. Binary operators are left-associative and read by climbing through their
precedences; a selector with one component is a direct subscript; a built-in with one argument is an
operation with one operand.

The rules take the parser `self` for the rules they call after consuming a token; `expression` and
its companions at the end tie them together. How a name that is not called is read is open as well:
the class `Naming` holds that rule, with the rule of the language as its instance, so that a reading
can be followed to one of its names.
-/

namespace ShaderCost.Expression

open ShaderCost.Parser

/-- The rules that call each other. -/
inductive Rule where
  | expression
  | assignment
  | unary
  /-- A chain of operators of at least the given precedence. -/
  | binary (least : Nat)
  deriving DecidableEq, Repr

/-! ## Operators by symbol -/

def assignmentOperator? : Symbol → Option Operator
  | .equals => some .assign
  | .plusEquals => some .addAssign
  | .minusEquals => some .subAssign
  | .starEquals => some .mulAssign
  | .slashEquals => some .divAssign
  | .percentEquals => some .modAssign
  | .ampEquals => some .andAssign
  | .pipeEquals => some .orAssign
  | .caretEquals => some .xorAssign
  | .lessLessEquals => some .shiftLeftAssign
  | .greaterGreaterEquals => some .shiftRightAssign
  | _ => none

/-- The binary operator of a symbol with its precedence, from one upwards. -/
def binaryOperator? : Symbol → Option (Nat × Operator)
  | .pipePipe => some (1, .logicalOr)
  | .caretCaret => some (2, .logicalXor)
  | .ampAmp => some (3, .logicalAnd)
  | .pipe => some (4, .bitOr)
  | .caret => some (5, .bitXor)
  | .amp => some (6, .bitAnd)
  | .equalsEquals => some (7, .equal)
  | .bangEquals => some (7, .notEqual)
  | .less => some (8, .lessThan)
  | .greater => some (8, .greaterThan)
  | .lessEquals => some (8, .lessThanEqual)
  | .greaterEquals => some (8, .greaterThanEqual)
  | .lessLess => some (9, .shiftLeft)
  | .greaterGreater => some (9, .shiftRight)
  | .plus => some (10, .add)
  | .minus => some (10, .sub)
  | .star => some (11, .mul)
  | .slash => some (11, .div)
  | .percent => some (11, .mod)
  | _ => none

/-- The assignment a token stands for, with its symbol. -/
def assignmentAt? (token : Token) : Option (Symbol × Operator) :=
  match token.lexeme with
  | .symbol mark => (assignmentOperator? mark).map (mark, ·)
  | _ => none

/-- The binary operator a token stands for: symbol, precedence and operator. -/
def binaryAt? (token : Token) : Option (Symbol × Nat × Operator) :=
  match token.lexeme with
  | .symbol mark => (binaryOperator? mark).map (mark, ·)
  | _ => none

/-! ## Targets of assignments -/

/-- A node that selects a part of its left operand. -/
def isAccess (n : Node) : Bool :=
  n.kind == .binary &&
    (n.op == .index || n.op == .indexIndirect || n.op == .field || n.op == .swizzle)

/-- The node whose parts a chain of accesses selects. Each access has a greater number than its
base, so a chain is shorter than any depth above the number of the first. -/
def accessBase? (nodes : Array Node) : Nat → NodeId → Option Node
  | 0, _ => none
  | depth + 1, id =>
    match nodes[id]? with
    | none => none
    | some n =>
      if isAccess n then
        match n.left? with
        | some left => accessBase? nodes depth left
        | none => none
      else some n

/-- Complains at `token` unless the node names storage that may be written. -/
def checkTarget (id : NodeId) (token : Token) (op : Symbol) : Parser Unit := do
  let s ← get
  let base ← found (accessBase? s.nodes (id + 1) id)
  if base.kind == .symbol then
    match s.lookup? base.name with
    | some v => if v.readOnly then failAt token (.readOnlyTarget op base.name) else return
    | none => return
  else failAt token (.notATarget op)

/-! ## Selectors and subscripts -/

/-- The letters that name components, each set for its own use of vectors. -/
def swizzleSets : List (List Char) :=
  [['x', 'y', 'z', 'w'], ['r', 'g', 'b', 'a'], ['s', 't', 'p', 'q']]

/-- The components a selector names, unless it is too long, mixes sets or goes past the width. -/
def swizzleComponents (name : String) (width : Nat) : Option (List Nat) :=
  match name.toList with
  | [] => none
  | letters@(first :: _) =>
    if letters.length > 4 then none
    else
      match swizzleSets.find? (·.contains first) with
      | none => none
      | some set =>
        letters.mapM fun letter =>
          match set.idxOf? letter with
          | some position => if position < width then some position else none
          | none => none

/-- The place of a field among the fields of a structure, with its shape. -/
def fieldAt? (fields : List Field) (name : String) : Option (Nat × Shape) :=
  match fields.findIdx? (·.name == name), fields.find? (·.name == name) with
  | some position, some field => some (position, field.shape)
  | _, _ => none

/-- `.name` behind a structure, a vector or a scalar. -/
def selector (base : NodeId) (token : Token) (name : String) : Parser NodeId := do
  let shape ← shapeAt base
  if shape.basic == .struct && !shape.isArray then
    let decl ← found ((← get).struct? shape.typeName)
    match fieldAt? decl.fields name with
    | none => failAt token (.noSuchField name)
    | some (position, fieldShape) =>
      let place ← addConstant (.int position) token.line
      addBinary .field base place fieldShape token.line
  else if !shape.isVector && !shape.isScalar then
    failAt token (.notSelectable name)
  else
    match swizzleComponents name shape.rows.toNat with
    | none => failAt token (.illegalSwizzle name)
    | some [component] =>
      let place ← addConstant (.int component) token.line
      addBinary .index base place (.scalar shape.basic) token.line
    | some components =>
      let places ← components.mapM fun (component : Nat) => addConstant (.int component) token.line
      let selected ← addNode
        { form := .aggregate, op := .swizzleSelector, line := token.line, operands := places }
      addBinary .swizzle base selected (.vector shape.basic components.length) token.line

/-- The subscript behind an opening bracket, which is `token`. -/
def subscript (self : Rule → Parser NodeId) (base : NodeId) (token : Token) : Parser NodeId := do
  let shape ← shapeAt base
  if !shape.isArray && !shape.isVector && !shape.isMatrix then failAt token .notIndexable
  let index ← self .expression
  let place ← nodeAt index
  if !place.shape.isScalar || !place.shape.basic.isIntegral then
    failAt token .integerIndexRequired
  match place.constant? with
  | none => addBinary .indexIndirect base index shape.element token.line
  | some value =>
    let position := value.integer?.getD 0
    if position < 0 || position ≥ shape.subscriptLimit then
      failAt token (.indexOutOfRange position)
    addBinary .index base index shape.element token.line

/-! ## Calls -/

/-- What is wrong with constructing a structure from arguments of the given shapes, the first of
which is at the given position. -/
def fieldComplaint? (target : Shape) : Nat → List Field → List Shape → Option Complaint
  | position, field :: fields, arg :: args =>
    if field.shape.accepts arg then fieldComplaint? target (position + 1) fields args
    else some (.constructorField target position arg field.shape)
  | _, _, _ => none

/-- What is wrong with filling the lanes of a shape from arguments of the given shapes, `filled`
lanes of which are already there. -/
def laneComplaint? (target : Shape) : Nat → Nat → List Shape → Option Complaint
  | _, _, [] => none
  | position, filled, arg :: args =>
    if arg.elements == 0 then some (.constructorArgument target position arg)
    else if position > 1 && filled ≥ target.elements then some (.constructorTooMany target)
    else laneComplaint? target (position + 1) (filled + arg.elements) args

/-- Whether a single argument fills the target whatever its size: a scalar, or a matrix for a
matrix. -/
def fillsAlone (target : Shape) : List Shape → Bool
  | [arg] => arg.isScalar || (arg.isMatrix && target.isMatrix)
  | _ => false

/-- What is wrong with constructing a value of the target shape. -/
def constructorComplaint? (target : Shape) (fields : List Field) (args : List Shape) :
    Option Complaint :=
  if args.isEmpty then some (.constructorWithoutArguments target)
  else if target.basic == .struct then
    if args.length != fields.length then some (.constructorFieldCount target)
    else fieldComplaint? target 1 fields args
  else if target.elements == 0 then some (.notConstructible target)
  else
    match laneComplaint? target 1 0 args with
    | some complaint => some complaint
    | none =>
      if fillsAlone target args then none
      else if (args.map Shape.elements).foldl (· + ·) 0 < target.elements then
        some (.constructorNotEnough target)
      else none

/-- Whether every parameter accepts its argument. -/
def acceptsAll (params args : List Shape) : Bool :=
  params.length == args.length && (params.zip args).all fun (param, arg) => param.accepts arg

/-- The overload whose parameters are exactly the arguments, or else the first that accepts them. -/
def resolveOverload? (overloads : List FunctionDecl) (args : List Shape) : Option FunctionDecl :=
  match overloads.find? (·.params == args) with
  | some decl => some decl
  | none => overloads.find? fun decl => acceptsAll decl.params args

/-- One more argument, or the end of the list; the arguments so far are in reverse order. -/
def argumentStep (self : Rule → Parser NodeId) (args : List NodeId) :
    Parser (Turn (List NodeId) (List NodeId)) := do
  if ← isAt .rightParen then return .stop args.reverse
  if !args.isEmpty then
    let _ ← expect .comma
  let arg ← self .assignment
  return .again (arg :: args)

/-- The arguments of a call, in parentheses. A lone `void` counts as no argument. -/
def arguments (self : Rule → Parser NodeId) : Parser (List NodeId) := do
  let _ ← expect .leftParen
  if (← current).lexeme == .name "void" && (← following).lexeme == .symbol .rightParen then
    let _ ← advance
  let args ← loop (argumentStep self) []
  let _ ← expect .rightParen
  return args

/-- The fields that a constructor fills; only structures have some. -/
def constructorFields (target : Shape) (name : String) : Parser (List Field) := do
  if target.basic == .struct then
    let decl ← found ((← get).struct? name)
    return decl.fields
  else return []

/-- A constructor, a built-in or a declared function applied to arguments. -/
def call (self : Rule → Parser NodeId) (token : Token) (name : String) : Parser NodeId := do
  let args ← arguments self
  let shapes ← args.mapM shapeAt
  let s ← get
  match s.type? name with
  | some target =>
    let fields ← constructorFields target name
    match constructorComplaint? target fields shapes with
    | some complaint => failAt token complaint
    | none =>
      addNode
        { form := .aggregate, op := .construct, shape := target, line := token.line,
          operands := args }
  | none =>
    match Builtin.function? name with
    | some fn =>
      if args.length < fn.minArgs || args.length > fn.maxArgs ||
          shapes.any (·.basic == .void) then
        failAt token (.noMatchingFunction name)
      let form := if args.length == 1 then NodeForm.unary else .aggregate
      let shape ← found (fn.result.shape? shapes)
      addNode { form, op := .builtin, name, shape, line := token.line, operands := args }
    | none =>
      let overloads := s.overloads name
      if overloads.isEmpty then
        if (s.lookup? name).isSome then failAt token (.functionNameExpected name)
        failAt token (.noMatchingFunction name)
      match resolveOverload? overloads shapes with
      | none => failAt token (.noMatchingFunction (signatureOf name shapes))
      | some decl =>
        addNode
          { form := .aggregate, op := .call, name := decl.name, signature := decl.signature,
            shape := decl.result, line := token.line, operands := args }

/-! ## Operands -/

/-- A name that is not called: a macro, a constant variable or a variable. -/
def named (token : Token) (name : String) : Parser NodeId := do
  let s ← get
  match s.expansion? name with
  | some value => addConstant value token.line
  | none =>
    match s.lookup? name with
    | none => failAt token (.undeclared name)
    | some v =>
      match v.value with
      | some value => addConstant value token.line
      | none => addNode { form := .symbol, name := v.name, shape := v.shape, line := token.line }

/-- How a name that is not called is read, once its token is consumed. -/
class Naming where
  read : Token → String → Parser NodeId

/-- The rule of the language. -/
instance Naming.standard : Naming := ⟨named⟩

variable [Naming]

/-- A literal, whose token is already consumed. -/
def literal (token : Token) (text : String) : Parser NodeId := do
  match Literal.value token.lexeme with
  | .ok value => addConstant value token.line
  | .error .tooBig => failAt token (.literalTooBig text)
  | .error .malformed => failAt token (.invalidLiteral text)

/-- A literal, a name, a call, or an expression in parentheses. -/
def primary (self : Rule → Parser NodeId) : Parser NodeId := do
  let token ← current
  match token.lexeme with
  | .int text | .uint text | .float text =>
    let _ ← advance
    literal token text
  | .bool _ =>
    let _ ← advance
    literal token token.lexeme.kindName
  | .symbol .leftParen =>
    let _ ← advance
    let inner ← self .expression
    let _ ← expect .rightParen
    return inner
  | .name text =>
    let _ ← advance
    if ← isAt .leftParen then call self token text else Naming.read token text
  | other => fail (.unexpected other)

/-- `++` or `--` on a node: the target must be writable and numeric. -/
def step (op : Operator) (mark : Symbol) (operand : NodeId) (start token : Token) :
    Parser NodeId := do
  checkTarget operand start mark
  let shape ← shapeAt operand
  if !shape.isNumeric then failAt token (.wrongOperand mark shape)
  addUnary op operand shape token.line

/-- One subscript, selector or step behind an operand that begins at `start`. -/
def suffix (self : Rule → Parser NodeId) (start : Token) (operand : NodeId) :
    Parser (Turn NodeId NodeId) := do
  let token ← current
  match token.lexeme with
  | .symbol .leftBracket =>
    let _ ← advance
    let node ← subscript self operand token
    let _ ← expect .rightBracket
    return .again node
  | .symbol .dot =>
    let _ ← advance
    let (nameToken, name) ← expectName
    return .again (← selector operand nameToken name)
  | .symbol .plusPlus =>
    let _ ← advance
    return .again (← step .postIncrement .plusPlus operand start token)
  | .symbol .minusMinus =>
    let _ ← advance
    return .again (← step .postDecrement .minusMinus operand start token)
  | _ => return .stop operand

/-- An operand with the suffixes behind it. -/
def suffixed (self : Rule → Parser NodeId) : Parser NodeId := do
  let start ← current
  let operand ← primary self
  loop (suffix self start) operand

/-- An operand with the signs before it. A sign before a literal is part of its value. -/
def unary (self : Rule → Parser NodeId) : Parser NodeId := do
  let token ← current
  match token.lexeme with
  | .symbol .plus =>
    let _ ← advance
    let operand ← self .unary
    if !(← shapeAt operand).isNumeric then failAt token .wrongPlusOperand
    return operand
  | .symbol .minus =>
    let _ ← advance
    let operand ← self .unary
    let n ← nodeAt operand
    if !n.shape.isNumeric then failAt token (.wrongOperand .minus n.shape)
    match n.constant? with
    | some value =>
      addNode { form := .constant value.negate, shape := n.shape, line := token.line }
    | none => addUnary .negate operand n.shape token.line
  | .symbol .bang =>
    let _ ← advance
    let operand ← self .unary
    let shape ← shapeAt operand
    if shape != .scalar .bool then failAt token (.wrongOperand .bang shape)
    addUnary .logicalNot operand shape token.line
  | .symbol .tilde =>
    let _ ← advance
    let operand ← self .unary
    let shape ← shapeAt operand
    if !shape.isInteger then failAt token (.wrongOperand .tilde shape)
    addUnary .bitwiseNot operand shape token.line
  | .symbol .plusPlus =>
    let _ ← advance
    let start ← current
    let operand ← self .unary
    step .preIncrement .plusPlus operand start token
  | .symbol .minusMinus =>
    let _ ← advance
    let start ← current
    let operand ← self .unary
    step .preDecrement .minusMinus operand start token
  | _ => suffixed self

/-! ## Operators -/

/-- One operator of at least the given precedence, with its right operand. -/
def binaryStep (self : Rule → Parser NodeId) (least : Nat) (left : NodeId) :
    Parser (Turn NodeId NodeId) := do
  let token ← current
  match binaryAt? token with
  | none => return .stop left
  | some (mark, precedence, op) =>
    if precedence < least then return .stop left
    let _ ← advance
    let right ← self (.binary (precedence + 1))
    let leftShape ← shapeAt left
    let rightShape ← shapeAt right
    match Shape.binary? op leftShape rightShape with
    | none => failAt token (.noSuchOperation mark leftShape rightShape)
    | some shape => return .again (← addBinary op left right shape token.line)

/-- A chain of operands joined by operators of at least the given precedence. -/
def binary (self : Rule → Parser NodeId) (least : Nat) : Parser NodeId := do
  let left ← unary self
  loop (binaryStep self least) left

/-- A chain, or a choice between two expressions behind a condition. -/
def conditional (self : Rule → Parser NodeId) : Parser NodeId := do
  let condition ← binary self 1
  if !(← isAt .question) then return condition
  let token ← advance
  if (← shapeAt condition) != .scalar .bool then failAt token .booleanExpected
  let yes ← self .expression
  let colon ← expect .colon
  let no ← self .assignment
  let yesShape ← shapeAt yes
  let noShape ← shapeAt no
  match Shape.common? yesShape noShape with
  | none => failAt colon (.wrongOperands .colon yesShape noShape)
  | some shape =>
    addNode { form := .selection, shape, line := token.line, operands := [condition, yes, no] }

/-- A conditional, or an assignment to one. -/
def assignment (self : Rule → Parser NodeId) : Parser NodeId := do
  let start ← current
  let left ← conditional self
  match assignmentAt? (← current) with
  | none => return left
  | some (mark, op) =>
    let token ← advance
    checkTarget left start mark
    let right ← self .assignment
    let leftShape ← shapeAt left
    let rightShape ← shapeAt right
    match op.compoundBase? with
    | none =>
      if !leftShape.accepts rightShape then failAt token (.cannotConvert rightShape leftShape)
    | some base =>
      match Shape.binary? base leftShape rightShape with
      | none => failAt token (.wrongOperands mark leftShape rightShape)
      | some result =>
        if !leftShape.accepts result then failAt token (.wrongOperands mark leftShape rightShape)
    addBinary op left right leftShape token.line

/-- One more expression behind a comma. -/
def commaStep (self : Rule → Parser NodeId) (left : NodeId) : Parser (Turn NodeId NodeId) := do
  if !(← isAt .comma) then return .stop left
  let token ← advance
  let right ← self .assignment
  return .again (← addBinary .comma left right (← shapeAt right) token.line)

/-- Assignments joined by commas. -/
def expression (self : Rule → Parser NodeId) : Parser NodeId := do
  let first ← assignment self
  loop (commaStep self) first

/-! ## The grammar -/

/-- The rules by name. -/
def rules (self : Rule → Parser NodeId) : Rule → Parser NodeId
  | .expression => expression self
  | .assignment => assignment self
  | .unary => unary self
  | .binary least => binary self least

/-- Reads by a rule of the grammar. -/
def parse (rule : Rule) : Parser NodeId := Parser.knot rules rule

/-- Reads a conditional, the form an array size takes. -/
def parseConditional : Parser NodeId := conditional parse

end ShaderCost.Expression
