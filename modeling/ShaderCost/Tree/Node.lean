import ShaderCost.Number.Shortest
import ShaderCost.Shape.Basic
import ShaderCost.Tree.Operator

/-! # Nodes

A shader is held as numbered nodes that refer to each other by number, so that two expressions of
the same text never share a cost. What only one kind of node has (the value of a literal, the parts
of a loop) is carried by that kind.
-/

namespace ShaderCost

/-- The number of a node. -/
abbrev NodeId := Nat

/-- The value of a literal. `blank` stands for a value of a type that has no literals. -/
inductive Constant where
  | int (value : Int)
  | uint (value : Int)
  | float (value : Binary64)
  | bool (value : Bool)
  | blank (basic : BasicType)
  deriving DecidableEq, Repr, Inhabited

namespace Constant

def basic : Constant → BasicType
  | int _ => .int
  | uint _ => .uint
  | float _ => .float
  | bool _ => .bool
  | blank b => b

/-- The value of an integer constant of either signedness. -/
def integer? : Constant → Option Int
  | int v => some v
  | uint v => some v
  | _ => none

/-- The constant with the other sign. Integers are not brought back into their 32 bits. -/
def negate : Constant → Constant
  | int v => int (-v)
  | uint v => uint (-v)
  | float v => float v.negate
  | other => other

/-- The constant as a float, the form it takes in a float variable. -/
def toFloat : Constant → Constant
  | int v => float (.ofInt v)
  | uint v => float (.ofInt v)
  | float v => float v
  | _ => float .zero

def text : Constant → String
  | int v => toString v
  | uint v => toString v ++ "u"
  | float v => v.text
  | bool true => "true"
  | bool false => "false"
  | blank _ => "?"

/-- The zero of a basic type. -/
def zero : BasicType → Constant
  | .int => int 0
  | .uint => uint 0
  | .float => float .zero
  | .bool => bool false
  | b => blank b

end Constant

/-- The parts of a loop. The test of a `do` loop runs after the body. -/
structure LoopParts where
  test : Option NodeId
  body : Option NodeId
  terminal : Option NodeId
  testLast : Bool
  deriving DecidableEq, Repr, Inhabited

/-- The parts that are there, in the order they run. -/
def LoopParts.children (p : LoopParts) : List NodeId :=
  let parts := if p.testLast then [p.body, p.test, p.terminal] else [p.test, p.body, p.terminal]
  parts.filterMap id

/-- The kinds of nodes. -/
inductive NodeKind where
  | function | sequence | aggregate | binary | unary | symbol | constant | loop | selection | branch
  deriving DecidableEq, Repr, Inhabited

namespace NodeKind

def all : List NodeKind :=
  [function, sequence, aggregate, binary, unary, symbol, constant, loop, selection, branch]

def name : NodeKind → String
  | function => "function"
  | sequence => "sequence"
  | aggregate => "aggregate"
  | binary => "binary"
  | unary => "unary"
  | symbol => "symbol"
  | constant => "constant"
  | loop => "loop"
  | selection => "selection"
  | branch => "branch"

/-- The kinds whose operator the cost model looks at. -/
def isOperation : NodeKind → Bool
  | aggregate | binary | unary => true
  | _ => false

end NodeKind

/-- A kind of node together with what only that kind has. -/
inductive NodeForm where
  | function | sequence | aggregate | binary | unary | symbol
  | constant (value : Constant)
  | loop (parts : LoopParts)
  | selection | branch
  deriving DecidableEq, Repr, Inhabited

def NodeForm.kind : NodeForm → NodeKind
  | function => .function
  | sequence => .sequence
  | aggregate => .aggregate
  | binary => .binary
  | unary => .unary
  | symbol => .symbol
  | constant _ => .constant
  | loop _ => .loop
  | selection => .selection
  | branch => .branch

/-- One node. Definitions, calls, built-ins and symbols have a name; definitions and calls also the
signature of the function they mean. -/
structure Node where
  form : NodeForm
  op : Operator := .none
  line : Int := 0
  shape : Shape := .void
  name : String := ""
  signature : String := ""
  operands : List NodeId := []
  deriving DecidableEq, Repr, Inhabited

namespace Node

def kind (n : Node) : NodeKind := n.form.kind

def isOperation (n : Node) : Bool := n.kind.isOperation

/-- A call of a function that the shader declares. -/
def isCall (n : Node) : Bool := n.kind == .aggregate && n.op == .call

/-- Whether the node is given a width. -/
def isCounted (n : Node) : Bool :=
  match n.kind with
  | .symbol | .constant => true
  | .aggregate | .binary | .unary => n.op.isCounted
  | _ => false

def left? (n : Node) : Option NodeId := n.operands[0]?

def right? (n : Node) : Option NodeId := n.operands[1]?

/-- The nodes visited below this one, in order. -/
def children (n : Node) : List NodeId :=
  match n.form with
  | .loop parts => parts.children
  | _ => n.operands

/-- The value, where the node is a literal. -/
def constant? (n : Node) : Option Constant :=
  match n.form with
  | .constant value => some value
  | _ => none

end Node

end ShaderCost
