import ShaderCost.Tree.Basic
import Std.Data.TreeMap

/-! # Widths

The width of a node is the number of lanes it works on. Symbols, literals, constructors and built-ins
have the lanes of their own shape, a swizzle as many as it selects, a direct subscript those of one
element, and any other operation the wider of its operands. Calls have no width of their own: their
cost is that of the function.
-/

namespace ShaderCost

/-- A number for some of the nodes. -/
abbrev Widths := Std.TreeMap NodeId Nat

namespace Widths

/-- The width of an operand; one that is missing or has no width counts as zero. -/
def ofOperand (w : Widths) (operand : Option NodeId) : Nat :=
  match operand with
  | some id => w.getD id 0
  | none => 0

/-- The number of components a swizzle selects, when its right operand is a selector. -/
def selected? (t : Tree) (n : Node) : Option Nat :=
  match n.right? with
  | none => none
  | some right =>
    let selector := t.node right
    if selector.kind == .aggregate then some selector.operands.length else none

/-- The width of an operation with two operands. -/
def ofBinary (t : Tree) (w : Widths) (n : Node) : Nat :=
  let wider := max (w.ofOperand n.left?) (w.ofOperand n.right?)
  match n.op with
  | .swizzle => (selected? t n).getD wider
  | .index =>
    match n.left? with
    | some left => (t.node left).shape.elementSize
    | none => 0
  | _ => wider

/-- The width of a node, given those of the nodes below it; `none` for nodes that have none. -/
def ofNode? (t : Tree) (w : Widths) (n : Node) : Option Nat :=
  if !n.isCounted || n.isCall then none
  else
    match n.kind with
    | .symbol | .constant | .aggregate => some n.shape.elements
    | .binary => some (ofBinary t w n)
    | .unary => some (w.ofOperand n.left?)
    | _ => none

/-- Gives a node its width. -/
def record (t : Tree) (w : Widths) (id : NodeId) : Widths :=
  match ofNode? t w (t.node id) with
  | some width => w.insert id width
  | none => w

/-- The widths of all reachable nodes that have one. -/
def ofTree (t : Tree) : Widths := t.postOrder.foldl (record t) ∅

end Widths

end ShaderCost
