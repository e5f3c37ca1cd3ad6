import ShaderCost.Shape.Basic
import ShaderCost.Tree.Operator

/-! # Typing of operators

Integers turn into floats of the same dimensions where a float is wanted, and nowhere else does a
shape change. A binary operator accepts two shapes that agree up to that change, or a scalar beside
a vector or matrix, and multiplication knows the products of linear algebra.
-/

namespace ShaderCost.Shape

/-- Whether a value of shape `source` can be stored where `target` is wanted. -/
def accepts (target source : Shape) : Bool :=
  target == source ||
    (target.basic == .float && source.basic.isIntegral &&
      target == { source with basic := .float })

/-- The shape on which two operands agree. -/
def common? (a b : Shape) : Option Shape :=
  if a == b then some a
  else if a.accepts b then some a
  else if b.accepts a then some b
  else none

def isNumeric (s : Shape) : Bool := s.elements > 0 && s.basic != .bool

def isInteger (s : Shape) : Bool := s.elements > 0 && !s.isMatrix && s.basic.isIntegral

/-- The shape made float when the other operand is. -/
def promote (s : Shape) (other : BasicType) : Shape :=
  if other == .float then { s with basic := .float } else s

/-- Operands of one shape, or a scalar spread over the other operand. -/
def componentwise? (l r : Shape) : Option Shape :=
  match common? l r with
  | some s => some s
  | none =>
    if l.isScalar then
      if (common? l (scalar r.basic)).isSome then some (r.promote l.basic) else none
    else if r.isScalar then
      if (common? (scalar l.basic) r).isSome then some (l.promote r.basic) else none
    else none

/-- Whether a product is one of linear algebra. -/
def isMatrixProduct (l r : Shape) : Bool :=
  (l.isMatrix && r.isMatrix) || (l.isMatrix && r.isVector) || (l.isVector && r.isMatrix)

/-- The product of a matrix with a matrix or a vector, where the inner dimensions agree. -/
def matrixProduct? (l r : Shape) : Option Shape :=
  if l.isMatrix && r.isMatrix then
    if l.cols == r.rows then some (matrix r.cols.toNat l.rows.toNat) else none
  else if l.isMatrix then
    if l.cols.toNat == r.elements then some (vector .float l.rows.toNat) else none
  else
    if l.elements == r.rows.toNat then some (vector .float r.cols.toNat) else none

/-- The shape of a binary operation, where the operator accepts its operands. -/
def binary? (op : Operator) (l r : Shape) : Option Shape :=
  let boolean := scalar .bool
  match op with
  | .logicalOr | .logicalXor | .logicalAnd =>
    if l == boolean && r == boolean then some boolean else none
  | .equal | .notEqual =>
    if (common? l r).isSome && !l.isArray && l.basic != .sampler && l.basic != .void then some boolean
    else none
  | .lessThan | .greaterThan | .lessThanEqual | .greaterThanEqual =>
    if (common? l r).isSome && l.isScalar && l.isNumeric then some boolean else none
  | .shiftLeft | .shiftRight =>
    if l.isInteger && r.isInteger && (r.isScalar || r.elements == l.elements) then some l else none
  | .mod | .bitAnd | .bitOr | .bitXor =>
    if l.isInteger && r.isInteger then componentwise? l r else none
  | .mul =>
    if l.isNumeric && r.isNumeric then
      if isMatrixProduct l r then matrixProduct? l r else componentwise? l r
    else none
  | .add | .sub | .div =>
    if l.isNumeric && r.isNumeric then componentwise? l r else none
  | _ => none

end ShaderCost.Shape
