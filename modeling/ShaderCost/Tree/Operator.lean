/-! # Operators

The tags of operation, sequence and branch nodes. The cost model asks one thing of a tag: whether an
operation so marked is charged for its width.
-/

namespace ShaderCost

inductive Operator where
  | none
  -- scaffolding
  | function | sequence | parameters | linkerObjects
  -- aggregates
  | call | construct | builtin | swizzleSelector
  -- arithmetic and bits
  | add | sub | mul | div | mod | bitAnd | bitOr | bitXor | shiftLeft | shiftRight
  -- comparisons
  | equal | notEqual | lessThan | greaterThan | lessThanEqual | greaterThanEqual
  -- logic and sequencing
  | logicalAnd | logicalOr | logicalXor | comma
  -- assignments
  | assign | addAssign | subAssign | mulAssign | divAssign | modAssign | andAssign | orAssign
  | xorAssign | shiftLeftAssign | shiftRightAssign
  -- access to parts
  | swizzle | index | indexIndirect | field
  -- one operand
  | negate | logicalNot | bitwiseNot | preIncrement | preDecrement | postIncrement | postDecrement
  -- branches
  | «return» | «break» | «continue» | discard
  deriving DecidableEq, Repr, Inhabited

namespace Operator

def all : List Operator :=
  [none, function, sequence, parameters, linkerObjects, call, construct, builtin, swizzleSelector,
    add, sub, mul, div, mod, bitAnd, bitOr, bitXor, shiftLeft, shiftRight, equal, notEqual,
    lessThan, greaterThan, lessThanEqual, greaterThanEqual, logicalAnd, logicalOr, logicalXor,
    comma, assign, addAssign, subAssign, mulAssign, divAssign, modAssign, andAssign, orAssign,
    xorAssign, shiftLeftAssign, shiftRightAssign, swizzle, index, indexIndirect, field, negate,
    logicalNot, bitwiseNot, preIncrement, preDecrement, postIncrement, postDecrement, «return»,
    «break», «continue», discard]

def name : Operator → String
  | none => "none"
  | function => "function"
  | sequence => "sequence"
  | parameters => "parameters"
  | linkerObjects => "linker-objects"
  | call => "call"
  | construct => "construct"
  | builtin => "builtin"
  | swizzleSelector => "swizzle-selector"
  | add => "+"
  | sub => "-"
  | mul => "*"
  | div => "/"
  | mod => "%"
  | bitAnd => "&"
  | bitOr => "|"
  | bitXor => "^"
  | shiftLeft => "<<"
  | shiftRight => ">>"
  | equal => "=="
  | notEqual => "!="
  | lessThan => "<"
  | greaterThan => ">"
  | lessThanEqual => "<="
  | greaterThanEqual => ">="
  | logicalAnd => "&&"
  | logicalOr => "||"
  | logicalXor => "^^"
  | comma => ","
  | assign => "="
  | addAssign => "+="
  | subAssign => "-="
  | mulAssign => "*="
  | divAssign => "/="
  | modAssign => "%="
  | andAssign => "&="
  | orAssign => "|="
  | xorAssign => "^="
  | shiftLeftAssign => "<<="
  | shiftRightAssign => ">>="
  | swizzle => "swizzle"
  | index => "index"
  | indexIndirect => "index-indirect"
  | field => "field"
  | negate => "negate"
  | logicalNot => "!"
  | bitwiseNot => "~"
  | preIncrement => "++pre"
  | preDecrement => "--pre"
  | postIncrement => "post++"
  | postDecrement => "post--"
  | «return» => "return"
  | «break» => "break"
  | «continue» => "continue"
  | discard => "discard"

def ofName? (s : String) : Option Operator := all.find? (·.name == s)

def isComparison : Operator → Bool
  | equal | notEqual | lessThan | greaterThan | lessThanEqual | greaterThanEqual => true
  | _ => false

def isLogical : Operator → Bool
  | logicalAnd | logicalOr | logicalXor => true
  | _ => false

/-- Writes its left operand. -/
def isAssignment : Operator → Bool
  | assign | addAssign | subAssign | mulAssign | divAssign | modAssign | andAssign | orAssign
  | xorAssign | shiftLeftAssign | shiftRightAssign => true
  | _ => false

def isScaffolding : Operator → Bool
  | function | sequence | parameters | linkerObjects => true
  | _ => false

/-- Whether an operation with this tag is charged for its width. Scaffolding, plain assignment, the
selector of a swizzle, comparisons, logic and the comma are free. -/
def isCounted (o : Operator) : Bool :=
  !(o.isScaffolding || o.isComparison || o.isLogical || o == assign || o == swizzleSelector ||
    o == comma)

/-- The arithmetic behind a compound assignment. -/
def compoundBase? : Operator → Option Operator
  | addAssign => some add
  | subAssign => some sub
  | mulAssign => some mul
  | divAssign => some div
  | modAssign => some mod
  | andAssign => some bitAnd
  | orAssign => some bitOr
  | xorAssign => some bitXor
  | shiftLeftAssign => some shiftLeft
  | shiftRightAssign => some shiftRight
  | _ => Option.none

end Operator

end ShaderCost
