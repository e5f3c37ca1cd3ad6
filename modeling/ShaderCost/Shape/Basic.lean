/-! # Shapes

A shape describes the data that an expression yields: scalars, vectors (one column) and float
matrices, which the cost model measures in lanes, and arrays, structures, samplers and void, which it
does not look into. Shapes are compared by all their parts, so a shape is a plain record and the
predicates below read it.
-/

namespace ShaderCost

/-- The element type of a shape. -/
inductive BasicType where
  | void | float | int | uint | bool | sampler | struct
  deriving DecidableEq, Repr, Inhabited

namespace BasicType

def all : List BasicType := [void, float, int, uint, bool, sampler, struct]

def name : BasicType → String
  | void => "void"
  | float => "float"
  | int => "int"
  | uint => "uint"
  | bool => "bool"
  | sampler => "sampler"
  | struct => "struct"

/-- What stands before `vec` in the name of a vector type. -/
def vectorMark : BasicType → String
  | int => "i"
  | uint => "u"
  | bool => "b"
  | _ => ""

def isIntegral : BasicType → Bool
  | int | uint => true
  | _ => false

end BasicType

/-- Vectors have one column and as many rows as components; matrices have more than one of both. A
positive length marks a sized array; structures and samplers carry the name of their type. -/
structure Shape where
  basic : BasicType
  rows : UInt8
  cols : UInt8
  arrayLength : Int
  typeName : String
  deriving DecidableEq, Repr, Inhabited

namespace Shape

def void : Shape := ⟨.void, 0, 0, 0, ""⟩

def scalar (b : BasicType) : Shape := ⟨b, 1, 1, 0, ""⟩

/-- The vector with `n` components; one component is a scalar. -/
def vector (b : BasicType) (n : Nat) : Shape := ⟨b, n.toUInt8, 1, 0, ""⟩

/-- The float matrix with the given numbers of columns and rows. -/
def matrix (cols rows : Nat) : Shape := ⟨.float, rows.toUInt8, cols.toUInt8, 0, ""⟩

def ofSampler (typeName : String) : Shape := ⟨.sampler, 0, 0, 0, typeName⟩

def ofStruct (typeName : String) : Shape := ⟨.struct, 0, 0, 0, typeName⟩

/-- Made of lanes: not an array, and of a numeric or Boolean type. -/
def hasLanes (s : Shape) : Bool :=
  s.arrayLength == 0 &&
    (s.basic == .float || s.basic == .int || s.basic == .uint || s.basic == .bool)

def isScalar (s : Shape) : Bool := s.hasLanes && s.rows == 1 && s.cols == 1

def isVector (s : Shape) : Bool := s.hasLanes && s.cols == 1 && s.rows > 1

def isMatrix (s : Shape) : Bool := s.hasLanes && s.cols > 1 && s.rows > 1

def isArray (s : Shape) : Bool := s.arrayLength > 0

/-- The number of lanes: the width of a vector, rows times columns of a matrix, one for a scalar,
and none for anything else. -/
def elements (s : Shape) : Nat :=
  if s.isVector then s.rows.toNat
  else if s.isMatrix then s.rows.toNat * s.cols.toNat
  else if s.isScalar then 1
  else 0

/-- The lanes charged for one indexed element: as many as a matrix has columns, one for vectors and
scalars, none otherwise. -/
def elementSize (s : Shape) : Nat :=
  if s.isMatrix then s.cols.toNat
  else if s.isVector || s.isScalar then 1
  else 0

/-- The shape of one indexed element. -/
def element (s : Shape) : Shape :=
  if s.isArray then { s with arrayLength := 0 }
  else if s.isMatrix then vector s.basic s.rows.toNat
  else if s.isVector then scalar s.basic
  else void

/-- One more than the greatest constant subscript. -/
def subscriptLimit (s : Shape) : Int :=
  if s.isArray then s.arrayLength
  else if s.isMatrix then s.cols.toNat
  else s.rows.toNat

/-- The name of the type without its array length. -/
def baseText (s : Shape) : String :=
  match s.basic with
  | .struct | .sampler => s.typeName
  | .void => "void"
  | b =>
    if s.rows == 1 && s.cols == 1 then b.name
    else if s.cols == 1 then b.vectorMark ++ "vec" ++ toString s.rows.toNat
    else if s.cols == s.rows then "mat" ++ toString s.cols.toNat
    else "mat" ++ toString s.cols.toNat ++ "x" ++ toString s.rows.toNat

/-- The shape as it is written in signatures and complaints. -/
def text (s : Shape) : String :=
  if s.arrayLength > 0 then s.baseText ++ "[" ++ toString s.arrayLength ++ "]" else s.baseText

end Shape

end ShaderCost
