import ShaderCost.Shape.Basic

/-! # What the language provides

The type names, variables and functions that every shader starts with. A built-in function fixes how
many arguments it takes and how the shape of its result follows from theirs; it looks at nothing
else.
-/

namespace ShaderCost.Builtin

/-! ## Types -/

def samplerNames : List String :=
  ["sampler2D", "sampler3D", "samplerCube", "sampler2DShadow", "samplerCubeShadow",
    "sampler2DArray", "sampler2DArrayShadow", "isampler2D", "isampler3D", "isamplerCube",
    "usampler2D", "usampler3D", "usamplerCube", "samplerExternalOES"]

def types : List (String × Shape) :=
  [("void", .void), ("float", .scalar .float), ("int", .scalar .int), ("uint", .scalar .uint),
    ("bool", .scalar .bool),
    ("vec2", .vector .float 2), ("vec3", .vector .float 3), ("vec4", .vector .float 4),
    ("ivec2", .vector .int 2), ("ivec3", .vector .int 3), ("ivec4", .vector .int 4),
    ("uvec2", .vector .uint 2), ("uvec3", .vector .uint 3), ("uvec4", .vector .uint 4),
    ("bvec2", .vector .bool 2), ("bvec3", .vector .bool 3), ("bvec4", .vector .bool 4),
    ("mat2", .matrix 2 2), ("mat3", .matrix 3 3), ("mat4", .matrix 4 4),
    ("mat2x2", .matrix 2 2), ("mat2x3", .matrix 2 3), ("mat2x4", .matrix 2 4),
    ("mat3x2", .matrix 3 2), ("mat3x3", .matrix 3 3), ("mat3x4", .matrix 3 4),
    ("mat4x2", .matrix 4 2), ("mat4x3", .matrix 4 3), ("mat4x4", .matrix 4 4)] ++
    samplerNames.map fun name => (name, Shape.ofSampler name)

/-- The shape a built-in type name stands for. -/
def type? (name : String) : Option Shape := types.lookup name

/-! ## Variables -/

def globals : List (String × Shape) :=
  [("gl_FragCoord", .vector .float 4), ("gl_FragColor", .vector .float 4),
    ("gl_FragDepth", .scalar .float), ("gl_FrontFacing", .scalar .bool),
    ("gl_PointCoord", .vector .float 2), ("gl_Position", .vector .float 4),
    ("gl_PointSize", .scalar .float), ("gl_VertexID", .scalar .int),
    ("gl_InstanceID", .scalar .int),
    ("gl_FragData", { Shape.vector .float 4 with arrayLength := 4 })]

/-! ## Functions -/

/-- How the shape of a result follows from the shapes of the arguments. -/
inductive ResultRule where
  | sameAsFirst
  | sameAsLast
  | fixed (shape : Shape)
  /-- A vector with as many components as the first argument has lanes. -/
  | lanesOf (basic : BasicType)
  | transposed
  | outerProduct
  deriving DecidableEq, Repr, Inhabited

/-- The shape of the result, unless an argument that the rule looks at is missing. -/
def ResultRule.shape? (rule : ResultRule) (args : List Shape) : Option Shape :=
  match rule with
  | sameAsFirst => args.head?
  | sameAsLast => args.getLast?
  | fixed shape => some shape
  | lanesOf basic => args.head?.map fun first => .vector basic first.elements
  | transposed => args.head?.map fun first => .matrix first.rows.toNat first.cols.toNat
  | outerProduct => do
    let first ← args[0]?
    let second ← args[1]?
    return .matrix second.elements first.elements

/-- A built-in function: the least and greatest number of arguments, and the rule for its result. -/
structure Function where
  minArgs : Nat
  maxArgs : Nat
  result : ResultRule
  deriving DecidableEq, Repr, Inhabited

def componentFunctions : List String :=
  ["radians", "degrees", "sin", "cos", "tan", "asin", "acos", "sinh", "cosh", "tanh", "exp", "log",
    "exp2", "log2", "sqrt", "inversesqrt", "abs", "sign", "floor", "ceil", "fract", "trunc",
    "round", "roundEven", "normalize", "inverse", "not", "dFdx", "dFdy", "fwidth"]

def vec4Result : ResultRule := .fixed (.vector .float 4)

def functions : List (String × Function) :=
  componentFunctions.map (fun name => (name, ⟨1, 1, .sameAsFirst⟩)) ++
    [("atan", ⟨1, 2, .sameAsFirst⟩), ("pow", ⟨2, 2, .sameAsFirst⟩), ("mod", ⟨2, 2, .sameAsFirst⟩),
      ("min", ⟨2, 2, .sameAsFirst⟩), ("max", ⟨2, 2, .sameAsFirst⟩),
      ("clamp", ⟨3, 3, .sameAsFirst⟩), ("mix", ⟨3, 3, .sameAsFirst⟩),
      ("step", ⟨2, 2, .sameAsLast⟩), ("smoothstep", ⟨3, 3, .sameAsLast⟩),
      ("floatBitsToInt", ⟨1, 1, .lanesOf .int⟩), ("isnan", ⟨1, 1, .lanesOf .bool⟩),
      ("isinf", ⟨1, 1, .lanesOf .bool⟩),
      ("length", ⟨1, 1, .fixed (.scalar .float)⟩), ("distance", ⟨2, 2, .fixed (.scalar .float)⟩),
      ("dot", ⟨2, 2, .fixed (.scalar .float)⟩), ("cross", ⟨2, 2, .fixed (.vector .float 3)⟩),
      ("faceforward", ⟨3, 3, .sameAsFirst⟩), ("reflect", ⟨2, 2, .sameAsFirst⟩),
      ("refract", ⟨3, 3, .sameAsFirst⟩),
      ("matrixCompMult", ⟨2, 2, .sameAsFirst⟩), ("transpose", ⟨1, 1, .transposed⟩),
      ("determinant", ⟨1, 1, .fixed (.scalar .float)⟩), ("outerProduct", ⟨2, 2, .outerProduct⟩),
      ("lessThan", ⟨2, 2, .lanesOf .bool⟩), ("lessThanEqual", ⟨2, 2, .lanesOf .bool⟩),
      ("greaterThan", ⟨2, 2, .lanesOf .bool⟩), ("greaterThanEqual", ⟨2, 2, .lanesOf .bool⟩),
      ("equal", ⟨2, 2, .lanesOf .bool⟩), ("notEqual", ⟨2, 2, .lanesOf .bool⟩),
      ("any", ⟨1, 1, .fixed (.scalar .bool)⟩), ("all", ⟨1, 1, .fixed (.scalar .bool)⟩),
      ("texture2D", ⟨2, 3, vec4Result⟩), ("texture2DProj", ⟨2, 3, vec4Result⟩),
      ("texture2DLod", ⟨3, 3, vec4Result⟩), ("textureCube", ⟨2, 3, vec4Result⟩),
      ("textureCubeLod", ⟨3, 3, vec4Result⟩), ("texture", ⟨2, 3, vec4Result⟩),
      ("textureLod", ⟨3, 3, vec4Result⟩), ("textureProj", ⟨2, 3, vec4Result⟩),
      ("textureGrad", ⟨4, 4, vec4Result⟩), ("texelFetch", ⟨3, 3, vec4Result⟩),
      ("textureOffset", ⟨3, 4, vec4Result⟩),
      ("textureSize", ⟨2, 2, .fixed (.vector .int 2)⟩)]

/-- The built-in function with the given name. -/
def function? (name : String) : Option Function := functions.lookup name

end ShaderCost.Builtin
