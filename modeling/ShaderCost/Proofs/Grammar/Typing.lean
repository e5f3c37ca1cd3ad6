import ShaderCost.Proofs.Grammar.Unfolding

/-! # The arena is well typed

`Declarations.shapeOf?` is a checker: it computes the shape of a node from the shapes that its
operands have been given, and from what the shader declares, or finds that the operation is not
legal. It knows nothing of how the node was read.

Every node that is made passes (`Makes.checks`), and goes on to pass when nodes and declarations are
added (`shapeOf?_grows`). So all nodes of the arena of a shader pass, whether they are reachable
from the root or not (`arena_well_typed`). Conditional expressions and `if` statements make nodes of
one form, so the checker is told which of them it looks at; what the rule for conditionals reads
passes as an expression (`ReadsChoice.isChoice`).
-/

namespace ShaderCost

/-! ## Shapes of operations -/

namespace Shape

/-- The shape of an operation with one operand, where the operator accepts it. -/
def unary? (op : Operator) (x : Shape) : Option Shape :=
  match op with
  | .negate | .preIncrement | .preDecrement | .postIncrement | .postDecrement =>
    if x.isNumeric then some x else none
  | .logicalNot => if x == scalar .bool then some x else none
  | .bitwiseNot => if x.isInteger then some x else none
  | _ => none

/-- The shape of an assignment, plain or compound: that of its target. -/
def assign? (op : Operator) (target source : Shape) : Option Shape :=
  match op.compoundBase? with
  | none => if target.accepts source then some target else none
  | some base =>
    match binary? base target source with
    | none => none
    | some result => if target.accepts result then some target else none

def isSubscriptable (s : Shape) : Bool := s.isArray || s.isVector || s.isMatrix

/-- The shape of one part; a scalar is its own part. -/
def part? (base : Shape) : Option Shape :=
  if base.isScalar then some base
  else if base.isSubscriptable then some base.element
  else none

/-- The shape of a choice between branches: none for a statement, and what two expressions have in
common. -/
def choice? (isStatement : Bool) (branches : List Shape) : Option Shape :=
  if isStatement then some .void
  else
    match branches with
    | [yes, no] => common? yes no
    | _ => none

end Shape

/-- The shape of a built-in function applied to arguments. -/
def Builtin.call? (name : String) (args : List Shape) : Option Shape :=
  match Builtin.function? name with
  | none => none
  | some fn =>
    if fn.minArgs ≤ args.length && args.length ≤ fn.maxArgs && args.all (·.basic != .void) then
      some (fn.result.shape args)
    else none

/-! ## The checker -/

/-- The functions and the structures that a shader declares. -/
structure Declarations where
  functions : List FunctionDecl
  structs : List StructDecl

namespace Declarations

/-- The parameters and the result of a function. -/
def function? (d : Declarations) (name signature : String) : Option (List Shape × Shape) :=
  (d.functions.find? fun f => f.name == name && f.signature == signature).map fun f =>
    (f.params, f.result)

def call? (d : Declarations) (name signature : String) (args : List Shape) : Option Shape :=
  match d.function? name signature with
  | none => none
  | some (params, result) => if Expression.acceptsAll params args then some result else none

/-- Whether a structure of the given name has a field of the given shape at a position. -/
def hasField (d : Declarations) (typeName : String) (shape : Shape) (position : Int) : Bool :=
  d.structs.any fun decl =>
    decl.name == typeName && (decl.fields[position.toNat]?.map Field.shape) == some shape

/-- Whether a value of the target shape can be made of the arguments. -/
def constructs (d : Declarations) (target : Shape) (args : List Shape) : Bool :=
  if target.basic == .struct then
    d.structs.any fun decl => decl.name == target.typeName &&
      (Expression.constructorComplaint? target decl.fields args).isNone
  else (Expression.constructorComplaint? target [] args).isNone

/-- The shape of a node with two operands. -/
def binaryShape? (d : Declarations) (n l r : Node) : Option Shape :=
  let isIndex := r.shape.isScalar && r.shape.basic.isIntegral
  match n.op with
  | .comma => some r.shape
  | .index => if isIndex && r.constant?.isSome then l.shape.part? else none
  | .indexIndirect =>
    if isIndex && r.constant?.isNone && l.shape.isSubscriptable then some l.shape.element else none
  | .swizzle =>
    if (l.shape.isVector || l.shape.isScalar) && r.op == .swizzleSelector then
      some (.vector l.shape.basic r.operands.length)
    else none
  | .field =>
    if l.shape.basic == .struct && !l.shape.isArray &&
        (r.constant?.bind Constant.integer?).any (d.hasField l.shape.typeName n.shape) then
      some n.shape
    else none
  | op => if op.isAssignment then l.shape.assign? op r.shape else Shape.binary? op l.shape r.shape

/-- The shape of a node with any number of operands. -/
def aggregateShape? (d : Declarations) (n : Node) (args : List Shape) : Option Shape :=
  match n.op with
  | .builtin => Builtin.call? n.name args
  | .call => d.call? n.name n.signature args
  | .construct => if d.constructs n.shape args then some n.shape else none
  | .swizzleSelector => some .void
  | _ => none

/-- The shape of a node, from the shapes of its operands. The shape of a variable is as it was
declared, statements have none, and the conditions of choices and loops are Boolean scalars. Choices
are statements or expressions, and a node does not tell which it is. -/
def shapeOf? (d : Declarations) (node : NodeId → Node) (isStatement : Bool) (n : Node) :
    Option Shape :=
  let shape := fun id => (node id).shape
  match n.form, n.operands with
  | .constant value, _ => some (.scalar value.basic)
  | .symbol, _ => some n.shape
  | .unary, [x] =>
    if n.op == .builtin then Builtin.call? n.name [shape x] else (shape x).unary? n.op
  | .binary, [l, r] => d.binaryShape? n (node l) (node r)
  | .aggregate, args => d.aggregateShape? n (args.map shape)
  | .selection, test :: branches =>
    if shape test == .scalar .bool then Shape.choice? isStatement (branches.map shape) else none
  | .loop parts, _ => if parts.test.all (shape · == .scalar .bool) then some .void else none
  | .function, _ => (d.function? n.name n.signature).map (·.2)
  | .sequence, _ | .branch, _ => some .void
  | _, _ => none

end Declarations

def ParserState.declarations (s : ParserState) : Declarations := ⟨s.functions, s.structs⟩

theorem ParserState.declarations_function? (s : ParserState) (name signature : String) :
    s.declarations.function? name signature = s.declared? name signature := rfl

/-! ## Growth -/

section

variable {s s' : ParserState}

theorem any_structs_grows (h : Grows s s') {p : StructDecl → Bool}
    (hp : s.declarations.structs.any p = true) : s'.declarations.structs.any p = true := by
  obtain ⟨decl, hdecl, hpd⟩ := List.any_eq_true.1 hp
  exact List.any_eq_true.2 ⟨decl, h.structs hdecl, hpd⟩

theorem call?_grows (h : Grows s s') {name signature : String} {args : List Shape} {shape : Shape}
    (hc : s.declarations.call? name signature args = some shape) :
    s'.declarations.call? name signature args = some shape := by
  unfold Declarations.call? at hc ⊢
  rw [ParserState.declarations_function?] at hc ⊢
  cases hd : s.declared? name signature with
  | none =>
    rw [hd] at hc
    cases hc
  | some x =>
    rw [h.declared hd]
    rwa [hd] at hc

theorem constructs_grows (h : Grows s s') {target : Shape} {args : List Shape}
    (hc : s.declarations.constructs target args = true) :
    s'.declarations.constructs target args = true := by
  unfold Declarations.constructs at hc ⊢
  split
  · next hstruct =>
    rw [if_pos hstruct] at hc
    exact any_structs_grows h hc
  · next hstruct =>
    rwa [if_neg hstruct] at hc

theorem binaryShape?_grows (h : Grows s s') {n l r : Node} {shape : Shape}
    (hn : s.declarations.binaryShape? n l r = some shape) :
    s'.declarations.binaryShape? n l r = some shape := by
  unfold Declarations.binaryShape? at hn ⊢
  simp only at hn ⊢
  split at hn
  case h_5 _ hop =>
    -- only fields depend on what is declared
    split at hn
    · next hc =>
      rw [Bool.and_eq_true, Option.any_eq_true] at hc
      obtain ⟨hbase, position, hposition, hfield⟩ := hc
      rw [if_pos, hn]
      rw [Bool.and_eq_true, Option.any_eq_true]
      exact ⟨hbase, position, hposition, any_structs_grows h hfield⟩
    · cases hn
  all_goals simp_all

theorem aggregateShape?_grows (h : Grows s s') {n : Node} {args : List Shape} {shape : Shape}
    (hn : s.declarations.aggregateShape? n args = some shape) :
    s'.declarations.aggregateShape? n args = some shape := by
  unfold Declarations.aggregateShape? at hn ⊢
  split at hn
  · exact hn
  · exact call?_grows h hn
  · split at hn
    · next hc => rw [if_pos (constructs_grows h hc), hn]
    · cases hn
  · exact hn
  · cases hn

/-- A node that passes goes on to pass. -/
theorem shapeOf?_grows (h : Grows s s') {n : Node} (hchildren : ∀ c ∈ n.children, s.Has c)
    {isStatement : Bool} {shape : Shape}
    (hn : s.declarations.shapeOf? s.node isStatement n = some shape) :
    s'.declarations.shapeOf? s'.node isStatement n = some shape := by
  have hnode : ∀ c ∈ n.children, s'.node c = s.node c := fun c hc => h.node_eq (hchildren c hc)
  obtain ⟨form, op, line, recorded, name, signature, operands⟩ := n
  cases form with
  | constant value => exact hn
  | symbol => exact hn
  | sequence => exact hn
  | branch => exact hn
  | unary =>
    match operands with
    | [] => cases hn
    | [x] =>
      unfold Declarations.shapeOf? at hn ⊢
      simp only at hn ⊢
      rwa [hnode x List.mem_cons_self]
    | _ :: _ :: _ => cases hn
  | binary =>
    match operands with
    | [] => cases hn
    | [_] => cases hn
    | [l, r] =>
      unfold Declarations.shapeOf? at hn ⊢
      simp only at hn ⊢
      rw [hnode l (List.mem_cons_self), hnode r (List.mem_cons_of_mem l List.mem_cons_self)]
      exact binaryShape?_grows h hn
    | _ :: _ :: _ :: _ => cases hn
  | aggregate =>
    unfold Declarations.shapeOf? at hn ⊢
    simp only at hn ⊢
    have hshapes : operands.map (fun id => (s'.node id).shape) =
        operands.map fun id => (s.node id).shape :=
      List.map_congr_left fun c hc => by rw [hnode c hc]
    rw [hshapes]
    exact aggregateShape?_grows h hn
  | selection =>
    match operands with
    | [] => cases hn
    | test :: branches =>
      unfold Declarations.shapeOf? at hn ⊢
      simp only at hn ⊢
      have hshapes : branches.map (fun id => (s'.node id).shape) =
          branches.map fun id => (s.node id).shape :=
        List.map_congr_left fun c hc => by rw [hnode c (List.mem_cons_of_mem test hc)]
      have htest : s'.node test = s.node test := hnode test List.mem_cons_self
      simpa only [hshapes, htest] using hn
  | loop parts =>
    unfold Declarations.shapeOf? at hn ⊢
    simp only at hn ⊢
    cases htest : parts.test with
    | none => rwa [htest] at hn
    | some test =>
      rw [htest] at hn
      rwa [Option.all_some, hnode test (LoopParts.mem_children.2 (Or.inl htest))]
  | function =>
    unfold Declarations.shapeOf? at hn ⊢
    simp only [ParserState.declarations_function?] at hn ⊢
    obtain ⟨x, hx, rfl⟩ := Option.map_eq_some_iff.1 hn
    rw [h.declared hx, Option.map_some]

end

/-! ## The invariant -/

/-- Every node passes, as a statement or as an expression, has its operands in the arena, and every
function is found by its name and signature. -/
structure Checked (s : ParserState) : Prop where
  shapes : ∀ id, s.Has id →
    ∃ isStatement, s.declarations.shapeOf? s.node isStatement (s.node id) = some (s.shape id)
  children : ∀ id, s.Has id → ∀ c ∈ (s.node id).children, s.Has c
  functions : ∀ decl ∈ s.functions,
    s.declared? decl.name decl.signature = some (decl.params, decl.result)

namespace Checked

variable {s : ParserState}

/-- A constant has the scalar shape of its value. -/
theorem constant_shape (h : Checked s) {id : NodeId} {value : Constant}
    (hvalue : (s.node id).constant? = some value) : s.shape id = .scalar value.basic := by
  obtain ⟨_, hshape⟩ := h.shapes id (ParserState.has_of_constant? hvalue)
  unfold Node.constant? at hvalue
  split at hvalue
  · next v hform =>
    cases hvalue
    unfold Declarations.shapeOf? at hshape
    simp only [hform] at hshape
    exact (Option.some.inj hshape).symm
  · cases hvalue

end Checked

/-! ## Parts of a value -/

namespace Shape

theorem not_isScalar_of_subscriptable {base : Shape} (h : base.isSubscriptable = true) :
    base.isScalar = false := by
  simp only [isSubscriptable, Bool.or_eq_true] at h
  simp only [isScalar, isArray, isVector, isMatrix, hasLanes] at *
  grind

theorem part?_of_subscriptable {base : Shape} (h : base.isSubscriptable = true) :
    base.part? = some base.element := by
  simp [part?, not_isScalar_of_subscriptable h, h]

theorem element_of_isVector {base : Shape} (h : base.isVector = true) :
    base.element = scalar base.basic := by
  have harray : base.isArray = false := by
    simp only [isArray, isVector, hasLanes] at *
    grind
  have hmatrix : base.isMatrix = false := by
    simp only [isMatrix, isVector] at *
    grind
  simp [element, harray, hmatrix, h]

theorem scalar_basic_eq {base : Shape} (h : base.isScalar = true) (hplain : base.Plain) :
    scalar base.basic = base := by
  have hname : base.typeName = "" := hplain.typeName_eq (by simp_all [isScalar])
  obtain ⟨basic, rows, cols, arrayLength, typeName⟩ := base
  simp_all [isScalar, hasLanes, scalar]

/-- One component of a vector or a scalar. -/
theorem part?_component {base : Shape} (h : base.isVector = true ∨ base.isScalar = true)
    (hplain : base.Plain) : base.part? = some (scalar base.basic) := by
  rcases h with h | h
  · have hsub : base.isSubscriptable = true := by simp [isSubscriptable, h]
    rw [part?_of_subscriptable hsub, element_of_isVector h]
  · rw [scalar_basic_eq h hplain]
    simp [part?, h]

end Shape

namespace Expression

theorem getElem?_of_findIdx? {fields : List Field} {p : Field → Bool} {position : Nat}
    {field : Field} (hposition : fields.findIdx? p = some position)
    (hfield : fields.find? p = some field) : fields[position]? = some field := by
  induction fields generalizing position with
  | nil => cases hfield
  | cons first fields ih =>
    rw [List.findIdx?_cons] at hposition
    rw [List.find?_cons] at hfield
    cases hp : p first with
    | true =>
      simp only [hp, if_true] at hposition hfield
      cases hposition
      cases hfield
      rfl
    | false =>
      simp only [hp, Bool.false_eq_true, if_false] at hposition hfield
      obtain ⟨earlier, hearlier, rfl⟩ := Option.map_eq_some_iff.1 hposition
      exact ih hearlier hfield

theorem fieldAt?_eq_some {fields : List Field} {name : String} {position : Nat} {shape : Shape}
    (h : fieldAt? fields name = some (position, shape)) :
    fields[position]?.map Field.shape = some shape := by
  unfold fieldAt? at h
  split at h
  · next hposition hfield =>
    cases h
    rw [getElem?_of_findIdx? hposition hfield, Option.map_some]
  · cases h

/-- A target that is no structure has no fields to check. -/
theorem constructorComplaint?_nil {target : Shape} (h : target.basic ≠ .struct)
    (fields : List Field) (args : List Shape) :
    constructorComplaint? target fields args = constructorComplaint? target [] args := by
  simp [constructorComplaint?, h]

end Expression

/-! ## Two operands, operator by operator -/

namespace Declarations

variable {d : Declarations} {n l r : Node} {shape : Shape}

theorem shapeOf?_binary {node : NodeId → Node} {left right : NodeId} (hform : n.form = .binary)
    (hoperands : n.operands = [left, right])
    (h : d.binaryShape? n (node left) (node right) = some shape) :
    d.shapeOf? node false n = some shape := by
  unfold shapeOf?
  simp only [hform, hoperands, h]

theorem binaryShape?_field (hop : n.op = .field) (hbase : l.shape.basic = .struct)
    (hsingle : l.shape.isArray = false) {position : Int}
    (hplace : r.constant? = some (.int position))
    (hfield : d.hasField l.shape.typeName n.shape position = true) :
    d.binaryShape? n l r = some n.shape := by
  unfold binaryShape?
  rw [hop]
  exact if_pos (by simp [hbase, hsingle, hplace, Constant.integer?, hfield])

theorem binaryShape?_index (hop : n.op = .index)
    (hindex : r.shape.isScalar = true ∧ r.shape.basic.isIntegral = true) {value : Constant}
    (hvalue : r.constant? = some value) (hpart : l.shape.part? = some shape) :
    d.binaryShape? n l r = some shape := by
  unfold binaryShape?
  rw [hop]
  exact (if_pos (by simp [hindex, hvalue])).trans hpart

theorem binaryShape?_indexIndirect (hop : n.op = .indexIndirect)
    (hindex : r.shape.isScalar = true ∧ r.shape.basic.isIntegral = true)
    (hvalue : r.constant? = none) (hbase : l.shape.isSubscriptable = true) :
    d.binaryShape? n l r = some l.shape.element := by
  unfold binaryShape?
  rw [hop]
  exact if_pos (by simp [hindex, hvalue, hbase])

theorem binaryShape?_swizzle (hop : n.op = .swizzle)
    (hbase : l.shape.isVector = true ∨ l.shape.isScalar = true) (hr : r.op = .swizzleSelector)
    {width : Nat} (hwidth : r.operands.length = width) :
    d.binaryShape? n l r = some (.vector l.shape.basic width) := by
  unfold binaryShape?
  rw [hop, ← hwidth]
  exact if_pos (by simpa [hr] using hbase)

/-- Neither an assignment nor an access is read as a binary operator. -/
theorem binaryShape?_operator {mark : Symbol} {precedence : Nat}
    (hop : Expression.binaryOperator? mark = some (precedence, n.op)) :
    d.binaryShape? n l r = Shape.binary? n.op l.shape r.shape := by
  unfold binaryShape?
  generalize n.op = op at hop
  cases mark <;> cases hop <;> rfl

theorem binaryShape?_assignment (hop : n.op.isAssignment = true) :
    d.binaryShape? n l r = l.shape.assign? n.op r.shape := by
  unfold binaryShape?
  generalize n.op = op at hop
  cases op <;> first | rfl | cases hop

end Declarations

/-! ## Nodes that are made -/

namespace Makes

variable {s : ParserState}

theorem field_checks {typeName name : String} {decl : StructDecl} {position : Nat} {shape : Shape}
    (hdecl : s.struct? typeName = some decl)
    (hfield : Expression.fieldAt? decl.fields name = some (position, shape)) :
    s.declarations.hasField typeName shape position = true := by
  have hname : decl.name = typeName := by simpa using List.find?_some hdecl
  refine List.any_eq_true.2 ⟨decl, List.mem_of_find?_eq_some hdecl, ?_⟩
  simp [hname, Expression.fieldAt?_eq_some hfield]

theorem construct_checks {name : String} {target : Shape} {args : List Shape}
    (h : s.type? name = some target)
    (hargs : Expression.constructorComplaint? target (((s.struct? name).map (·.fields)).getD [])
      args = none) : s.declarations.constructs target args = true := by
  unfold Declarations.constructs
  split
  · next hstruct =>
    -- no type of the language is a structure
    have htable : ∀ entry ∈ Builtin.types, entry.2.basic ≠ .struct := by decide
    unfold ParserState.type? at h
    split at h
    · next shape hbuiltin =>
      cases h
      exact absurd (by simpa using hstruct) (htable _ (Builtin.lookup_mem hbuiltin))
    · obtain ⟨decl, hdecl, rfl⟩ := Option.map_eq_some_iff.1 h
      refine List.any_eq_true.2 ⟨decl, List.mem_of_find?_eq_some hdecl, ?_⟩
      rw [hdecl] at hargs
      simp only [Option.map_some, Option.getD_some] at hargs
      rw [hargs]
      simp [Shape.ofStruct]
  · next hstruct =>
    rw [Expression.constructorComplaint?_nil (by simpa using hstruct)] at hargs
    rw [hargs]
    rfl

theorem builtin_checks {name : String} {fn : Builtin.Function} {args : List NodeId}
    (h : Builtin.function? name = some fn)
    (hcount : fn.minArgs ≤ args.length ∧ args.length ≤ fn.maxArgs)
    (hargs : ∀ arg ∈ args, (s.shape arg).basic ≠ .void) :
    Builtin.call? name (args.map s.shape) = some (fn.result.shape (args.map s.shape)) := by
  unfold Builtin.call?
  rw [h]
  simp only [List.length_map]
  rw [if_pos]
  simp [hcount]
  exact hargs

theorem call_checks (hs : Checked s) {name : String} {decl : FunctionDecl} {args : List Shape}
    (h : Expression.resolveOverload? (s.overloads name) args = some decl) :
    s.declarations.call? decl.name decl.signature args = some decl.result := by
  obtain ⟨hmem, haccepts⟩ := Expression.resolveOverload?_eq_some h
  have hdecl : decl ∈ s.functions := (List.mem_filter.1 hmem).1
  unfold Declarations.call?
  rw [ParserState.declarations_function?, hs.functions decl hdecl]
  exact if_pos haccepts

theorem choice_checks {condition yes no : NodeId} {shape : Shape} {line : Int}
    (hbool : s.shape condition = .scalar .bool)
    (h : Shape.common? (s.shape yes) (s.shape no) = some shape) :
    s.declarations.shapeOf? s.node false
      { form := .selection, shape, line, operands := [condition, yes, no] } = some shape :=
  (if_pos (beq_iff_eq.2 hbool)).trans h

/-- A node passes when it is made, and as an expression unless it is an `if` statement. -/
theorem checks {n : Node} (hn : Makes s n) (hs : Checked s) (hp : PlainShapes s) :
    ∃ isStatement, s.declarations.shapeOf? s.node isStatement n = some n.shape := by
  cases hn with
  | literal _ => exact ⟨false, rfl⟩
  | expansion _ => exact ⟨false, rfl⟩
  | constantVariable _ _ => exact ⟨false, rfl⟩
  | place _ => exact ⟨false, rfl⟩
  | negatedLiteral _ hvalue _ =>
    refine ⟨false, ?_⟩
    rw [hs.constant_shape hvalue]
    exact congrArg (fun basic => some (Shape.scalar basic)) (Constant.negate_basic _)
  | named _ _ => exact ⟨false, rfl⟩
  | declaration _ => exact ⟨false, rfl⟩
  | field hstruct hsingle hdecl hfield hplace =>
    refine ⟨false, ?_⟩
    refine Declarations.shapeOf?_binary rfl rfl ?_
    exact Declarations.binaryShape?_field rfl hstruct hsingle hplace (field_checks hdecl hfield)
  | @component base place _ _ hbase _ hplace hshape =>
    refine ⟨false, ?_⟩
    have hindex : (s.shape place).isScalar = true ∧ (s.shape place).basic.isIntegral = true := by
      rw [hshape]
      exact ⟨rfl, rfl⟩
    refine Declarations.shapeOf?_binary rfl rfl ?_
    exact Declarations.binaryShape?_index rfl hindex hplace
      (Shape.part?_component hbase (hp.nodes base))
  | selector _ => exact ⟨false, rfl⟩
  | @swizzle base selected name components places _ _ hbase _ _ hselected hplaces =>
    refine ⟨false, ?_⟩
    have hlength : (s.node selected).operands.length = components.length := by
      rw [hselected]
      simpa using congrArg List.length hplaces
    refine Declarations.shapeOf?_binary rfl rfl ?_
    exact Declarations.binaryShape?_swizzle rfl hbase (by rw [hselected]) hlength
  | @subscript base index _ hbase hindex hvalue =>
    refine ⟨false, ?_⟩
    have hsub : (s.shape base).isSubscriptable = true := by
      simpa [Shape.isSubscriptable, or_assoc] using hbase
    refine Declarations.shapeOf?_binary rfl rfl ?_
    exact Declarations.binaryShape?_indexIndirect rfl hindex hvalue hsub
  | @constantSubscript base index _ _ hbase hindex hvalue _ =>
    refine ⟨false, ?_⟩
    have hsub : (s.shape base).isSubscriptable = true := by
      simpa [Shape.isSubscriptable, or_assoc] using hbase
    refine Declarations.shapeOf?_binary rfl rfl ?_
    exact Declarations.binaryShape?_index rfl hindex hvalue (Shape.part?_of_subscriptable hsub)
  | construct h hargs => exact ⟨false, if_pos (construct_checks h hargs)⟩
  | @builtin name fn args _ _ h hcount hargs =>
    refine ⟨false, ?_⟩
    have hchecks := builtin_checks h hcount hargs
    match args, hchecks with
    | [], hchecks => exact hchecks
    | [_], hchecks => exact hchecks
    | _ :: _ :: _, hchecks => exact hchecks
  | call _ _ h => exact ⟨false, call_checks hs h⟩
  | step hop hnumeric =>
    refine ⟨false, ?_⟩
    simp only [List.mem_cons, List.not_mem_nil, or_false] at hop
    rcases hop with rfl | rfl | rfl | rfl <;> exact if_pos hnumeric
  | negate hnumeric _ => exact ⟨false, if_pos hnumeric⟩
  | logicalNot hbool => exact ⟨false, if_pos (beq_iff_eq.2 hbool)⟩
  | bitwiseNot hinteger => exact ⟨false, if_pos hinteger⟩
  | binary hop h => exact ⟨false, (Declarations.binaryShape?_operator hop).trans h⟩
  | comma => exact ⟨false, rfl⟩
  | assign h => exact ⟨false, if_pos h⟩
  | @compoundAssign op base l r result _ hop h haccepts =>
    refine ⟨false, ?_⟩
    have hassign : op.isAssignment = true := by cases op <;> first | rfl | cases hop
    refine (Declarations.binaryShape?_assignment hassign).trans ?_
    simp only [Shape.assign?, hop, ParserState.node_shape, h, haccepts, if_true]
  | choice hbool h => exact ⟨false, choice_checks hbool h⟩
  | sequence _ => exact ⟨false, rfl⟩
  | ifStatement hbool _ => exact ⟨true, if_pos (beq_iff_eq.2 hbool)⟩
  | loop htest =>
    refine ⟨false, ?_⟩
    exact if_pos ((Option.all_eq_true _ _).2 fun test hmem => beq_iff_eq.2 (htest test hmem))
  | branch _ => exact ⟨false, rfl⟩
  | function h =>
    refine ⟨false, ?_⟩
    exact congrArg (Option.map Prod.snd) h

end Makes

/-! ## Runs -/

namespace Checked

variable {s s' : ParserState}

theorem start (tokens : List Token) : Checked { rest := tokens } :=
  ⟨fun _ h => (Nat.not_lt_zero _ h).elim, fun _ h => (Nat.not_lt_zero _ h).elim,
    fun _ h => (List.not_mem_nil h).elim⟩

theorem functions_step (h : Checked s) (hstep : Step s s') : ∀ decl ∈ s'.functions,
    s'.declared? decl.name decl.signature = some (decl.params, decl.result) := by
  have hkept : ∀ decl ∈ s.functions,
      s'.declared? decl.name decl.signature = some (decl.params, decl.result) :=
    fun decl hdecl => hstep.grows.declared (h.functions decl hdecl)
  cases hstep with
  | @function decl hnew _ _ =>
    intro decl' hdecl'
    rcases List.mem_append.1 hdecl' with hdecl' | hdecl'
    · exact hkept decl' hdecl'
    · rw [List.mem_singleton.1 hdecl']
      unfold ParserState.declared? at hnew ⊢
      unfold ParserState.addFunction
      rw [List.find?_append, Option.map_eq_none_iff.1 hnew, Option.none_or]
      simp
  | defined name signature =>
    intro decl' hdecl'
    obtain ⟨decl, hdecl, rfl⟩ := List.mem_map.1 hdecl'
    split <;> exact hkept decl hdecl
  | _ => exact hkept

theorem step (h : Checked s) (hp : PlainShapes s) (hstep : Step s s') : Checked s' := by
  have hgrows := hstep.grows
  have hold : ∀ id, s.Has id →
      (∃ isStatement,
        s'.declarations.shapeOf? s'.node isStatement (s'.node id) = some (s'.shape id)) ∧
        ∀ c ∈ (s'.node id).children, s'.Has c := by
    intro id hid
    obtain ⟨isStatement, hshape⟩ := h.shapes id hid
    rw [hgrows.shape_eq hid, hgrows.node_eq hid]
    exact ⟨⟨isStatement, shapeOf?_grows hgrows (h.children id hid) hshape⟩,
      fun c hc => hgrows.has (h.children id hid c hc)⟩
  have hall : ∀ id, s'.Has id →
      (∃ isStatement,
        s'.declarations.shapeOf? s'.node isStatement (s'.node id) = some (s'.shape id)) ∧
        ∀ c ∈ (s'.node id).children, s'.Has c := by
    cases hstep with
    | @node n hn hchildren =>
      intro id hid
      rcases (s.has_push_iff n).1 hid with hid | rfl
      · exact hold id hid
      · obtain ⟨isStatement, hshape⟩ := hn.checks h hp
        unfold ParserState.shape
        rw [s.node_push_size]
        exact ⟨⟨isStatement, shapeOf?_grows hgrows hchildren hshape⟩, fun c hc =>
          hgrows.has (hchildren c hc)⟩
    | _ => exact hold
  exact ⟨fun id hid => (hall id hid).1, fun id hid => (hall id hid).2, h.functions_step hstep⟩

end Checked

theorem Steps.checked {s s' : ParserState} (h : Steps s s') (hs : Checked s) (hp : PlainShapes s) :
    Checked s' := by
  induction h with
  | refl => exact hs
  | tail hsteps hstep ih => exact ih.step (Steps.plainShapes hsteps hp) hstep

/-! ## Conditional expressions -/

namespace Expression

open ShaderCost.Parser

/-- The rule for conditionals reads a choice: there is a question mark behind its chain. -/
structure ReadsChoice (callee : Rule → Parser NodeId) (s : ParserState) (id : NodeId)
    (s' : ParserState) : Prop where
  run : conditional callee s = .ok (id, s')
  question : ∃ test m, binary callee 1 s = .ok (test, m) ∧ m.front.lexeme = .symbol .question

/-- The node is a choice between expressions: it passes without being a statement. -/
structure IsChoice (s : ParserState) (id : NodeId) : Prop where
  has : s.Has id
  form : (s.node id).form = .selection
  children : ∀ c ∈ (s.node id).children, s.Has c
  shape : s.declarations.shapeOf? s.node false (s.node id) = some (s.shape id)

theorem IsChoice.grows {s s' : ParserState} {id : NodeId} (h : IsChoice s id)
    (hgrows : Grows s s') : IsChoice s' id := by
  have hnode := hgrows.node_eq h.has
  constructor
  · exact hgrows.has h.has
  · rw [hnode, h.form]
  · rw [hnode]
    exact fun c hc => hgrows.has (h.children c hc)
  · rw [hgrows.shape_eq h.has, hnode]
    exact shapeOf?_grows hgrows h.children h.shape

theorem Tied.does {self : Rule → Parser NodeId} (h : Tied self) (rule : Rule) (s : ParserState) :
    (self rule).Does s Handed := by
  cases h with
  | whole => exact parse_does rule s
  | within depth =>
    induction depth generalizing rule s with
    | zero => exact .fail _
    | succ depth ih => exact rules_does ih rule s

theorem ReadsChoice.isChoice {callee : Rule → Parser NodeId} {s s' : ParserState} {id : NodeId}
    (h : ReadsChoice callee s id s') (hcallee : Tied callee) : IsChoice s' id := by
  obtain ⟨test, m, hchain, hquestion⟩ := h.question
  have htest : (binary callee 1).Does s fun id s' => id = test ∧ s' = m ∧ s'.Has id := by
    intro id s' hrun
    obtain ⟨hsteps, hhas⟩ := binary_does hcallee.does 1 hrun
    cases hchain.symm.trans hrun
    exact ⟨hsteps, rfl, rfl, hhas⟩
  have hdoes : (conditional callee).Does s fun id s' => IsChoice s' id := by
    refine htest.bind ?_
    rintro test m - ⟨rfl, rfl, hhas⟩
    refine .isAt_front (.ite (fun hno => ?_) fun _ => ?_)
    · simp [hquestion] at hno
    · refine .advance (.shapeAt (.check fun hbool => ?_))
      refine (hcallee.does _ _).bind fun yes s₂ hs₂ hyes => .expectLexeme ?_
      refine (hcallee.does _ _).bind fun no s₃ hs₃ hno => .shapeAt (.shapeAt ?_)
      split
      · exact .failAt _ _
      · next shape hshape =>
        have hgrows : Grows m.next s₃ :=
          hs₂.grows.trans ((Step.consume (s := s₂)).grows.trans hs₃.grows)
        have hchildren := has_cons (hgrows.has hhas)
          (has_cons (hs₃.grows.has hyes) (has_cons hno has_nil))
        have hscalar : s₃.shape test = .scalar .bool := by
          rw [hgrows.shape_eq hhas]
          simpa using hbool
        rw [← bind_pure (addNode _)]
        refine .addNode (.choice hscalar hshape) hchildren ?_
        rintro id _ rfl hpush hid hnode
        refine .pure ⟨hid, ?_, ?_, ?_⟩
        · rw [hnode]
        · rw [hnode]
          exact fun c hc => hpush.has (hchildren c hc)
        · unfold ParserState.shape
          rw [hnode]
          refine shapeOf?_grows hpush ?_ (Makes.choice_checks hscalar hshape)
          exact hchildren
  exact (hdoes h.run).2

end Expression

/-- **Every node of a shader that is read, reachable or not, has the shape that the checker
computes** from the shapes of its operands and the declarations at the end of the shader. A choice
passes as a statement or as an expression, and those that the rule for conditionals reads, wherever
reading the source has come to and whatever depth the rule is given, pass as expressions: they have
the shape that their branches have in common, also after all that is read later. -/
theorem arena_well_typed {source : Bytes} {t : Tree} (h : Tree.ofSource source = .ok t) :
    ∃ root s, Shader.shader.run { rest := tokenize source } = .ok (root, s) ∧ t.nodes = s.nodes ∧
      (∀ id < t.size, ∃ isStatement,
        s.declarations.shapeOf? t.node isStatement (t.node id) = some (t.node id).shape) ∧
      ∀ callee s₁ id s₂, Expression.Tied callee → Reading (tokenize source) s₁ →
        Expression.ReadsChoice callee s₁ id s₂ → ∀ s₃, Steps s₂ s₃ →
        (s₃.node id).form = .selection ∧
          s₃.declarations.shapeOf? s₃.node false (s₃.node id) = some (s₃.shape id) := by
  obtain ⟨root, s, hrun, rfl, hsteps⟩ := Tree.ofTokens_steps h
  have hchecked : Checked s := Steps.checked hsteps (.start _) (.start _)
  refine ⟨root, s, hrun, rfl, hchecked.shapes, ?_⟩
  intro callee s₁ id s₂ hcallee _ hchoice s₃ hlater
  have hlast := (hchoice.isChoice hcallee).grows hlater.grows
  exact ⟨hlast.form, hlast.shape⟩

/-- A choice between vectors, a product of linear algebra, a selector, and a call with an integer
for a float. -/
def mixedShapes : Bytes :=
  Bytes.ofString "vec3 c = true ? vec3(1) : vec3(2);\nfloat f(float x) {return -x;}\n" ++
    Bytes.ofString "void main() {vec3 v = mat3(2) * c; v.xy *= f(3);}"

theorem arena_well_typed_mixedShapes : ∃ t, Tree.ofSource mixedShapes = .ok t ∧
    (∃ root s, Shader.shader.run { rest := tokenize mixedShapes } = .ok (root, s) ∧
      t.nodes = s.nodes ∧ ∀ id < t.size, ∃ isStatement,
        s.declarations.shapeOf? t.node isStatement (t.node id) = some (t.node id).shape) ∧
    ∃ s₁ s₂, Reading (tokenize mixedShapes) s₁ ∧
      Expression.ReadsChoice Expression.parse s₁ 5 s₂ ∧ s₂.shape 5 = .vector .float 3 ∧
      s₂.declarations.shapeOf? s₂.node false (s₂.node 5) = some (.vector .float 3) := by
  have hok : (Tree.ofSource mixedShapes).isOk = true := by decide +kernel
  let start : ParserState := { rest := tokenize mixedShapes }
  have hnotLast : start.front.lexeme.isLast = false ∧ start.next.front.lexeme.isLast = false ∧
      start.next.next.front.lexeme.isLast = false := by decide +kernel
  have hs : Reading (tokenize mixedShapes) start.next.next.next :=
    ((Reading.start (tokenize_ended mixedShapes)).next hnotLast.1 |>.next hnotLast.2.1).next
      hnotLast.2.2
  have hchain : (Expression.binary Expression.parse 1 start.next.next.next).toOption.any
      (fun x => decide (x.2.front.lexeme = .symbol .question)) = true := by decide +kernel
  have hchoice : (Expression.conditional Expression.parse start.next.next.next).toOption.any
      (fun x => decide (x.1 = 5 ∧ x.2.shape 5 = .vector .float 3)) = true := by decide +kernel
  generalize mixedShapes = source at *
  generalize start.next.next.next = s₁ at hs hchain hchoice
  obtain ⟨t, ht⟩ := Tree.exists_of_isOk hok
  obtain ⟨⟨test, m⟩, hchain, hquestion⟩ := exists_ok_of_any hchain
  obtain ⟨⟨id, s₂⟩, hrun, hfacts⟩ := exists_ok_of_any hchoice
  obtain ⟨rfl, hshape⟩ := of_decide_eq_true hfacts
  have hreads : Expression.ReadsChoice Expression.parse s₁ 5 s₂ :=
    ⟨hrun, test, m, hchain, of_decide_eq_true hquestion⟩
  obtain ⟨root, s, hread, hnodes, hchecked, hchoices⟩ := arena_well_typed ht
  obtain ⟨-, hfound⟩ := hchoices _ s₁ 5 s₂ .whole hs hreads s₂ .refl
  exact ⟨t, ht, ⟨root, s, hread, hnodes, hchecked⟩, s₁, s₂, hs, hreads, hshape, hshape ▸ hfound⟩

end ShaderCost
