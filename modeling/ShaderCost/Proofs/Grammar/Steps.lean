import Mathlib.Logic.Relation
import ShaderCost.Grammar.Shader

/-! # What reading a shader can do

Reading changes the state of the parser in few ways, and `Step` lists them all. The most important
is to add a node, and `Makes` lists the nodes that the grammar adds, each with what it has checked
before: the shapes of the operands, the declaration behind a name, the components behind a selector.
Every invariant of reading follows from these two lists by induction.

`Parser.Does p s Q` says that a run of `p` from `s` that does not complain is a sequence of steps
and ends with `Q`. What has been checked in one state still holds in a later one, for nodes and
types are only added (`Grows`).
-/

namespace ShaderCost

namespace Builtin.ResultRule

/-- The shape of the result, where an argument that is missing counts as void. -/
def shape (rule : ResultRule) (args : List Shape) : Shape :=
  let first := args.headD .void
  match rule with
  | sameAsFirst => first
  | sameAsLast => args.getLastD .void
  | fixed shape => shape
  | lanesOf basic => .vector basic first.elements
  | transposed => .matrix first.rows.toNat first.cols.toNat
  | outerProduct => .matrix (args.getD 1 .void).elements first.elements

theorem shape_eq_of_shape? {rule : ResultRule} {args : List Shape} {result : Shape}
    (h : rule.shape? args = some result) : rule.shape args = result := by
  cases rule with
  | fixed shape => exact Option.some.inj h
  | sameAsLast =>
    change args.getLast? = some result at h
    rw [shape, List.getLastD_eq_getLast?, h]
    rfl
  | _ =>
    cases args with
    | nil => cases h
    | cons first others => grind [shape, shape?]

end Builtin.ResultRule

namespace ParserState

def node (s : ParserState) (id : NodeId) : Node := s.nodes.getD id default

def shape (s : ParserState) (id : NodeId) : Shape := (s.node id).shape

@[simp]
theorem node_shape (s : ParserState) (id : NodeId) : (s.node id).shape = s.shape id := rfl

/-- The number belongs to a node. -/
def Has (s : ParserState) (id : NodeId) : Prop := id < s.nodes.size

/-- The parameters and the result of a declared function. -/
def declared? (s : ParserState) (name signature : String) : Option (List Shape × Shape) :=
  (s.functions.find? fun d => d.name == name && d.signature == signature).map fun d =>
    (d.params, d.result)

/-- The shapes that a declaration can give: those of type names, and arrays of them. -/
inductive IsType (s : ParserState) : Shape → Prop where
  | builtin {name : String} {shape : Shape} (h : Builtin.type? name = some shape) : IsType s shape
  | struct {decl : StructDecl} (h : decl ∈ s.structs) : IsType s (.ofStruct decl.name)
  | array {shape : Shape} {length : Int} (h : IsType s shape) (hsingle : shape.isArray = false)
      (hpos : 0 < length) : IsType s { shape with arrayLength := length }

/-- A number that a selector can stand for: a component of a vector, or the place of a field. -/
def IsPlace (s : ParserState) (position : Nat) : Prop :=
  position < 4 ∨ ∃ decl ∈ s.structs, position < decl.fields.length

/-- A constant variable of the given shape stands for the value, which a literal gives it. -/
def Folds (s : ParserState) (shape : Shape) (value : Constant) : Prop :=
  ∃ id initial, s.Has id ∧ (s.node id).constant? = some initial ∧
    shape.accepts (s.shape id) = true ∧ shape.isScalar = true ∧
    value = if shape.basic == .float then initial.toFloat else initial

/-! ## Parts of the state after a step -/

/-- The token in front. -/
def front (s : ParserState) : Token := s.rest.headD .nowhere

/-- Behind the token in front. -/
def next (s : ParserState) : ParserState := { s with rest := s.rest.tail }

def push (s : ParserState) (n : Node) : ParserState := { s with nodes := s.nodes.push n }

def opened (s : ParserState) : ParserState :=
  { s with scope := [], enclosing := s.scope :: s.enclosing }

def closed (s : ParserState) : ParserState :=
  { s with scope := s.enclosing.headD [], enclosing := s.enclosing.tail }

def addVariable (s : ParserState) (v : Variable) : ParserState := { s with scope := v :: s.scope }

def addGlobal (s : ParserState) (id : NodeId) : ParserState :=
  { s with globals := s.globals ++ [id] }

def addStruct (s : ParserState) (decl : StructDecl) : ParserState :=
  { s with structs := decl :: s.structs }

def addFunction (s : ParserState) (decl : FunctionDecl) : ParserState :=
  { s with functions := s.functions ++ [decl] }

/-- The declarations of a function are marked as having a body. -/
def withBody (s : ParserState) (name signature : String) : ParserState :=
  { s with
    functions := s.functions.map fun d =>
      if d.name == name && d.signature == signature then { d with isDefined := true } else d }

end ParserState

/-! ## The nodes that the grammar makes -/

open Expression in
/-- The nodes that may be added in a state. -/
inductive Makes (s : ParserState) : Node → Prop where
  -- literals
  | literal {lexeme : Lexeme} {value : Constant} {line : Int}
      (h : Literal.value lexeme = .ok value) :
      Makes s { form := .constant value, shape := .scalar value.basic, line }
  | expansion {name : String} {value : Constant} {line : Int}
      (h : s.expansion? name = some value) :
      Makes s { form := .constant value, shape := .scalar value.basic, line }
  | constantVariable {name : String} {v : Variable} {value : Constant} {line : Int}
      (h : s.lookup? name = some v) (hvalue : v.value = some value) :
      Makes s { form := .constant value, shape := .scalar value.basic, line }
  | place {position : Nat} {line : Int} (h : s.IsPlace position) :
      Makes s { form := .constant (.int position), shape := .scalar .int, line }
  | negatedLiteral {x : NodeId} {value : Constant} {line : Int} (hx : s.Has x)
      (hvalue : (s.node x).constant? = some value) (hnumeric : (s.shape x).isNumeric = true) :
      Makes s { form := .constant value.negate, shape := s.shape x, line }
  -- names
  | named {name : String} {v : Variable} {line : Int} (h : s.lookup? name = some v)
      (hvalue : v.value = none) :
      Makes s { form := .symbol, name := v.name, shape := v.shape, line }
  | declaration {name : String} {shape : Shape} {line : Int} (h : s.IsType shape) :
      Makes s { form := .symbol, name, shape, line }
  -- parts of a value
  | field {base place : NodeId} {decl : StructDecl} {name : String} {position : Nat} {shape : Shape}
      {line : Int} (hstruct : (s.shape base).basic = .struct)
      (hsingle : (s.shape base).isArray = false)
      (hdecl : s.struct? (s.shape base).typeName = some decl)
      (hfield : fieldAt? decl.fields name = some (position, shape))
      (hplace : (s.node place).constant? = some (.int position)) :
      Makes s { form := .binary, op := .field, shape, line, operands := [base, place] }
  | component {base place : NodeId} {position : Nat} {line : Int}
      (hbase : (s.shape base).isVector = true ∨ (s.shape base).isScalar = true)
      (hrange : position < (s.shape base).rows.toNat)
      (hplace : (s.node place).constant? = some (.int position))
      (hshape : s.shape place = .scalar .int) :
      Makes s { form := .binary, op := .index, shape := .scalar (s.shape base).basic, line,
                operands := [base, place] }
  | selector {places : List NodeId} {line : Int}
      (h : ∀ place ∈ places, ∃ position : Nat, (s.node place).constant? = some (.int position)) :
      Makes s { form := .aggregate, op := .swizzleSelector, line, operands := places }
  | swizzle {base selected : NodeId} {name : String} {components : List Nat}
      {places : List NodeId} {line selectorLine : Int}
      (hbase : (s.shape base).isVector = true ∨ (s.shape base).isScalar = true)
      (hcomponents : swizzleComponents name (s.shape base).rows.toNat = some components)
      (hmany : components.length ≠ 1)
      (hselected : s.node selected = { form := .aggregate, op := .swizzleSelector,
                                       line := selectorLine, operands := places })
      (hplaces : places.map (fun place => (s.node place).constant?) =
        components.map fun component => some (.int component)) :
      Makes s { form := .binary, op := .swizzle,
                shape := .vector (s.shape base).basic components.length, line,
                operands := [base, selected] }
  | subscript {base index : NodeId} {line : Int}
      (hbase : (s.shape base).isArray = true ∨ (s.shape base).isVector = true ∨
        (s.shape base).isMatrix = true)
      (hindex : (s.shape index).isScalar = true ∧ (s.shape index).basic.isIntegral = true)
      (hvalue : (s.node index).constant? = none) :
      Makes s { form := .binary, op := .indexIndirect, shape := (s.shape base).element, line,
                operands := [base, index] }
  | constantSubscript {base index : NodeId} {value : Constant} {line : Int}
      (hbase : (s.shape base).isArray = true ∨ (s.shape base).isVector = true ∨
        (s.shape base).isMatrix = true)
      (hindex : (s.shape index).isScalar = true ∧ (s.shape index).basic.isIntegral = true)
      (hvalue : (s.node index).constant? = some value)
      (hrange : 0 ≤ value.integer?.getD 0 ∧ value.integer?.getD 0 < (s.shape base).subscriptLimit) :
      Makes s { form := .binary, op := .index, shape := (s.shape base).element, line,
                operands := [base, index] }
  -- calls
  | construct {name : String} {target : Shape} {args : List NodeId} {line : Int}
      (h : s.type? name = some target)
      (hargs : constructorComplaint? target (((s.struct? name).map (·.fields)).getD [])
        (args.map s.shape) = none) :
      Makes s { form := .aggregate, op := .construct, shape := target, line, operands := args }
  | builtin {name : String} {fn : Builtin.Function} {args : List NodeId} {line : Int}
      (htype : s.type? name = none) (h : Builtin.function? name = some fn)
      (hcount : fn.minArgs ≤ args.length ∧ args.length ≤ fn.maxArgs)
      (hargs : ∀ arg ∈ args, (s.shape arg).basic ≠ .void) :
      Makes s { form := if args.length == 1 then .unary else .aggregate, op := .builtin, name,
                shape := fn.result.shape (args.map s.shape), line, operands := args }
  | call {name : String} {decl : FunctionDecl} {args : List NodeId} {line : Int}
      (htype : s.type? name = none) (hbuiltin : Builtin.function? name = none)
      (h : resolveOverload? (s.overloads name) (args.map s.shape) = some decl) :
      Makes s { form := .aggregate, op := .call, name := decl.name, signature := decl.signature,
                shape := decl.result, line, operands := args }
  -- one operand
  | step {op : Operator} {x : NodeId} {line : Int}
      (hop : op ∈ [.preIncrement, .preDecrement, .postIncrement, .postDecrement])
      (hnumeric : (s.shape x).isNumeric = true) :
      Makes s { form := .unary, op, shape := s.shape x, line, operands := [x] }
  | negate {x : NodeId} {line : Int} (hnumeric : (s.shape x).isNumeric = true)
      (hvalue : (s.node x).constant? = none) :
      Makes s { form := .unary, op := .negate, shape := s.shape x, line, operands := [x] }
  | logicalNot {x : NodeId} {line : Int} (hbool : s.shape x = .scalar .bool) :
      Makes s { form := .unary, op := .logicalNot, shape := s.shape x, line, operands := [x] }
  | bitwiseNot {x : NodeId} {line : Int} (hinteger : (s.shape x).isInteger = true) :
      Makes s { form := .unary, op := .bitwiseNot, shape := s.shape x, line, operands := [x] }
  -- two operands
  | binary {mark : Symbol} {precedence : Nat} {op : Operator} {l r : NodeId} {shape : Shape}
      {line : Int} (hop : binaryOperator? mark = some (precedence, op))
      (h : Shape.binary? op (s.shape l) (s.shape r) = some shape) :
      Makes s { form := .binary, op, shape, line, operands := [l, r] }
  | comma {l r : NodeId} {line : Int} :
      Makes s { form := .binary, op := .comma, shape := s.shape r, line, operands := [l, r] }
  | assign {l r : NodeId} {line : Int} (h : (s.shape l).accepts (s.shape r) = true) :
      Makes s { form := .binary, op := .assign, shape := s.shape l, line, operands := [l, r] }
  | compoundAssign {op base : Operator} {l r : NodeId} {result : Shape} {line : Int}
      (hop : op.compoundBase? = some base)
      (h : Shape.binary? base (s.shape l) (s.shape r) = some result)
      (haccepts : (s.shape l).accepts result = true) :
      Makes s { form := .binary, op, shape := s.shape l, line, operands := [l, r] }
  | choice {condition yes no : NodeId} {shape : Shape} {line : Int}
      (hbool : s.shape condition = .scalar .bool)
      (h : Shape.common? (s.shape yes) (s.shape no) = some shape) :
      Makes s { form := .selection, shape, line, operands := [condition, yes, no] }
  -- statements
  | sequence {op : Operator} {items : List NodeId} {line : Int}
      (hop : op ∈ [.sequence, .parameters, .linkerObjects]) :
      Makes s { form := .sequence, op, line, operands := items }
  | ifStatement {condition yes : NodeId} {no : List NodeId} {line : Int}
      (hbool : s.shape condition = .scalar .bool) (hno : no.length ≤ 1) :
      Makes s { form := .selection, line, operands := [condition, yes] ++ no }
  | loop {parts : LoopParts} {line : Int}
      (htest : ∀ test ∈ parts.test, s.shape test = .scalar .bool) :
      Makes s { form := .loop parts, line }
  | branch {op : Operator} {values : List NodeId} {line : Int}
      (hop : op ∈ [.return, .break, .continue, .discard]) :
      Makes s { form := .branch, op, line, operands := values }
  | function {name signature : String} {params : List Shape} {result : Shape} {line : Int}
      {list body : NodeId} (h : s.declared? name signature = some (params, result)) :
      Makes s { form := .function, op := .function, name, signature, shape := result, line,
                operands := [list, body] }

/-! ## Steps -/

/-- One change of the state. -/
inductive Step (s : ParserState) : ParserState → Prop where
  | consume : Step s s.next
  | node {n : Node} (h : Makes s n) (hchildren : ∀ c ∈ n.children, s.Has c) : Step s (s.push n)
  | declare {v : Variable} (h : s.IsType v.shape)
      (hvalue : ∀ value ∈ v.value, s.Folds v.shape value) : Step s (s.addVariable v)
  | opens : Step s s.opened
  | closes : Step s s.closed
  | struct {decl : StructDecl} (hname : Builtin.type? decl.name = none)
      (h : ∀ field ∈ decl.fields, s.IsType field.shape) :
      Step s (s.addStruct decl)
  | function {decl : FunctionDecl} (hnew : s.declared? decl.name decl.signature = none)
      (hparams : ∀ param ∈ decl.params, s.IsType param) (hresult : s.IsType decl.result) :
      Step s (s.addFunction decl)
  | defined (name signature : String) : Step s (s.withBody name signature)
  | defineMacro {m : MacroDef} {lexeme : Lexeme} {value : Constant}
      (h : Literal.value lexeme = .ok value) (hvalue : m.value = value ∨ m.value = value.negate) :
      Step s { s with macros := m :: s.macros }
  | global {id : NodeId} (h : s.Has id) : Step s (s.addGlobal id)

abbrev Steps : ParserState → ParserState → Prop := Relation.ReflTransGen Step

/-- Nodes, structures and functions stay as they are when others are added. -/
structure Grows (s s' : ParserState) : Prop where
  size_le : s.nodes.size ≤ s'.nodes.size
  node_eq : ∀ {id}, s.Has id → s'.node id = s.node id
  structs : ∀ {decl}, decl ∈ s.structs → decl ∈ s'.structs
  declared : ∀ {name signature x}, s.declared? name signature = some x →
    s'.declared? name signature = some x

namespace Grows

variable {s s' : ParserState}

theorem refl (s : ParserState) : Grows s s := ⟨Nat.le_refl _, fun _ => rfl, id, id⟩

theorem trans {s'' : ParserState} (h : Grows s s') (h' : Grows s' s'') : Grows s s'' := by
  refine ⟨Nat.le_trans h.size_le h'.size_le, fun hid => ?_, fun hd => h'.structs (h.structs hd),
    fun hd => h'.declared (h.declared hd)⟩
  rw [h'.node_eq (Nat.lt_of_lt_of_le hid h.size_le), h.node_eq hid]

/-- What a step leaves alone stays as it is. -/
theorem of_eq (hnodes : s'.nodes = s.nodes) (hstructs : s'.structs = s.structs)
    (hfunctions : s'.functions = s.functions) : Grows s s' := by
  refine ⟨?_, fun _ => ?_, fun hd => hstructs ▸ hd, fun hd => ?_⟩
  · exact Nat.le_of_eq (congrArg Array.size hnodes.symm)
  · unfold ParserState.node
    rw [hnodes]
  · unfold ParserState.declared? at hd ⊢
    rwa [hfunctions]

theorem has (h : Grows s s') {id : NodeId} (hid : s.Has id) : s'.Has id :=
  Nat.lt_of_lt_of_le hid h.size_le

theorem shape_eq (h : Grows s s') {id : NodeId} (hid : s.Has id) : s'.shape id = s.shape id := by
  unfold ParserState.shape
  rw [h.node_eq hid]

theorem isType (h : Grows s s') {shape : Shape} (hs : s.IsType shape) : s'.IsType shape := by
  induction hs with
  | builtin hname => exact .builtin hname
  | struct hdecl => exact .struct (h.structs hdecl)
  | array _ hsingle hpos ih => exact .array ih hsingle hpos

end Grows

namespace ParserState

variable {s : ParserState}

theorem node_push (s : ParserState) (n : Node) (id : NodeId) :
    (s.push n).node id = if id = s.nodes.size then n else s.node id := by
  unfold node push
  rw [Array.getD_eq_getD_getElem?, Array.getElem?_push, Array.getD_eq_getD_getElem?]
  split <;> rfl

theorem node_push_size (s : ParserState) (n : Node) : (s.push n).node s.nodes.size = n := by
  rw [node_push, if_pos rfl]

theorem node_of_not_has {id : NodeId} (h : ¬ s.Has id) : s.node id = default := by
  unfold node
  rw [Array.getD_eq_getD_getElem?, Array.getElem?_eq_none (Nat.le_of_not_lt h)]
  rfl

theorem has_of_constant? {id : NodeId} {value : Constant}
    (h : (s.node id).constant? = some value) : s.Has id := by
  by_cases hid : s.Has id
  · exact hid
  · rw [node_of_not_has hid] at h
    cases h

theorem has_push_iff (s : ParserState) (n : Node) {id : NodeId} :
    (s.push n).Has id ↔ s.Has id ∨ id = s.nodes.size := by
  unfold Has push
  rw [Array.size_push]
  exact Nat.lt_succ_iff_lt_or_eq

theorem has_push (s : ParserState) (n : Node) : (s.push n).Has s.nodes.size :=
  (s.has_push_iff n).2 (Or.inr rfl)

theorem declared?_append {name signature : String} {x : List Shape × Shape} (decl : FunctionDecl)
    (h : s.declared? name signature = some x) :
    (s.addFunction decl).declared? name signature = some x := by
  unfold declared? at h ⊢
  unfold addFunction
  obtain ⟨d, hd, hx⟩ := Option.map_eq_some_iff.1 h
  rw [List.find?_append, hd, Option.some_or, Option.map_some, hx]

theorem declared?_withBody (s : ParserState) (name signature name' signature' : String) :
    (s.withBody name signature).declared? name' signature' = s.declared? name' signature' := by
  unfold declared? withBody
  generalize s.functions = functions
  induction functions with
  | nil => rfl
  | cons d functions ih =>
    -- a mark changes nothing that is looked at
    obtain ⟨d', hd, hname, hsignature, hparams, hresult⟩ : ∃ d' : FunctionDecl,
        (if d.name == name && d.signature == signature then { d with isDefined := true } else d) =
          d' ∧ d'.name = d.name ∧ d'.signature = d.signature ∧ d'.params = d.params ∧
          d'.result = d.result := by
      refine ⟨_, rfl, ?_⟩
      split <;> exact ⟨rfl, rfl, rfl, rfl⟩
    simp only [List.map_cons, hd, List.find?_cons, hname, hsignature]
    cases d.name == name' && d.signature == signature' with
    | true => simp only [Option.map_some, hparams, hresult]
    | false => exact ih

end ParserState

theorem Grows.next (s : ParserState) : Grows s s.next := .of_eq rfl rfl rfl

theorem Grows.addVariable (s : ParserState) (v : Variable) : Grows s (s.addVariable v) :=
  .of_eq rfl rfl rfl

theorem Grows.addGlobal (s : ParserState) (id : NodeId) : Grows s (s.addGlobal id) :=
  .of_eq rfl rfl rfl

theorem ParserState.IsType.next {s : ParserState} {shape : Shape} (h : s.IsType shape) :
    s.next.IsType shape := (Grows.next s).isType h

theorem Grows.push (s : ParserState) (n : Node) : Grows s (s.push n) := by
  refine ⟨?_, fun {id} hid => ?_, id, id⟩
  · unfold ParserState.push
    rw [Array.size_push]
    exact Nat.le_succ _
  · rw [ParserState.node_push, if_neg (Nat.ne_of_lt hid)]

theorem Step.grows {s s' : ParserState} (h : Step s s') : Grows s s' := by
  cases h with
  | consume => exact .next _
  | node _ _ => exact .push _ _
  | declare _ _ => exact .addVariable _ _
  | opens => exact .of_eq rfl rfl rfl
  | closes => exact .of_eq rfl rfl rfl
  | struct _ _ =>
    exact ⟨Nat.le_refl _, fun _ => rfl, fun hd => List.mem_cons_of_mem _ hd, id⟩
  | function _ _ _ =>
    exact ⟨Nat.le_refl _, fun _ => rfl, id, fun hd => ParserState.declared?_append _ hd⟩
  | defined name signature =>
    refine ⟨Nat.le_refl _, fun _ => rfl, id, fun hd => ?_⟩
    rw [ParserState.declared?_withBody]
    exact hd
  | defineMacro _ _ => exact .of_eq rfl rfl rfl
  | global _ => exact .addGlobal _ _

theorem Steps.grows {s s' : ParserState} (h : Steps s s') : Grows s s' := by
  induction h with
  | refl => exact .refl _
  | tail _ hstep ih => exact ih.trans hstep.grows

/-- The global variables are nodes. -/
theorem Steps.globals {s s' : ParserState} (h : Steps s s') (hs : ∀ id ∈ s.globals, s.Has id) :
    ∀ id ∈ s'.globals, s'.Has id := by
  induction h with
  | refl => exact hs
  | @tail s₁ s₂ _ hstep ih =>
    have hkept : ∀ id ∈ s₁.globals, s₂.Has id := fun id hid => hstep.grows.has (ih id hid)
    cases hstep with
    | @global id hid =>
      intro id' hid'
      rcases List.mem_append.1 hid' with hid' | hid'
      · exact hkept id' hid'
      · rwa [List.mem_singleton.1 hid']
    | _ => exact hkept

/-- Every new node was made in some state on the way. -/
theorem Steps.made {s s' : ParserState} {id : NodeId} (h : Steps s s') (hid : ¬ s.Has id)
    (hid' : s'.Has id) : ∃ c, Steps s c ∧ Makes c (s'.node id) ∧
      (∀ child ∈ (s'.node id).children, c.Has child) ∧ Steps c s' := by
  induction h with
  | refl => exact absurd hid' hid
  | @tail s₁ s₂ hsteps hstep ih =>
    by_cases hold : s₁.Has id
    · obtain ⟨c, hc, hmade, hchildren, hrest⟩ := ih hold
      rw [hstep.grows.node_eq hold]
      exact ⟨c, hc, hmade, hchildren, hrest.tail hstep⟩
    · cases hstep with
      | @node n hn hchildren =>
        obtain rfl : id = s₁.nodes.size := ((s₁.has_push_iff n).1 hid').resolve_left hold
        rw [s₁.node_push_size n]
        exact ⟨s₁, hsteps, hn, hchildren, .single (.node hn hchildren)⟩
      | _ => exact absurd hid' hold

namespace Parser

variable {α β : Type}

/-! ## Runs as steps -/

/-- The first of two parsers ends too. -/
theorem bind_eq_ok {p : Parser α} {f : α → Parser β} {s s' : ParserState} {b : β}
    (h : (p >>= f) s = .ok (b, s')) : ∃ a s₁, p s = .ok (a, s₁) ∧ f a s₁ = .ok (b, s') := by
  change (p s >>= fun x => f x.1 x.2) = _ at h
  cases hrun : p s with
  | error e =>
    rw [hrun] at h
    cases h
  | ok x =>
    rw [hrun] at h
    exact ⟨x.1, x.2, rfl, h⟩

theorem bind_of_ok {p : Parser α} {s s' : ParserState} {a : α} (h : p s = .ok (a, s'))
    (f : α → Parser β) : (p >>= f) s = f a s' := by
  change (p s >>= fun x => f x.1 x.2) = _
  rw [h]
  rfl

theorem bind_of_error {p : Parser α} {s : ParserState} {e : ParseError} (h : p s = .error e)
    (f : α → Parser β) : (p >>= f) s = .error e := by
  change (p s >>= fun x => f x.1 x.2) = _
  rw [h]
  rfl

/-- A run from `s` that does not complain is a sequence of steps and ends with `Q`. -/
def Does (p : Parser α) (s : ParserState) (Q : α → ParserState → Prop) : Prop :=
  ∀ ⦃a : α⦄ ⦃s' : ParserState⦄, p s = .ok (a, s') → Steps s s' ∧ Q a s'

/-- Hands out the number of a node. -/
def Handed (id : NodeId) (s : ParserState) : Prop := s.Has id

namespace Does

variable {s : ParserState} {p : Parser α} {f : α → Parser β} {Q : α → ParserState → Prop}
  {R : β → ParserState → Prop}

theorem bind (hp : p.Does s Q)
    (hf : ∀ a s', Steps s s' → Q a s' → (f a).Does s' R) : (p >>= f).Does s R := by
  intro b s'' h
  obtain ⟨a, s', hrun, h⟩ := bind_eq_ok h
  obtain ⟨hs, hQ⟩ := hp hrun
  obtain ⟨hs', hR⟩ := hf a s' hs hQ h
  exact ⟨hs.trans hs', hR⟩

theorem mono (hp : p.Does s Q) {Q' : α → ParserState → Prop}
    (h : ∀ a s', Steps s s' → Q a s' → Q' a s') : p.Does s Q' := by
  intro a s' hrun
  obtain ⟨hs, hQ⟩ := hp hrun
  exact ⟨hs, h a s' hs hQ⟩

theorem pure {b : β} (h : R b s) : (Pure.pure b : Parser β).Does s R := by
  intro a s' hrun
  cases hrun
  exact ⟨.refl, h⟩

theorem pure_bind {a : α} (h : (f a).Does s R) : ((Pure.pure a : Parser α) >>= f).Does s R := h

theorem map {g : α → β} (hp : p.Does s fun a => R (g a)) : (g <$> p).Does s R := by
  rw [map_eq_pure_bind]
  exact hp.bind fun a s' _ hR => .pure hR

theorem failAt (token : Token) (complaint : Complaint) :
    (Parser.failAt token complaint : Parser β).Does s R := by
  intro a s' hrun
  cases hrun

theorem fail (complaint : Complaint) : (Parser.fail complaint : Parser β).Does s R := by
  intro a s' hrun
  cases hrun

theorem failAt_bind {token : Token} {complaint : Complaint} :
    (Parser.failAt token complaint >>= f).Does s R := by
  intro a s' hrun
  cases hrun

theorem fail_bind {complaint : Complaint} : (Parser.fail complaint >>= f).Does s R := by
  intro a s' hrun
  cases hrun

theorem ite {c : Prop} [Decidable c] {p q : Parser β} (hp : c → p.Does s R)
    (hq : ¬ c → q.Does s R) : (if c then p else q).Does s R := by
  split
  · next hc => exact hp hc
  · next hc => exact hq hc

/-- A check that complains or does nothing. -/
theorem check {c : Prop} [Decidable c] {token : Token} {complaint : Complaint}
    {next : Unit → Parser β} (h : ¬ c → (next ()).Does s R) :
    (if c then Parser.failAt token complaint >>= next else next ()).Does s R :=
  .ite (fun _ => .failAt_bind) h

/-- A part that is left out where it is not called for. -/
theorem optional {c : Prop} [Decidable c] {next : Parser β} (hp : p.Does s fun _ _ => True)
    (h : ∀ s', Steps s s' → next.Does s' R) :
    (if c then p >>= fun _ => next else next).Does s R :=
  .ite (fun _ => hp.bind fun _ s' hs _ => h s' hs) fun _ => h s .refl

/-- Two ways to what comes next. -/
theorem choose {c : Prop} [Decidable c] {q : Parser α} (hp : p.Does s Q) (hq : q.Does s Q)
    (hf : ∀ a s', Steps s s' → Q a s' → (f a).Does s' R) :
    (if c then p >>= f else q >>= f).Does s R :=
  .ite (fun _ => hp.bind hf) fun _ => hq.bind hf

/-- One step, and then the rest. -/
theorem modify {g : ParserState → ParserState} {f : PUnit → Parser β} (hstep : Step s (g s))
    (h : (f ⟨⟩).Does (g s) R) : ((modify g : Parser PUnit) >>= f).Does s R := by
  intro b s' hrun
  obtain ⟨hs, hR⟩ := h hrun
  exact ⟨.head hstep hs, hR⟩

/-! ## Tokens -/

theorem get {f : ParserState → Parser β} (h : (f s).Does s R) :
    ((get : Parser ParserState) >>= f).Does s R := h

theorem current {f : Token → Parser β} (h : (f s.front).Does s R) :
    (Parser.current >>= f).Does s R := h

theorem following {f : Token → Parser β} (h : ∀ token, (f token).Does s R) :
    (Parser.following >>= f).Does s R := h _

theorem isAt_front {mark : Symbol} {f : Bool → Parser β}
    (h : (f (s.front.lexeme == .symbol mark)).Does s R) : (Parser.isAt mark >>= f).Does s R := h

theorem isAt {mark : Symbol} {f : Bool → Parser β} (h : ∀ b, (f b).Does s R) :
    (Parser.isAt mark >>= f).Does s R := .isAt_front (h _)

theorem advance {f : Token → Parser β} (h : (f s.front).Does s.next R) :
    (Parser.advance >>= f).Does s R := by
  refine bind (Q := fun token s' => token = s.front ∧ s' = s.next) ?_ fun token s' _ hs => ?_
  · refine .current ?_
    split
    · exact .failAt _ _
    · exact .modify .consume (.pure ⟨rfl, rfl⟩)
  · obtain ⟨rfl, rfl⟩ := hs
    exact h

theorem accept {mark : Symbol} {f : Bool → Parser β} (hyes : (f true).Does s.next R)
    (hno : (f false).Does s R) : (Parser.accept mark >>= f).Does s R := by
  refine bind (Q := fun b s' => b = true ∧ s' = s.next ∨ b = false ∧ s' = s) ?_
    fun b s' _ hs => ?_
  · refine .current (.ite (fun _ => ?_) fun _ => ?_)
    · exact .advance (.pure (Or.inl ⟨rfl, rfl⟩))
    · exact .pure (Or.inr ⟨rfl, rfl⟩)
  · obtain ⟨rfl, rfl⟩ | ⟨rfl, rfl⟩ := hs
    · exact hyes
    · exact hno

theorem expectLexeme_front {lexeme : Lexeme} {f : Token → Parser β}
    (h : s.front.lexeme = lexeme → (f s.front).Does s.next R) :
    (Parser.expectLexeme lexeme >>= f).Does s R := by
  refine bind (Q := fun token s' => token = s.front ∧ s.front.lexeme = lexeme ∧ s' = s.next) ?_
    fun token s' _ hs => ?_
  · refine .current (.ite (fun hfront => ?_) fun _ => .fail _)
    rw [← bind_pure Parser.advance]
    exact .advance (.pure ⟨rfl, beq_iff_eq.1 hfront, rfl⟩)
  · obtain ⟨rfl, hfront, rfl⟩ := hs
    exact h hfront

theorem expectLexeme {lexeme : Lexeme} {f : Token → Parser β} (h : (f s.front).Does s.next R) :
    (Parser.expectLexeme lexeme >>= f).Does s R := .expectLexeme_front fun _ => h

theorem advances (s : ParserState) : Parser.advance.Does s fun _ _ => True := by
  rw [← bind_pure Parser.advance]
  exact .advance (.pure trivial)

theorem accepts (mark : Symbol) (s : ParserState) :
    (Parser.accept mark).Does s fun _ _ => True := by
  rw [← bind_pure (Parser.accept mark)]
  exact .accept (.pure trivial) (.pure trivial)

theorem expects (lexeme : Lexeme) (s : ParserState) :
    (Parser.expectLexeme lexeme).Does s fun _ _ => True := by
  rw [← bind_pure (Parser.expectLexeme lexeme)]
  exact .expectLexeme (.pure trivial)

theorem expectName {f : Token × String → Parser β}
    (h : ∀ name, (f (s.front, name)).Does s.next R) : (Parser.expectName >>= f).Does s R := by
  refine bind (Q := fun x s' => x.1 = s.front ∧ s' = s.next) ?_ fun x s' _ hs => ?_
  · refine .current ?_
    split
    · exact .advance (.pure ⟨rfl, rfl⟩)
    · exact .fail _
  · obtain ⟨token, name⟩ := x
    obtain ⟨rfl, rfl⟩ := hs
    exact h name

/-! ## Nodes -/

theorem found {x : Option α} {f : α → Parser β} (h : ∀ a, x = some a → (f a).Does s R) :
    (Parser.found x >>= f).Does s R := by
  cases x with
  | none => exact .fail_bind
  | some a => exact h a rfl

theorem nodeAt {id : NodeId} {f : Node → Parser β} (h : (f (s.node id)).Does s R) :
    (Parser.nodeAt id >>= f).Does s R := by
  change (Parser.found s.nodes[id]? >>= f).Does s R
  refine .found fun n hn => ?_
  have hnode : s.node id = n := by
    unfold ParserState.node
    rw [Array.getD_eq_getD_getElem?, hn]
    rfl
  rwa [← hnode]

theorem shapeAt {id : NodeId} {f : Shape → Parser β} (h : (f (s.shape id)).Does s R) :
    (Parser.shapeAt id >>= f).Does s R := by
  unfold Parser.shapeAt
  rw [bind_assoc]
  exact .nodeAt h

theorem shapes {ids : List NodeId} {f : List Shape → Parser β}
    (h : (f (ids.map s.shape)).Does s R) : (ids.mapM Parser.shapeAt >>= f).Does s R := by
  refine bind (Q := fun shapes s' => shapes = ids.map s.shape ∧ s' = s) ?_ fun a s' _ hs => ?_
  · clear h
    induction ids with
    | nil => exact .pure ⟨rfl, rfl⟩
    | cons id ids ih =>
      rw [List.mapM_cons]
      refine .shapeAt (ih.bind fun shapes s' _ hs => ?_)
      obtain ⟨rfl, rfl⟩ := hs
      exact .pure ⟨rfl, rfl⟩
  · obtain ⟨rfl, rfl⟩ := hs
    exact h

/-- The node has a number of its own, and what was there before stays. -/
theorem addNode {n : Node} {f : NodeId → Parser β} (hmade : Makes s n)
    (hchildren : ∀ c ∈ n.children, s.Has c)
    (h : ∀ id s', s' = s.push n → Grows s s' → s'.Has id → s'.node id = n → (f id).Does s' R) :
    (Parser.addNode n >>= f).Does s R := by
  intro b s' hrun
  obtain ⟨hs, hR⟩ :=
    h _ _ rfl (.push s n) (s.has_push n) (s.node_push_size n) hrun
  exact ⟨.head (.node hmade hchildren) hs, hR⟩

/-- The node that a rule hands out. -/
theorem hand {n : Node} (hmade : Makes s n) (hchildren : ∀ c ∈ n.children, s.Has c) :
    (Parser.addNode n).Does s Handed := by
  intro id s' hrun
  cases hrun
  exact ⟨.single (.node hmade hchildren), s.has_push n⟩

/-! ## Scopes, repetition and recursion -/

theorem inScope {body : Parser α} (h : body.Does s.opened fun a s' => Q a s'.closed) :
    (Parser.inScope body).Does s Q := by
  refine .modify .opens (h.bind fun a s' _ hQ => ?_)
  exact .modify .closes (.pure hQ)

/-- What holds after a turn of a loop. -/
def AfterTurn (I : α → ParserState → Prop) (R : β → ParserState → Prop) :
    Turn α β → ParserState → Prop
  | .again a => I a
  | .stop b => R b

theorem loop (I : α → ParserState → Prop) {step : α → Parser (Turn α β)} {a : α}
    (hstep : ∀ a s, I a s → (step a).Does s (AfterTurn I R)) (ha : I a s) :
    (Parser.loop step a).Does s R := by
  have hwithin : ∀ turns a s, I a s → (loopWithin step turns a).Does s R := by
    intro turns
    induction turns with
    | zero => intro a s _; exact .fail _
    | succ turns ih =>
      intro a s ha
      refine (hstep a s ha).bind fun turn s' _ hturn => ?_
      cases turn with
      | again a => exact ih a s' hturn
      | stop b => exact .pure hturn
  exact fun b s' hrun => hwithin _ a s ha hrun

theorem knot {ρ : Type} {rules : (ρ → Parser α) → ρ → Parser α}
    (h : ∀ self : ρ → Parser α, (∀ rule s, (self rule).Does s Q) →
      ∀ rule s, (rules self rule).Does s Q) (rule : ρ) (s : ParserState) :
    (Parser.knot rules rule).Does s Q := by
  have hwithin : ∀ depth rule s, (knotWithin rules depth rule).Does s Q := by
    intro depth
    induction depth with
    | zero => intro rule s; exact .fail _
    | succ depth ih => exact h _ ih
  exact fun a s' hrun => hwithin _ rule s hrun

end Does

end Parser

end ShaderCost
