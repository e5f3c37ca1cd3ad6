import ShaderCost.Proofs.Grammar.RecordedConstants

/-! # Shapes that reading records

A shape comes into the state of the parser with a declaration, as a type that the language provides,
as the result of a built-in function, or from a shape that is already there. A law that is kept on
all these ways holds of all recorded shapes, those of nodes, variables, functions and fields
(`Steps.allShapes`). Two such laws hold of every shape without a type name (`ShapeLaw.ofBare`):

* only structures and samplers carry the name of their type, so a scalar is known by its basic type
  alone (`Shape.Plain`);
* the structure that a shape names is declared (`ParserState.Knows`).
-/

namespace ShaderCost

namespace Shape

theorem hasLanes_basic {s : Shape} (h : s.hasLanes = true) :
    s.basic ≠ .struct ∧ s.basic ≠ .sampler := by
  simp only [hasLanes, Bool.and_eq_true, Bool.or_eq_true, beq_iff_eq] at h
  rcases h.2 with ((h | h) | h) | h <;> simp [h]

theorem hasLanes_of_elements {s : Shape} (h : 0 < s.elements) : s.hasLanes = true := by
  cases hl : s.hasLanes with
  | true => rfl
  | false => simp [elements, isVector, isMatrix, isScalar, hl] at h

theorem isNumeric_hasLanes {s : Shape} (h : s.isNumeric = true) : s.hasLanes = true := by
  simp only [isNumeric, Bool.and_eq_true, decide_eq_true_eq] at h
  exact hasLanes_of_elements h.1

theorem isInteger_hasLanes {s : Shape} (h : s.isInteger = true) : s.hasLanes = true := by
  simp only [isInteger, Bool.and_eq_true, decide_eq_true_eq] at h
  exact hasLanes_of_elements h.1.1

theorem isVector_hasLanes {s : Shape} (h : s.isVector = true) : s.hasLanes = true := by
  simp only [isVector, Bool.and_eq_true] at h
  exact h.1.1

theorem isScalar_hasLanes {s : Shape} (h : s.isScalar = true) : s.hasLanes = true := by
  simp only [isScalar, Bool.and_eq_true] at h
  exact h.1.1

theorem isMatrix_hasLanes {s : Shape} (h : s.isMatrix = true) : s.hasLanes = true := by
  simp only [isMatrix, Bool.and_eq_true] at h
  exact h.1.1

theorem hasLanes_scalar_basic {s : Shape} (h : s.hasLanes = true) :
    (scalar s.basic).hasLanes = true := by
  simp only [hasLanes, Bool.and_eq_true] at h ⊢
  exact ⟨rfl, h.2⟩

/-- A shape that names no type and is none of a structure. -/
def Bare (s : Shape) : Prop := s.typeName = "" ∧ s.basic ≠ .struct

instance (s : Shape) : Decidable s.Bare :=
  inferInstanceAs (Decidable (s.typeName = "" ∧ s.basic ≠ .struct))

/-! ## Operations on shapes -/

theorem element_cases (s : Shape) : s.element.Bare ∨ s.element = { s with arrayLength := 0 } := by
  unfold element
  split
  · exact Or.inr rfl
  · left
    split
    · next hmatrix => exact ⟨rfl, (hasLanes_basic (isMatrix_hasLanes hmatrix)).1⟩
    · split
      · next hvector => exact ⟨rfl, (hasLanes_basic (isVector_hasLanes hvector)).1⟩
      · decide

theorem common?_cases {a b s : Shape} (h : common? a b = some s) : s = a ∨ s = b := by
  unfold common? at h
  grind

theorem componentwise?_cases {l r s : Shape} (h : componentwise? l r = some s) :
    s = l ∨ s = r ∨ s = l.promote r.basic ∨ s = r.promote l.basic := by
  unfold componentwise? at h
  split at h
  · next hcommon =>
    cases h
    rcases common?_cases hcommon with rfl | rfl <;> simp
  · grind

theorem matrixProduct?_bare {l r s : Shape} (h : matrixProduct? l r = some s) : s.Bare := by
  have hmatrix : ∀ cols rows, (matrix cols rows).Bare := fun _ _ => ⟨rfl, by simp [matrix]⟩
  have hvector : ∀ rows, (vector .float rows).Bare := fun _ => ⟨rfl, by simp [vector]⟩
  unfold matrixProduct? at h
  grind

/-- A binary operation is Boolean, has the shape of its left operand, or is a componentwise
operation on lanes or a product. -/
theorem binary?_cases {op : Operator} {l r s : Shape} (h : binary? op l r = some s) :
    s = scalar .bool ∨ s = l ∨
      (l.hasLanes = true ∧ r.hasLanes = true ∧ componentwise? l r = some s) ∨
      (isMatrixProduct l r = true ∧ matrixProduct? l r = some s) := by
  have hbool : ∀ {c : Bool}, (if c = true then some (scalar .bool) else none) = some s →
      s = scalar .bool := by
    intro c heq
    split at heq <;> cases heq
    rfl
  have hleft : ∀ {c : Bool}, (if c = true then some l else none) = some s → s = l := by
    intro c heq
    split at heq <;> cases heq
    rfl
  have hwise : ∀ {c : Bool}, (c = true → l.hasLanes = true ∧ r.hasLanes = true) →
      (if c = true then componentwise? l r else none) = some s →
      l.hasLanes = true ∧ r.hasLanes = true ∧ componentwise? l r = some s := by
    intro c hlanes heq
    split at heq
    · next hc => exact ⟨(hlanes hc).1, (hlanes hc).2, heq⟩
    · cases heq
  have hintegers : (l.isInteger && r.isInteger) = true → l.hasLanes = true ∧ r.hasLanes = true := by
    intro hc
    rw [Bool.and_eq_true] at hc
    exact ⟨isInteger_hasLanes hc.1, isInteger_hasLanes hc.2⟩
  have hnumbers : (l.isNumeric && r.isNumeric) = true → l.hasLanes = true ∧ r.hasLanes = true := by
    intro hc
    rw [Bool.and_eq_true] at hc
    exact ⟨isNumeric_hasLanes hc.1, isNumeric_hasLanes hc.2⟩
  unfold binary? at h
  simp only at h
  split at h
  case h_16 =>
    -- products may be those of linear algebra
    split at h
    · next hc =>
      split at h
      · next hproduct => exact Or.inr (Or.inr (Or.inr ⟨hproduct, h⟩))
      · exact Or.inr (Or.inr (Or.inl ⟨(hnumbers hc).1, (hnumbers hc).2, h⟩))
    · cases h
  case h_20 => cases h
  all_goals first
    | exact Or.inl (hbool h)
    | exact Or.inr (Or.inl (hleft h))
    | exact Or.inr (Or.inr (Or.inl (hwise hintegers h)))
    | exact Or.inr (Or.inr (Or.inl (hwise hnumbers h)))

end Shape

/-! ## The tables of the language -/

namespace Builtin

theorem lookup_mem {α : Type} {table : List (String × α)} {name : String} {x : α}
    (h : table.lookup name = some x) : (name, x) ∈ table := by
  induction table with
  | nil => cases h
  | cons entry table ih =>
    obtain ⟨key, value⟩ := entry
    rw [List.lookup_cons] at h
    split at h
    · next hkey =>
      cases h
      rw [eq_of_beq hkey]
      exact List.mem_cons_self
    · exact List.mem_cons_of_mem _ (ih h)

/-- No type of the language is a structure. -/
theorem type?_basic {name : String} {shape : Shape} (h : type? name = some shape) :
    shape.basic ≠ .struct := by
  have htable : ∀ entry ∈ types, entry.2.basic ≠ .struct := by decide
  exact htable _ (lookup_mem h)

/-- A rule with a shape of its own, or with lanes of its own, has a bare one. -/
def ResultRule.OwnBare : ResultRule → Prop
  | .fixed shape => shape.Bare
  | .lanesOf basic => basic ≠ .struct
  | _ => True

instance : (rule : ResultRule) → Decidable rule.OwnBare
  | .fixed shape => inferInstanceAs (Decidable shape.Bare)
  | .lanesOf basic => inferInstanceAs (Decidable (basic ≠ .struct))
  | .sameAsFirst | .sameAsLast | .transposed | .outerProduct => inferInstanceAs (Decidable True)

/-- The result of a built-in function is bare or the shape of an argument. -/
theorem function?_result {name : String} {fn : Function} (h : function? name = some fn)
    (args : List Shape) : (fn.result.shape args).Bare ∨ fn.result.shape args ∈ args := by
  have htable : ∀ entry ∈ functions, entry.2.result.OwnBare := by decide
  have hown := htable _ (lookup_mem h)
  have hvoid : Shape.void.Bare := by decide
  have hmatrix : ∀ cols rows, (Shape.matrix cols rows).Bare := fun _ _ =>
    ⟨rfl, by simp [Shape.matrix]⟩
  cases hrule : fn.result with
  | sameAsFirst =>
    cases args with
    | nil => exact Or.inl hvoid
    | cons arg args => exact Or.inr List.mem_cons_self
  | sameAsLast =>
    rw [ResultRule.shape, List.getLastD_eq_getLast?]
    cases hlast : args.getLast? with
    | none => exact Or.inl hvoid
    | some arg => exact Or.inr (List.mem_of_getLast? hlast)
  | fixed shape =>
    rw [hrule] at hown
    exact Or.inl hown
  | lanesOf basic =>
    rw [hrule] at hown
    exact Or.inl ⟨rfl, hown⟩
  | transposed => exact Or.inl (hmatrix _ _)
  | outerProduct => exact Or.inl (hmatrix _ _)

end Builtin

/-! ## Types that the language provides -/

namespace ParserState

variable {s : ParserState}

theorem isType_void (s : ParserState) : s.IsType .void := @IsType.builtin s "void" _ (by decide)

theorem isType_scalar {basic : BasicType} (h : (Shape.scalar basic).hasLanes = true) :
    s.IsType (.scalar basic) := by
  have hname : Builtin.type? basic.name = some (.scalar basic) := by
    revert h
    cases basic <;> decide
  exact .builtin hname

theorem isType_vector {basic : BasicType} (h : (Shape.scalar basic).hasLanes = true) {n : Nat}
    (hlow : 2 ≤ n) (hhigh : n ≤ 4) : s.IsType (.vector basic n) := by
  have hname : Builtin.type? (basic.vectorMark ++ "vec" ++ toString n) =
      some (.vector basic n) := by
    obtain rfl | rfl | rfl : n = 2 ∨ n = 3 ∨ n = 4 := by omega
    all_goals
      revert h
      cases basic <;> decide
  exact .builtin hname

/-- The variables that a shader starts with are of types, or of arrays of them. -/
theorem isType_builtin {v : Variable} (hv : v ∈ Scope.builtin) : s.IsType v.shape := by
  have htable : ∀ v ∈ Scope.builtin, ∃ entry ∈ Builtin.types,
      Builtin.type? entry.1 = some entry.2 ∧ (v.shape = entry.2 ∨ (entry.2.isArray = false ∧
        0 < v.shape.arrayLength ∧
        v.shape = { entry.2 with arrayLength := v.shape.arrayLength })) := by decide
  obtain ⟨entry, -, hname, heq | ⟨hsingle, hlength, heq⟩⟩ := htable v hv
  · rw [heq]
    exact .builtin hname
  · rw [heq]
    exact .array (.builtin hname) hsingle hlength

end ParserState

/-! ## Laws -/

/-- The node calls a built-in function on nodes that are there, and has the shape of the result. -/
structure ParserState.Calls (s : ParserState) (n : Node) (fn : Builtin.Function) : Prop where
  op : n.op = .builtin
  function : Builtin.function? n.name = some fn
  operands : ∀ c ∈ n.operands, s.Has c
  shape : n.shape = fn.result.shape (n.operands.map s.shape)

namespace ParserState.Calls

variable {s s' : ParserState} {n : Node} {fn : Builtin.Function}

theorem shapes_eq (h : s.Calls n fn) (hgrows : Grows s s') :
    n.operands.map s'.shape = n.operands.map s.shape :=
  List.map_congr_left fun c hc => hgrows.shape_eq (h.operands c hc)

theorem grows (h : s.Calls n fn) (hgrows : Grows s s') : s'.Calls n fn := by
  refine ⟨h.op, h.function, fun c hc => hgrows.has (h.operands c hc), ?_⟩
  rw [h.shapes_eq hgrows]
  exact h.shape

end ParserState.Calls

/-- What looks like a call of a built-in function is one. -/
theorem Makes.calls {s : ParserState} {n : Node} (hn : Makes s n)
    (hchildren : ∀ c ∈ n.children, s.Has c) (hop : n.op = .builtin) : ∃ fn, s.Calls n fn := by
  cases hn with
  | @builtin name fn args line _ hfn _ _ =>
    refine ⟨fn, rfl, hfn, fun c hc => hchildren c ?_, rfl⟩
    unfold Node.children
    split
    · next hform => split at hform <;> cases hform
    · exact hc
  | @binary mark _ _ _ _ _ _ hmark _ =>
    cases hop
    cases mark <;> cases hmark
  | compoundAssign hcompound _ _ =>
    cases hop
    cases hcompound
  | step hstep _ =>
    cases hop
    exact absurd hstep (by decide)
  | sequence hsequence =>
    cases hop
    exact absurd hsequence (by decide)
  | branch hbranch =>
    cases hop
    exact absurd hbranch (by decide)
  | _ => cases hop

/-- A law that all recorded shapes obey. -/
structure ShapeLaw (P : ParserState → Shape → Prop) : Prop where
  grows : ∀ {s s' shape}, Grows s s' → P s shape → P s' shape
  declared : ∀ {s shape}, s.IsType shape → P s shape
  element : ∀ {s shape}, P s shape → P s shape.element
  /-- Lanes made float. -/
  floats : ∀ {s shape}, shape.hasLanes = true → P s shape → P s { shape with basic := .float }
  product : ∀ {s l r shape}, Shape.isMatrixProduct l r = true →
    Shape.matrixProduct? l r = some shape → P s l → P s r → P s shape
  /-- A law may look at the calls that are there, this one included. -/
  builtin : ∀ {s n fn}, s.Calls n fn → (∀ c ∈ n.operands, P s (s.shape c)) → P (s.push n) n.shape

/-- All recorded shapes satisfy `P`: those of nodes, variables, functions and fields. -/
structure AllShapes (P : ParserState → Shape → Prop) (s : ParserState) : Prop where
  constants : AllConstants (fun _ value => (Shape.scalar value.basic).hasLanes = true) s
  nodes : ∀ id, P s (s.shape id)
  scopes : s.AllVariables fun v => P s v.shape
  functions : ∀ decl ∈ s.functions, P s decl.result
  fields : ∀ decl ∈ s.structs, ∀ field ∈ decl.fields, P s field.shape

namespace ShapeLaw

variable {P : ParserState → Shape → Prop} {s : ParserState}

/-- A law that holds of all bare shapes and asks for no lengths. -/
theorem ofBare (grows : ∀ {s s' shape}, Grows s s' → P s shape → P s' shape)
    (declared : ∀ {s shape}, s.IsType shape → P s shape)
    (bare : ∀ {s shape}, shape.Bare → P s shape)
    (part : ∀ {s shape}, P s shape → P s { shape with arrayLength := 0 })
    (floats : ∀ {s shape}, shape.hasLanes = true → P s shape →
      P s { shape with basic := .float }) : ShapeLaw P where
  grows := grows
  declared := declared
  element := by
    intro s shape h
    rcases shape.element_cases with hbare | heq
    · exact bare hbare
    · rw [heq]
      exact part h
  floats := floats
  product _ hproduct _ _ := bare (Shape.matrixProduct?_bare hproduct)
  builtin := by
    intro s n fn hcalls hargs
    rw [hcalls.shape]
    rcases Builtin.function?_result hcalls.function (n.operands.map s.shape) with hbare | hmem
    · exact bare hbare
    · obtain ⟨c, hc, heq⟩ := List.mem_map.1 hmem
      exact heq ▸ grows (.push s n) (hargs c hc)

theorem promote (law : ShapeLaw P) {shape : Shape} (hlanes : shape.hasLanes = true)
    (h : P s shape) (other : BasicType) : P s (shape.promote other) := by
  unfold Shape.promote
  split
  · exact law.floats hlanes h
  · exact h

theorem binary (law : ShapeLaw P) {op : Operator} {l r shape : Shape} (hl : P s l) (hr : P s r)
    (h : Shape.binary? op l r = some shape) : P s shape := by
  rcases Shape.binary?_cases h with rfl | rfl | ⟨hlanes, hlanes', hwise⟩ | ⟨hkind, hproduct⟩
  · exact law.declared (ParserState.isType_scalar rfl)
  · exact hl
  · rcases Shape.componentwise?_cases hwise with rfl | rfl | rfl | rfl
    · exact hl
    · exact hr
    · exact law.promote hlanes hl _
    · exact law.promote hlanes' hr _
  · exact law.product hkind hproduct hl hr

end ShapeLaw

namespace AllShapes

variable {P : ParserState → Shape → Prop} {s s' : ParserState}

theorem start (law : ShapeLaw P) (tokens : List Token) : AllShapes P { rest := tokens } := by
  refine ⟨.start tokens, fun id => law.declared (ParserState.isType_void _),
    fun scope hscope v hv => law.declared (ParserState.isType_builtin ?_),
    fun _ h => (List.not_mem_nil h).elim, fun _ h => (List.not_mem_nil h).elim⟩
  rwa [List.mem_singleton.1 hscope] at hv

theorem makes (h : AllShapes P s) (law : ShapeLaw P) {n : Node} (hn : Makes s n)
    (hchildren : ∀ c ∈ n.children, s.Has c) : P (s.push n) n.shape := by
  have hscalar : ∀ {basic : BasicType}, (Shape.scalar basic).hasLanes = true →
      P (s.push n) (.scalar basic) := fun hbasic => law.declared (ParserState.isType_scalar hbasic)
  have hvoid : P (s.push n) .void := law.declared (ParserState.isType_void _)
  have hnode : ∀ id, P (s.push n) (s.shape id) := fun id => law.grows (.push s n) (h.nodes id)
  have hlanes : ∀ {base : NodeId}, (s.shape base).isVector = true ∨ (s.shape base).isScalar = true →
      (Shape.scalar (s.shape base).basic).hasLanes = true := by
    intro base hbase
    exact Shape.hasLanes_scalar_basic (hbase.elim Shape.isVector_hasLanes Shape.isScalar_hasLanes)
  by_cases hop : n.op = .builtin
  · obtain ⟨fn, hcalls⟩ := hn.calls hchildren hop
    exact law.builtin hcalls fun c _ => h.nodes c
  cases hn with
  | builtin _ _ _ _ => exact absurd rfl hop
  | literal hvalue => exact hscalar (Literal.value_hasLanes hvalue)
  | expansion hname => exact hscalar (h.constants.expansion hname)
  | constantVariable hv hvalue => exact hscalar (h.constants.scopes.lookup hv _ hvalue)
  | place _ => exact hscalar rfl
  | named hv _ => exact law.grows (.push s _) (h.scopes.lookup hv)
  | declaration ht => exact law.grows (.push s _) (law.declared ht)
  | field _ _ hdecl hfield =>
    unfold Expression.fieldAt? at hfield
    split at hfield
    · next field _ hfind =>
      cases hfield
      exact law.grows (.push s _)
        (h.fields _ (List.mem_of_find?_eq_some hdecl) field (List.mem_of_find?_eq_some hfind))
    · cases hfield
  | component hbase _ _ _ => exact hscalar (hlanes hbase)
  | swizzle hbase hcomponents hmany _ _ =>
    have hlength := Expression.swizzleComponents_length hcomponents
    exact law.declared (ParserState.isType_vector (hlanes hbase) (by omega) hlength.2)
  | subscript _ _ _ => exact law.element (hnode _)
  | constantSubscript _ _ _ _ => exact law.element (hnode _)
  | construct ht _ => exact law.grows (.push s _) (law.declared (Declaration.type?_isType ht))
  | call _ _ hdecl =>
    have hmem := (Expression.resolveOverload?_eq_some hdecl).1
    exact law.grows (.push s _) (h.functions _ (List.mem_filter.1 hmem).1)
  | binary _ hshape => exact law.binary (hnode _) (hnode _) hshape
  | choice _ hshape =>
    rcases Shape.common?_cases hshape with rfl | rfl
    · exact hnode _
    · exact hnode _
  | function hdecl =>
    obtain ⟨decl, hfind, heq⟩ := Option.map_eq_some_iff.1 hdecl
    cases heq
    exact law.grows (.push s _) (h.functions decl (List.mem_of_find?_eq_some hfind))
  | negatedLiteral _ _ _ | step _ _ | negate _ _ | logicalNot _ | bitwiseNot _ => exact hnode _
  | comma | assign _ | compoundAssign _ _ _ => exact hnode _
  | selector _ | sequence _ | ifStatement _ _ | loop _ | branch _ => exact hvoid

theorem step (h : AllShapes P s) (law : ShapeLaw P) (hstep : Step s s') : AllShapes P s' := by
  have hgrows := hstep.grows
  have hconstants := h.constants.step lanesLaw hstep
  have hnodes : ∀ id, P s' (s.shape id) := fun id => law.grows hgrows (h.nodes id)
  have hfunctions : ∀ decl ∈ s.functions, P s' decl.result := fun decl hdecl =>
    law.grows hgrows (h.functions decl hdecl)
  have hfields : ∀ decl ∈ s.structs, ∀ field ∈ decl.fields, P s' field.shape :=
    fun decl hdecl field hfield => law.grows hgrows (h.fields decl hdecl field hfield)
  have hvariables : s'.AllVariables fun v => P s' v.shape := by
    have hkept : s.AllVariables fun v => P s' v.shape := fun scope hscope v hv =>
      law.grows hgrows (h.scopes scope hscope v hv)
    exact hkept.step hstep fun v hv _ => law.grows hgrows (law.declared hv)
  cases hstep with
  | @node n hn hchildren =>
    refine ⟨hconstants, fun id => ?_, hvariables, hfunctions, hfields⟩
    unfold ParserState.shape
    rw [s.node_push]
    split
    · exact h.makes law hn hchildren
    · exact hnodes id
  | struct _ htypes =>
    refine ⟨hconstants, hnodes, hvariables, hfunctions, List.forall_mem_cons.2 ⟨?_, hfields⟩⟩
    exact fun field hfield => law.grows hgrows (law.declared (htypes field hfield))
  | function _ _ hresult =>
    refine ⟨hconstants, hnodes, hvariables, fun decl hdecl => ?_, hfields⟩
    rcases List.mem_append.1 hdecl with hdecl | hdecl
    · exact hfunctions decl hdecl
    · rw [List.mem_singleton.1 hdecl]
      exact law.grows hgrows (law.declared hresult)
  | defined name signature =>
    refine ⟨hconstants, hnodes, hvariables, fun decl hdecl => ?_, hfields⟩
    obtain ⟨decl', hdecl', rfl⟩ := List.mem_map.1 hdecl
    split <;> exact hfunctions decl' hdecl'
  | _ => exact ⟨hconstants, hnodes, hvariables, hfunctions, hfields⟩

end AllShapes

theorem Steps.allShapes {P : ParserState → Shape → Prop} {s s' : ParserState} (h : Steps s s')
    (law : ShapeLaw P) (hs : AllShapes P s) : AllShapes P s' := by
  induction h with
  | refl => exact hs
  | tail _ hstep ih => exact ih.step law hstep

/-! ## Shapes of lanes carry no name -/

/-- A shape of lanes carries no type name. -/
def Shape.Plain (s : Shape) : Prop := s.basic = .struct ∨ s.basic = .sampler ∨ s.typeName = ""

instance (s : Shape) : Decidable s.Plain :=
  inferInstanceAs (Decidable (s.basic = .struct ∨ s.basic = .sampler ∨ s.typeName = ""))

theorem Shape.Plain.typeName_eq {s : Shape} (h : s.Plain) (hl : s.hasLanes = true) :
    s.typeName = "" := by
  obtain ⟨hstruct, hsampler⟩ := hasLanes_basic hl
  exact (h.resolve_left hstruct).resolve_left hsampler

theorem Builtin.type?_plain {name : String} {shape : Shape} (h : type? name = some shape) :
    shape.Plain := by
  have htable : ∀ entry ∈ types, entry.2.Plain := by decide
  exact htable _ (lookup_mem h)

theorem ParserState.IsType.plain {s : ParserState} {shape : Shape} (h : s.IsType shape) :
    shape.Plain := by
  induction h with
  | builtin hname => exact Builtin.type?_plain hname
  | struct _ => exact Or.inl rfl
  | array _ _ _ ih => exact ih

theorem plainLaw : ShapeLaw fun _ => Shape.Plain := by
  refine .ofBare (fun _ h => h) (fun h => h.plain) (fun h => Or.inr (Or.inr h.1)) id ?_
  exact fun hlanes h => Or.inr (Or.inr (h.typeName_eq hlanes))

/-- All recorded shapes are plain. -/
abbrev PlainShapes : ParserState → Prop := AllShapes fun _ => Shape.Plain

theorem PlainShapes.start (tokens : List Token) : PlainShapes { rest := tokens } :=
  AllShapes.start plainLaw tokens

theorem Steps.plainShapes {s s' : ParserState} (h : Steps s s') (hs : PlainShapes s) :
    PlainShapes s' := h.allShapes plainLaw hs

/-! ## Structures are declared -/

/-- If the shape is one of a structure, the structure is declared. -/
def ParserState.Knows (s : ParserState) (shape : Shape) : Prop :=
  shape.basic = .struct → ∃ decl ∈ s.structs, decl.name = shape.typeName

theorem ParserState.Knows.struct? {s : ParserState} {shape : Shape} (h : s.Knows shape)
    (hstruct : shape.basic = .struct) : ∃ decl, s.struct? shape.typeName = some decl := by
  obtain ⟨decl, hdecl, hname⟩ := h hstruct
  refine Option.isSome_iff_exists.1 (List.find?_isSome.2 ⟨decl, hdecl, ?_⟩)
  simp [hname]

theorem ParserState.IsType.knows {s : ParserState} {shape : Shape} (h : s.IsType shape) :
    s.Knows shape := by
  induction h with
  | builtin hname => exact fun hstruct => absurd hstruct (Builtin.type?_basic hname)
  | struct hdecl => exact fun _ => ⟨_, hdecl, rfl⟩
  | array _ _ _ ih => exact ih

theorem ParserState.Knows.grows {s s' : ParserState} {shape : Shape} (h : s.Knows shape)
    (hgrows : Grows s s') : s'.Knows shape := by
  intro hstruct
  obtain ⟨decl, hdecl, hname⟩ := h hstruct
  exact ⟨decl, hgrows.structs hdecl, hname⟩

theorem knownLaw : ShapeLaw ParserState.Knows := by
  refine .ofBare (fun hgrows h => h.grows hgrows) (fun h => h.knows)
    (fun h hstruct => absurd hstruct h.2) id ?_
  intro s shape _ _ hstruct
  cases hstruct

end ShaderCost
