import ShaderCost.Proofs.Grammar.Typing

/-! # Constant accesses are in range

A part of a value may be chosen by a constant: by a subscript that is a literal, a macro, a constant
variable or a negation of one, by a selector with one letter, which is read as such a subscript, or
by a selector with more letters. `Shape.parts?` counts the parts of a shape, and `Node.Chooses` says
that a constant is the number of one of them.

The grammar checks this where it makes the node (`Makes.inRange`), and neither the operands nor their
shapes change later (`Node.InRange.grows`). So it holds of all nodes that are read
(`Steps.inRange`, `constant_accesses_in_range`).
-/

namespace ShaderCost

/-! ## Parts of a shape -/

namespace Shape

/-- How many parts a constant can choose from: the length of an array, the columns of a matrix, the
components of a vector. A scalar is its own only part. -/
def parts? (s : Shape) : Option Int :=
  if s.isArray then some s.arrayLength
  else if s.isMatrix then some s.cols.toNat
  else if s.isVector then some s.rows.toNat
  else if s.isScalar then some 1
  else none

variable {s : Shape}

theorem parts?_of_isSubscriptable (h : s.isSubscriptable = true) :
    s.parts? = some s.subscriptLimit := by
  simp only [isSubscriptable, Bool.or_eq_true] at h
  unfold parts? subscriptLimit
  split
  · rfl
  · split
    · rfl
    · next harray hmatrix =>
      have hvector : s.isVector = true := by simpa [harray, hmatrix] using h
      rw [if_pos hvector]

theorem isArray_of_hasLanes (h : s.hasLanes = true) : s.isArray = false := by
  simp only [hasLanes, Bool.and_eq_true, beq_iff_eq] at h
  simp [isArray, h.1]

theorem isMatrix_of_component (h : s.isVector = true ∨ s.isScalar = true) : s.isMatrix = false := by
  have hcols : s.cols = 1 := by
    simp only [isVector, isScalar, Bool.and_eq_true, beq_iff_eq] at h
    rcases h with h | h
    · exact h.1.2
    · exact h.2
  simp [isMatrix, hcols]

/-- A vector has as many parts as rows, and so has a scalar. -/
theorem parts?_of_component (h : s.isVector = true ∨ s.isScalar = true) :
    s.parts? = some (s.rows.toNat : Int) := by
  have hlanes : s.hasLanes = true := h.elim isVector_hasLanes isScalar_hasLanes
  unfold parts?
  rw [if_neg (by simp [isArray_of_hasLanes hlanes]), if_neg (by simp [isMatrix_of_component h])]
  split
  · rfl
  · next hvector =>
    have hscalar := h.resolve_left hvector
    rw [if_pos hscalar]
    simp only [isScalar, Bool.and_eq_true, beq_iff_eq] at hscalar
    rw [hscalar.1.2]
    rfl

theorem vector_dims (h : s.hasLanes = true) {n : Nat} (hlow : 2 ≤ n) (hhigh : n ≤ 4) :
    (vector s.basic n).isVector = true ∧ (vector s.basic n).rows.toNat = n := by
  have hlanes : (vector s.basic n).hasLanes = true := hasLanes_scalar_basic h
  obtain rfl | rfl | rfl : n = 2 ∨ n = 3 ∨ n = 4 := by omega
  all_goals
    simp only [isVector, hlanes, Bool.true_and]
    exact ⟨rfl, rfl⟩

end Shape

/-! ## Integers among the constants -/

theorem Literal.value_ne_blank {lexeme : Lexeme} {value : Constant}
    (h : Literal.value lexeme = .ok value) (basic : BasicType) : value ≠ .blank basic := by
  rintro rfl
  unfold Literal.value at h
  split at h
  · next text => cases hw : word text <;> rw [hw] at h <;> cases h
  · next text => cases hw : word text <;> rw [hw] at h <;> cases h
  · split at h <;> cases h
  · cases h
  · cases h

/-- Constants that are read have a value. -/
theorem valueLaw : ConstantLaw fun _ value => ∀ basic, value ≠ .blank basic where
  grows _ h := h
  literal h := Literal.value_ne_blank h
  place _ _ := by simp
  negate := by
    intro s value h basic
    cases value <;> simp_all [Constant.negate]
  toFloat := by
    intro s value _ basic
    cases value <;> simp [Constant.toFloat]

theorem Constant.integer?_of_isIntegral {value : Constant} (hvalue : ∀ basic, value ≠ .blank basic)
    (h : value.basic.isIntegral = true) : ∃ i, value.integer? = some i := by
  cases value with
  | int v => exact ⟨v, rfl⟩
  | uint v => exact ⟨v, rfl⟩
  | float v => cases h
  | bool v => cases h
  | blank basic => exact absurd rfl (hvalue basic)

/-! ## Nodes that choose a part -/

namespace Node

/-- The node is an integer constant, the number of one of the parts of the shape. -/
def Chooses (n : Node) (shape : Shape) : Prop :=
  ∃ value i parts, n.constant? = some value ∧ value.integer? = some i ∧
    shape.parts? = some parts ∧ 0 ≤ i ∧ i < parts

theorem Chooses.component {n : Node} {shape : Shape}
    (h : shape.isVector = true ∨ shape.isScalar = true) {position : Nat}
    (hrange : position < shape.rows.toNat) (hvalue : n.constant? = some (.int position)) :
    n.Chooses shape := by
  refine ⟨_, _, _, hvalue, rfl, Shape.parts?_of_component h, ?_, ?_⟩
  · exact Int.natCast_nonneg position
  · exact Int.ofNat_lt.2 hrange

/-- A subscript whose right operand chooses a part of the left one, which gives it its shape. -/
structure Subscripts (node : NodeId → Node) (n : Node) (base place : NodeId) : Prop where
  form : n.form = .binary
  operands : n.operands = [base, place]
  chooses : (node place).Chooses (node base).shape
  part : (node base).shape.part? = some n.shape

/-- A swizzle whose right operand lists two to four choices of a component of the left one. The
result has one component for each of them. -/
structure Swizzles (node : NodeId → Node) (n : Node) (base selected : NodeId) : Prop where
  form : n.form = .binary
  operands : n.operands = [base, selected]
  lanes : (node base).shape.isVector = true ∨ (node base).shape.isScalar = true
  selector : (node selected).form = .aggregate ∧ (node selected).op = .swizzleSelector
  count : 2 ≤ (node selected).operands.length ∧ (node selected).operands.length ≤ 4
  chooses : ∀ place ∈ (node selected).operands, (node place).Chooses (node base).shape
  result : n.shape.isVector = true ∧ n.shape.rows.toNat = (node selected).operands.length

/-- If the node chooses parts by constants, they are there. -/
structure InRange (node : NodeId → Node) (n : Node) : Prop where
  index : n.op = .index → ∃ base place, n.Subscripts node base place
  swizzle : n.op = .swizzle → ∃ base selected, n.Swizzles node base selected

theorem InRange.of_ne {node : NodeId → Node} {n : Node} (hindex : n.op ≠ .index)
    (hswizzle : n.op ≠ .swizzle) : n.InRange node :=
  ⟨fun h => absurd h hindex, fun h => absurd h hswizzle⟩

end Node

theorem Node.Chooses.has {s : ParserState} {id : NodeId} {shape : Shape}
    (h : (s.node id).Chooses shape) : s.Has id := by
  obtain ⟨value, _, _, hvalue, -⟩ := h
  exact ParserState.has_of_constant? hvalue

/-- What was in range when the node was made stays so. -/
theorem Node.InRange.grows {s s' : ParserState} {n : Node} (h : n.InRange s.node)
    (hgrows : Grows s s') (hchildren : ∀ c ∈ n.children, s.Has c) : n.InRange s'.node := by
  have hoperands : n.form = .binary → ∀ c ∈ n.operands, s.Has c := by
    intro hform
    rwa [Node.children, hform] at hchildren
  constructor
  · intro hop
    obtain ⟨base, place, hn⟩ := h.index hop
    have hbase : s.Has base := hoperands hn.form base (by simp [hn.operands])
    refine ⟨base, place, hn.form, hn.operands, ?_, ?_⟩
    · rw [hgrows.node_eq hbase, hgrows.node_eq hn.chooses.has]
      exact hn.chooses
    · rw [hgrows.node_eq hbase]
      exact hn.part
  · intro hop
    obtain ⟨base, selected, hn⟩ := h.swizzle hop
    have hbase : s'.node base = s.node base :=
      hgrows.node_eq (hoperands hn.form base (by simp [hn.operands]))
    have hselected : s'.node selected = s.node selected :=
      hgrows.node_eq (hoperands hn.form selected (by simp [hn.operands]))
    refine ⟨base, selected, hn.form, hn.operands, ?_, ?_, ?_, ?_, ?_⟩
    · rw [hbase]
      exact hn.lanes
    · rw [hselected]
      exact hn.selector
    · rw [hselected]
      exact hn.count
    · rw [hselected, hbase]
      intro place hplace
      rw [hgrows.node_eq (hn.chooses place hplace).has]
      exact hn.chooses place hplace
    · rw [hselected]
      exact hn.result

/-! ## The nodes that the grammar makes -/

namespace Makes

variable {s : ParserState}

/-- The components behind a selector with more than one letter. -/
theorem chooses_of_swizzleComponents {base : NodeId} {name : String} {components : List Nat}
    {places : List NodeId}
    (hbase : (s.shape base).isVector = true ∨ (s.shape base).isScalar = true)
    (hcomponents : Expression.swizzleComponents name (s.shape base).rows.toNat = some components)
    (hplaces : places.map (fun place => (s.node place).constant?) =
      components.map fun component => some (.int component)) :
    ∀ place ∈ places, (s.node place).Chooses (s.shape base) := by
  intro place hplace
  have hmem := List.mem_map_of_mem (f := fun place => (s.node place).constant?) hplace
  rw [hplaces] at hmem
  obtain ⟨component, hcomponent, hvalue⟩ := List.mem_map.1 hmem
  have hlt := Expression.swizzleComponents_lt hcomponents hcomponent
  exact .component hbase hlt hvalue.symm

/-- The grammar only makes accesses that are in range. -/
theorem inRange {n : Node} (hn : Makes s n) (hs : Checked s) (hp : PlainShapes s)
    (hvalues : AllConstants (fun _ value => ∀ basic, value ≠ .blank basic) s) :
    n.InRange s.node := by
  cases hn with
  | @component base place position _ hbase hrange hplace _ =>
    refine ⟨fun _ => ⟨base, place, rfl, rfl, ?_, ?_⟩, fun hop => (by cases hop)⟩
    · exact .component hbase hrange hplace
    · exact Shape.part?_component hbase (hp.nodes base)
  | @constantSubscript base index value _ hbase hindex hvalue hrange =>
    have hsub : (s.shape base).isSubscriptable = true := by
      simpa [Shape.isSubscriptable, or_assoc] using hbase
    refine ⟨fun _ => ⟨base, index, rfl, rfl, ?_, Shape.part?_of_subscriptable hsub⟩,
      fun hop => (by cases hop)⟩
    -- the index is of an integer type, and so its value is an integer
    have hintegral : value.basic.isIntegral = true := by
      rw [hs.constant_shape hvalue] at hindex
      exact hindex.2
    obtain ⟨i, hi⟩ := Constant.integer?_of_isIntegral (hvalues.nodes index value hvalue) hintegral
    rw [hi] at hrange
    exact ⟨value, i, _, hvalue, hi, Shape.parts?_of_isSubscriptable hsub, hrange.1, hrange.2⟩
  | @swizzle base selected name components places _ _ hbase hcomponents hmany hselected hplaces =>
    have hlength : places.length = components.length := by
      simpa using congrArg List.length hplaces
    have hcount := Expression.swizzleComponents_length hcomponents
    refine ⟨fun hop => (by cases hop), fun _ => ⟨base, selected, rfl, rfl, hbase, ?_, ?_, ?_, ?_⟩⟩
    · rw [hselected]
      exact ⟨rfl, rfl⟩
    · rw [hselected]
      simp only
      omega
    · rw [hselected]
      exact chooses_of_swizzleComponents hbase hcomponents hplaces
    · rw [hselected]
      simp only [hlength]
      exact Shape.vector_dims (hbase.elim Shape.isVector_hasLanes Shape.isScalar_hasLanes) (by omega)
        hcount.2
  | @binary mark _ op _ _ _ _ hmark _ =>
    refine .of_ne ?_ ?_ <;>
      · rintro rfl
        cases mark <;> cases hmark
  | compoundAssign hop _ _ => refine .of_ne ?_ ?_ <;> (rintro rfl; cases hop)
  | step hop _ => refine .of_ne ?_ ?_ <;> (rintro rfl; simp at hop)
  | sequence hop => refine .of_ne ?_ ?_ <;> (rintro rfl; simp at hop)
  | branch hop => refine .of_ne ?_ ?_ <;> (rintro rfl; simp at hop)
  | _ => exact .of_ne (by simp) (by simp)

end Makes

/-! ## The arena of a shader -/

/-- All accesses that were read are in range. -/
theorem Steps.inRange {tokens : List Token} {s : ParserState} (h : Steps { rest := tokens } s)
    {id : NodeId} (hid : s.Has id) : (s.node id).InRange s.node := by
  obtain ⟨c, hc, hmade, hchildren, hrest⟩ := h.made (Nat.not_lt_zero id) hid
  have hplain : PlainShapes c := hc.plainShapes (.start _)
  have hchecked : Checked c := Steps.checked hc (.start _) (.start _)
  have hvalues := hc.allConstants valueLaw (.start _)
  exact (hmade.inRange hchecked hplain hvalues).grows hrest.grows hchildren

/-- Every access of a shader by constants is in range, whether it is reachable or not: a direct
subscript is one of the parts of its base, and a swizzle lists two to four components of its base
and has as many itself. -/
theorem constant_accesses_in_range {source : Bytes} {t : Tree} (h : Tree.ofSource source = .ok t) :
    ∀ id < t.size, (t.node id).InRange t.node := by
  obtain ⟨root, s, -, rfl, hsteps⟩ := Tree.ofTokens_steps h
  exact fun id hid => hsteps.inRange hid

/-- Subscripts by a constant variable, a macro and a negation, into an array, a matrix and a vector,
and selectors on scalars, vectors and their parts. -/
def chosenParts : Bytes :=
  Bytes.ofString "#define LAST 1\nconst uint two = 2u;\nfloat f(float a[3]) {return a[two];}\n" ++
    Bytes.ofString "void g(mat2x3 m) {vec3 v = m[LAST]; float x = v[-(-2)]; v.zyx.rg; x.x; x.xxxx;}"

theorem constant_accesses_in_range_chosenParts : ∃ t, Tree.ofSource chosenParts = .ok t ∧
    (∃ id < t.size, (t.node id).op = .index) ∧ (∃ id < t.size, (t.node id).op = .swizzle) ∧
    ∀ id < t.size, (t.node id).InRange t.node := by
  have haccesses : (Tree.ofSource chosenParts).toOption.any (fun t =>
      decide ((∃ id < t.size, (t.node id).op = .index) ∧
        ∃ id < t.size, (t.node id).op = .swizzle)) = true := by decide +kernel
  obtain ⟨t, h, haccesses⟩ := exists_ok_of_any haccesses
  obtain ⟨hindex, hswizzle⟩ := of_decide_eq_true haccesses
  exact ⟨t, h, hindex, hswizzle, constant_accesses_in_range h⟩

end ShaderCost
