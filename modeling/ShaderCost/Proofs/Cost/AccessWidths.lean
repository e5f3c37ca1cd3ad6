import ShaderCost.Cost.Width
import ShaderCost.Proofs.Grammar.Accesses
import ShaderCost.Proofs.Grammar.Arena

/-! # Widths of accesses

The width of an access is computed from its operands, not from its own shape: a swizzle is charged
for the components that it lists, a direct subscript for one element of its base. Both are compared
here with the lanes of the result.

They agree for swizzles, and for subscripts into vectors and scalars. One element of a matrix is a
column, which has as many lanes as the matrix has rows, but is charged for the number of columns. So
the two agree for a matrix exactly if it is square (`access_widths`), and differ in
`column_width_ne_lanes`.
-/

namespace ShaderCost

/-! ## Lanes of a part -/

namespace Shape

variable {s part : Shape}

theorem elements_of_isVector (h : s.isVector = true) : s.elements = s.rows.toNat := by
  rw [elements, if_pos h]

theorem elements_of_isScalar (h : s.isScalar = true) : s.elements = 1 := by
  have hrows : s.rows = 1 := by
    simp only [isScalar, Bool.and_eq_true, beq_iff_eq] at h
    exact h.1.2
  simp [elements, isVector, isMatrix, hrows, h]

theorem isScalar_scalar {basic : BasicType} (h : (scalar basic).hasLanes = true) :
    (scalar basic).isScalar = true := by
  rw [isScalar, h]
  rfl

/-- One part of a vector or a scalar is one lane. -/
theorem elements_component (h : s.isScalar = true ∨ s.isVector = true)
    (hpart : s.part? = some part) : part.elements = 1 := by
  by_cases hscalar : s.isScalar = true
  · rw [part?, if_pos hscalar] at hpart
    cases hpart
    exact elements_of_isScalar hscalar
  · have hvector := h.resolve_left hscalar
    rw [part?_of_subscriptable (by simp [isSubscriptable, hvector]), element_of_isVector hvector]
      at hpart
    cases hpart
    exact elements_of_isScalar (isScalar_scalar (hasLanes_scalar_basic (isVector_hasLanes hvector)))

theorem elementSize_component (h : s.isScalar = true ∨ s.isVector = true) : s.elementSize = 1 := by
  rw [elementSize, if_neg (by simp [isMatrix_of_component h.symm]), if_pos]
  rw [Bool.or_eq_true]
  exact h.symm

/-- One part of a matrix is a column, with a lane for each row. -/
theorem elements_column (h : s.isMatrix = true) (hpart : s.part? = some part) :
    part.elements = s.rows.toNat := by
  have hlanes := isMatrix_hasLanes h
  have hsub : s.isSubscriptable = true := by simp [isSubscriptable, h]
  have helement : s.element = vector s.basic s.rows.toNat := by
    simp [element, isArray_of_hasLanes hlanes, h]
  rw [part?_of_subscriptable hsub, helement] at hpart
  cases hpart
  have hvector : (vector s.basic s.rows.toNat).isVector = true := by
    simp only [isMatrix, Bool.and_eq_true] at h
    simp only [isVector, Bool.and_eq_true]
    exact ⟨⟨hasLanes_scalar_basic hlanes, rfl⟩, by simpa [vector] using h.2⟩
  rw [elements_of_isVector hvector]
  simp [vector]

theorem elementSize_of_isMatrix (h : s.isMatrix = true) : s.elementSize = s.cols.toNat := by
  rw [elementSize, if_pos h]

end Shape

/-! ## The table of widths -/

namespace Widths

variable {t : Tree} {n : Node}

/-- A node whose width does not depend on others has it in the table. -/
theorem getElem?_ofTree {id : NodeId} {width : Nat} (hid : id ∈ t.postOrder)
    (h : ∀ w, ofNode? t w (t.node id) = some width) : (ofTree t)[id]? = some width := by
  have hself : ∀ w, (record t w id)[id]? = some width := by
    intro w
    rw [record, h w]
    exact Std.TreeMap.getElem?_insert_self
  have hkept : ∀ (l : List NodeId) (w : Widths), w[id]? = some width →
      (l.foldl (record t) w)[id]? = some width := by
    intro l w hw
    refine List.foldlRecOn (motive := fun w : Widths => w[id]? = some width) _ _ hw ?_
    intro w hw other _
    by_cases heq : other = id
    · rw [heq]
      exact hself w
    · unfold record
      split
      · rw [Std.TreeMap.getElem?_insert, if_neg (by simpa using heq)]
        exact hw
      · exact hw
  obtain ⟨front, rest, hsplit⟩ := List.append_of_mem hid
  rw [ofTree, hsplit, List.foldl_append, List.foldl_cons]
  exact hkept rest _ (hself _)

theorem ofNode?_binary (hform : n.form = .binary) (hcounted : n.op.isCounted = true)
    (w : Widths) : ofNode? t w n = some (ofBinary t w n) := by
  have hkind : n.kind = .binary := by
    rw [Node.kind, hform]
    rfl
  simp [ofNode?, Node.isCounted, Node.isCall, hkind, hcounted]

theorem ofNode?_subscript {base place : NodeId} (h : n.Subscripts t.node base place)
    (hop : n.op = .index) (w : Widths) :
    ofNode? t w n = some (t.node base).shape.elementSize := by
  have hleft : n.left? = some base := by
    rw [Node.left?, h.operands]
    rfl
  rw [ofNode?_binary h.form (by rw [hop]; rfl), ofBinary, hop]
  simp only [hleft]

theorem ofNode?_swizzle {base selected : NodeId} (h : n.Swizzles t.node base selected)
    (hop : n.op = .swizzle) (w : Widths) :
    ofNode? t w n = some (t.node selected).operands.length := by
  have hright : n.right? = some selected := by
    rw [Node.right?, h.operands]
    rfl
  have hkind : (t.node selected).kind = .aggregate := by
    rw [Node.kind, h.selector.1]
    rfl
  have hselected : selected? t n = some (t.node selected).operands.length := by
    simp [selected?, hright, hkind]
  rw [ofNode?_binary h.form (by rw [hop]; rfl), ofBinary, hop]
  simp only [hselected, Option.getD_some]

end Widths

/-! ## The widths of a shader -/

/-- A reachable swizzle is as wide as its result, and so is a reachable direct subscript into a
vector or a scalar. A direct subscript into a matrix is as wide as the matrix has columns, which is
the width of its result exactly if the matrix is square. -/
theorem access_widths {source : Bytes} {t : Tree} (h : Tree.ofSource source = .ok t) {id : NodeId}
    (hid : t.Reachable id) :
    ((t.node id).op = .swizzle → (Widths.ofTree t)[id]? = some (t.node id).shape.elements) ∧
    ((t.node id).op = .index → ∃ base, (t.node id).left? = some base ∧
      (((t.node base).shape.isScalar = true ∨ (t.node base).shape.isVector = true) →
        (Widths.ofTree t)[id]? = some (t.node id).shape.elements) ∧
      ((t.node base).shape.isMatrix = true →
        (Widths.ofTree t)[id]? = some (t.node base).shape.cols.toNat ∧
        ((Widths.ofTree t)[id]? = some (t.node id).shape.elements ↔
          (t.node base).shape.rows = (t.node base).shape.cols))) := by
  have ht : t.IsTree := Tree.ofTokens_isTree h
  have hvisited : id ∈ t.postOrder := ht.mem_postOrder.2 hid
  have hrange : (t.node id).InRange t.node := by
    have hlt := ht.lt_size_of_reachable hid
    obtain ⟨root, s, -, rfl, hsteps⟩ := Tree.ofTokens_steps h
    exact hsteps.inRange hlt
  refine ⟨fun hop => ?_, fun hop => ?_⟩
  · obtain ⟨base, selected, hn⟩ := hrange.swizzle hop
    rw [Widths.getElem?_ofTree hvisited (Widths.ofNode?_swizzle hn hop),
      Shape.elements_of_isVector hn.result.1, hn.result.2]
  · obtain ⟨base, place, hn⟩ := hrange.index hop
    have hwidth := Widths.getElem?_ofTree hvisited (Widths.ofNode?_subscript hn hop)
    refine ⟨base, by rw [Node.left?, hn.operands]; rfl, fun hbase => ?_, fun hbase => ?_⟩
    · rw [hwidth, Shape.elementSize_component hbase, Shape.elements_component hbase hn.part]
    · rw [hwidth, Shape.elementSize_of_isMatrix hbase, Shape.elements_column hbase hn.part]
      refine ⟨rfl, ?_⟩
      rw [Option.some.injEq, UInt8.toNat_inj, eq_comm]

/-- A swizzle, a component of a scalar, and columns of a square matrix and of one that is wide. -/
def readParts : Bytes :=
  Bytes.ofString "void f(vec4 v, float x, mat3 m, mat4x2 w) {v.wx; x.r; m[1]; w[3];}"

theorem access_widths_readParts : ∃ t, Tree.ofSource readParts = .ok t ∧
    (∃ id, t.Reachable id ∧ (t.node id).op = .swizzle ∧
      (Widths.ofTree t)[id]? = some (t.node id).shape.elements) ∧
    (∃ id, t.Reachable id ∧ (t.node id).op = .index ∧
      (Widths.ofTree t)[id]? = some (t.node id).shape.elements) ∧
    ∃ id base, t.Reachable id ∧ (t.node id).left? = some base ∧
      (t.node base).shape.isMatrix = true ∧
      (Widths.ofTree t)[id]? = some (t.node base).shape.cols.toNat := by
  have hfacts : (Tree.ofSource readParts).toOption.any (fun t =>
      decide ((∃ id ∈ t.postOrder, (t.node id).op = .swizzle) ∧
        (∃ id ∈ t.postOrder, (t.node id).op = .index ∧
          ∀ base ∈ (t.node id).left?, (t.node base).shape.isScalar = true) ∧
        ∃ id ∈ t.postOrder, (t.node id).op = .index ∧
          ∀ base ∈ (t.node id).left?, (t.node base).shape.isMatrix = true)) = true := by
    decide +kernel
  obtain ⟨t, h, hfacts⟩ := exists_ok_of_any hfacts
  have ht : t.IsTree := Tree.ofTokens_isTree h
  obtain ⟨⟨swizzle, hswizzle, hop⟩, ⟨part, hpart, hop', hscalar⟩, column, hcolumn, hop'',
    hmatrix⟩ := of_decide_eq_true hfacts
  have hswizzle := ht.mem_postOrder.1 hswizzle
  have hpart := ht.mem_postOrder.1 hpart
  have hcolumn := ht.mem_postOrder.1 hcolumn
  obtain ⟨base, hbase, hwidth, -⟩ := (access_widths h hpart).2 hop'
  obtain ⟨base', hbase', -, hwidth'⟩ := (access_widths h hcolumn).2 hop''
  have hmatrix := hmatrix base' hbase'
  exact ⟨t, h, ⟨swizzle, hswizzle, hop, (access_widths h hswizzle).1 hop⟩,
    ⟨part, hpart, hop', hwidth (.inl (hscalar base hbase))⟩,
    column, base', hcolumn, hbase', hmatrix, (hwidth' hmatrix).1⟩

/-- A column of a matrix that is higher than wide. -/
def tallColumn : Bytes := Bytes.ofString "void main() {mat2x3 m; m[0];}"

/-- The width of a column need not be the number of its lanes: it has three and is charged for
two. -/
theorem column_width_ne_lanes : ∃ t id base, Tree.ofSource tallColumn = .ok t ∧
    t.Reachable id ∧ (t.node id).op = .index ∧ (t.node id).left? = some base ∧
    (t.node base).shape.isMatrix = true ∧ (Widths.ofTree t)[id]? = some 2 ∧
    (t.node id).shape.elements = 3 := by
  have hfacts : (Tree.ofSource tallColumn).toOption.any (fun t =>
      decide (3 ∈ t.postOrder ∧ (t.node 3).op = .index ∧ (t.node 3).left? = some 1 ∧
        (t.node 1).shape.isMatrix = true ∧ (Widths.ofTree t)[3]? = some 2 ∧
        (t.node 3).shape.elements = 3)) = true := by decide +kernel
  obtain ⟨t, h, hfacts⟩ := exists_ok_of_any hfacts
  obtain ⟨hvisited, hfacts⟩ := of_decide_eq_true hfacts
  have ht : t.IsTree := Tree.ofTokens_isTree h
  exact ⟨t, 3, 1, h, ht.mem_postOrder.1 hvisited, hfacts⟩

end ShaderCost
