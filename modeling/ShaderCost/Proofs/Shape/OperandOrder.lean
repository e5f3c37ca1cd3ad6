import ShaderCost.Shape.Typing

/-! # The order of operands

Typing a binary operation looks at its operands one after the other, and many of its checks look at
the left one only. They may, because two shapes that agree differ at most in an integer that became
a float (`common?_isSome_cases`), and those checks do not tell such shapes apart (`eq_of_common?`).
A scalar is spread over the other operand from either side, and between two scalars there is nothing
to spread (`componentwise?_comm`).

So it does not matter which operand stands on the left (`operand_order_immaterial`). Shifts, where
the left operand alone gives the shape, and the products of linear algebra are the exceptions.
-/

namespace ShaderCost.Shape

/-! ## Agreement -/

theorem accepts_iff {target source : Shape} : target.accepts source = true ↔
    target = source ∨ (target.basic = .float ∧ source.basic.isIntegral = true ∧
      target = { source with basic := .float }) := by
  simp [accepts, and_assoc]

theorem accepts_antisymm {a b : Shape} (hab : a.accepts b = true) (hba : b.accepts a = true) :
    a = b := by
  rcases accepts_iff.1 hab with heq | ⟨hfloat, -, -⟩
  · exact heq
  rcases accepts_iff.1 hba with heq | ⟨-, hintegral, -⟩
  · exact heq.symm
  · rw [hfloat] at hintegral
    cases hintegral

/-- Each operand is asked for whether it can take the other. -/
theorem common?_eq (a b : Shape) : common? a b =
    if a.accepts b = true then some a else if b.accepts a = true then some b else none := by
  unfold common?
  split
  · next heq => rw [if_pos (accepts_iff.2 (Or.inl (eq_of_beq heq)))]
  · rfl

theorem common?_comm (a b : Shape) : common? a b = common? b a := by
  rw [common?_eq, common?_eq]
  by_cases hab : a.accepts b = true
  · by_cases hba : b.accepts a = true
    · rw [accepts_antisymm hab hba]
    · rw [if_pos hab, if_neg hba, if_pos hab]
  · rw [if_neg hab, if_neg hab]

/-- Shapes that agree are the same, or one is the other made float. -/
theorem common?_isSome_cases {a b : Shape} (h : (common? a b).isSome = true) :
    a = b ∨ (b.basic.isIntegral = true ∧ a = { b with basic := .float }) ∨
      (a.basic.isIntegral = true ∧ b = { a with basic := .float }) := by
  rw [common?_eq] at h
  split at h
  · next hab => exact (accepts_iff.1 hab).imp_right fun hfloat => Or.inl hfloat.2
  split at h
  · next hba => exact (accepts_iff.1 hba).imp Eq.symm fun hfloat => Or.inr hfloat.2
  · cases h

/-- A property that integers and floats of the same dimensions share. -/
def IgnoresFloat (p : Shape → Bool) : Prop :=
  ∀ s : Shape, s.basic.isIntegral = true → p { s with basic := .float } = p s

theorem eq_of_common? {p : Shape → Bool} (hp : IgnoresFloat p) {l r : Shape}
    (h : (common? l r).isSome = true) : p l = p r := by
  rcases common?_isSome_cases h with rfl | ⟨hintegral, rfl⟩ | ⟨hintegral, rfl⟩
  · rfl
  · exact hp r hintegral
  · exact (hp l hintegral).symm

/-- A check of the left operand is one of the right operand, once the two agree. -/
theorem agree_and_comm {p : Shape → Bool} (hp : IgnoresFloat p) (l r : Shape) :
    ((common? l r).isSome && p l) = ((common? r l).isSome && p r) := by
  rw [common?_comm r l]
  cases h : (common? l r).isSome with
  | false => rfl
  | true => rw [eq_of_common? hp h]

theorem basic_of_isIntegral {b : BasicType} (h : b.isIntegral = true) : b = .int ∨ b = .uint := by
  cases b <;> simp_all [BasicType.isIntegral]

theorem ignoresFloat_comparable :
    IgnoresFloat fun s => !s.isArray && s.basic != .sampler && s.basic != .void := by
  intro s hintegral
  rcases basic_of_isIntegral hintegral with hbasic | hbasic
  · simp only [isArray, hbasic]
    rfl
  · simp only [isArray, hbasic]
    rfl

theorem ignoresFloat_hasLanes : IgnoresFloat hasLanes := by
  intro s hintegral
  rcases basic_of_isIntegral hintegral with hbasic | hbasic
  · rw [hasLanes, hasLanes, hbasic]
    rfl
  · rw [hasLanes, hasLanes, hbasic]
    rfl

/-- Scalars, vectors and matrices are told apart by their dimensions. -/
theorem ignoresFloat_ordered : IgnoresFloat fun s => s.isScalar && s.isNumeric := by
  intro s hintegral
  have hlanes := ignoresFloat_hasLanes s hintegral
  rcases basic_of_isIntegral hintegral with hbasic | hbasic
  · simp only [isScalar, isNumeric, elements, isVector, isMatrix, hlanes, hbasic]
    rfl
  · simp only [isScalar, isNumeric, elements, isVector, isMatrix, hlanes, hbasic]
    rfl

/-! ## Spreading a scalar -/

theorem eq_scalar {s : Shape} (h : s.isScalar = true) (hname : s.typeName = "") :
    s = scalar s.basic := by
  simp only [isScalar, hasLanes, Bool.and_eq_true, beq_iff_eq] at h
  obtain ⟨⟨⟨hlength, -⟩, hrows⟩, hcols⟩ := h
  cases s
  simp_all [scalar]

theorem componentwise?_comm {l r : Shape} (hl : l.typeName = "") (hr : r.typeName = "") :
    componentwise? l r = componentwise? r l := by
  unfold componentwise?
  rw [common?_comm r l]
  cases hagree : common? l r with
  | some shape => rfl
  | none =>
    by_cases hlscalar : l.isScalar = true
    · by_cases hrscalar : r.isScalar = true
      · -- spreading asks once more whether the two agree, and they do not
        simp only [if_pos hlscalar, if_pos hrscalar]
        rw [← eq_scalar hlscalar hl, ← eq_scalar hrscalar hr, common?_comm r l, hagree]
        rfl
      · simp only [if_pos hlscalar, if_neg hrscalar]
        rw [common?_comm]
    · by_cases hrscalar : r.isScalar = true
      · simp only [if_pos hrscalar, if_neg hlscalar]
        rw [common?_comm]
      · simp only [if_neg hlscalar, if_neg hrscalar]

/-! ## Operators -/

/-- Numbers carry no name of a type. -/
def Unnamed (s : Shape) : Prop := s.isNumeric = true → s.typeName = ""

instance (s : Shape) : Decidable s.Unnamed :=
  inferInstanceAs (Decidable (s.isNumeric = true → s.typeName = ""))

theorem isNumeric_of_isInteger {s : Shape} (h : s.isInteger = true) : s.isNumeric = true := by
  simp only [isInteger, Bool.and_eq_true] at h
  obtain ⟨⟨hlanes, -⟩, hintegral⟩ := h
  rw [isNumeric, hlanes, Bool.true_and, bne_iff_ne]
  rcases basic_of_isIntegral hintegral with hbasic | hbasic <;> simp [hbasic]

/-- Componentwise operations on numbers, whatever is asked of both operands besides. -/
theorem guarded_componentwise?_comm {l r : Shape} (hl : l.Unnamed) (hr : r.Unnamed)
    {p : Shape → Bool} (hp : ∀ s, p s = true → s.isNumeric = true) :
    (if (p l && p r) = true then componentwise? l r else none) =
      if (p r && p l) = true then componentwise? r l else none := by
  rw [Bool.and_comm (p r)]
  split
  · next hboth =>
    rw [Bool.and_eq_true] at hboth
    exact componentwise?_comm (hl (hp l hboth.1)) (hr (hp r hboth.2))
  · rfl

theorem not_isScalar_of_isVector {s : Shape} (h : s.isVector = true) : s.isScalar = false := by
  simp only [isVector, Bool.and_eq_true, decide_eq_true_eq] at h
  refine Bool.eq_false_iff.2 fun hscalar => ?_
  simp only [isScalar, Bool.and_eq_true, beq_iff_eq] at hscalar
  rw [hscalar.1.2] at h
  exact absurd h.2 (by decide)

theorem not_isScalar_of_isMatrix {s : Shape} (h : s.isMatrix = true) : s.isScalar = false := by
  simp only [isMatrix, Bool.and_eq_true, decide_eq_true_eq] at h
  refine Bool.eq_false_iff.2 fun hscalar => ?_
  simp only [isScalar, Bool.and_eq_true, beq_iff_eq] at hscalar
  rw [hscalar.1.2] at h
  exact absurd h.2 (by decide)

/-- A product is one of linear algebra only if neither operand is a scalar and one is a matrix. -/
theorem isMatrixProduct_cases {l r : Shape} (h : isMatrixProduct l r = true) :
    l.isScalar = false ∧ r.isScalar = false ∧ (l.isMatrix = true ∨ r.isMatrix = true) := by
  simp only [isMatrixProduct, Bool.or_eq_true, Bool.and_eq_true] at h
  rcases h with (⟨hl, hr⟩ | ⟨hl, hr⟩) | ⟨hl, hr⟩
  · exact ⟨not_isScalar_of_isMatrix hl, not_isScalar_of_isMatrix hr, Or.inl hl⟩
  · exact ⟨not_isScalar_of_isMatrix hl, not_isScalar_of_isVector hr, Or.inl hl⟩
  · exact ⟨not_isScalar_of_isVector hl, not_isScalar_of_isMatrix hr, Or.inr hr⟩

theorem isMatrixProduct_comm (l r : Shape) : isMatrixProduct l r = isMatrixProduct r l := by
  simp only [isMatrixProduct, Bool.and_comm l.isMatrix, Bool.and_comm l.isVector, Bool.or_assoc,
    Bool.or_comm (r.isVector && l.isMatrix)]

/-! One operator of each kind; the others of its kind are typed by the same rule. -/

theorem binary?_logicalAnd_comm (l r : Shape) :
    binary? .logicalAnd l r = binary? .logicalAnd r l := by
  simp only [binary?, Bool.and_comm (l == scalar .bool)]

theorem binary?_equal_comm (l r : Shape) : binary? .equal l r = binary? .equal r l := by
  have hchecks := agree_and_comm ignoresFloat_comparable l r
  simp only [binary?, Bool.and_assoc] at hchecks ⊢
  rw [hchecks]

theorem binary?_lessThan_comm (l r : Shape) : binary? .lessThan l r = binary? .lessThan r l := by
  have hchecks := agree_and_comm ignoresFloat_ordered l r
  simp only [binary?, Bool.and_assoc] at hchecks ⊢
  rw [hchecks]

theorem binary?_mod_comm {l r : Shape} (hl : l.Unnamed) (hr : r.Unnamed) :
    binary? .mod l r = binary? .mod r l :=
  guarded_componentwise?_comm hl hr fun _ => isNumeric_of_isInteger

theorem binary?_add_comm {l r : Shape} (hl : l.Unnamed) (hr : r.Unnamed) :
    binary? .add l r = binary? .add r l :=
  guarded_componentwise?_comm hl hr fun _ => id

/-- A product that is not one of linear algebra is typed like a sum. -/
theorem binary?_mul_eq_add {l r : Shape} (h : ¬ isMatrixProduct l r = true) :
    binary? .mul l r = binary? .add l r := by
  simp only [binary?, if_neg h]

end ShaderCost.Shape

namespace ShaderCost

/-- The operators whose operands can always be exchanged. -/
def Operator.symmetric : List Operator :=
  [.add, .sub, .div, .mod, .bitAnd, .bitOr, .bitXor, .equal, .notEqual, .lessThan, .greaterThan,
    .lessThanEqual, .greaterThanEqual, .logicalAnd, .logicalOr, .logicalXor]

/-- Exchanging the operands changes neither whether an operator accepts them nor the shape of the
result. This holds of products, too, unless neither operand is a scalar and one of them is a
matrix. -/
theorem operand_order_immaterial {l r : Shape} (hl : l.Unnamed) (hr : r.Unnamed) :
    (∀ op ∈ Operator.symmetric, Shape.binary? op l r = Shape.binary? op r l) ∧
    (¬ (l.isScalar = false ∧ r.isScalar = false ∧ (l.isMatrix = true ∨ r.isMatrix = true)) →
      Shape.binary? .mul l r = Shape.binary? .mul r l) := by
  refine ⟨fun op hop => ?_, fun hplain => ?_⟩
  · simp only [Operator.symmetric, List.mem_cons, List.not_mem_nil, or_false] at hop
    rcases hop with rfl | rfl | rfl | rfl | rfl | rfl | rfl | rfl | rfl | rfl | rfl | rfl | rfl |
      rfl | rfl | rfl
    iterate 3 exact Shape.binary?_add_comm hl hr
    iterate 4 exact Shape.binary?_mod_comm hl hr
    iterate 2 exact Shape.binary?_equal_comm l r
    iterate 4 exact Shape.binary?_lessThan_comm l r
    iterate 3 exact Shape.binary?_logicalAnd_comm l r
  · have hproduct : ¬ Shape.isMatrixProduct l r = true := fun h =>
      hplain (Shape.isMatrixProduct_cases h)
    have hproduct' : ¬ Shape.isMatrixProduct r l = true := by rwa [Shape.isMatrixProduct_comm]
    rw [Shape.binary?_mul_eq_add hproduct, Shape.binary?_mul_eq_add hproduct']
    exact Shape.binary?_add_comm hl hr

/-- An integer that scales a float matrix from either side, and a comparison of vectors. -/
theorem operand_order_immaterial_scaled :
    (Shape.scalar .int).Unnamed ∧ (Shape.matrix 3 2).Unnamed ∧
      Shape.binary? .mul (.scalar .int) (.matrix 3 2) = some (.matrix 3 2) ∧
      Shape.binary? .mul (.matrix 3 2) (.scalar .int) = some (.matrix 3 2) ∧
      Shape.binary? .equal (.vector .uint 3) (.vector .float 3) = some (.scalar .bool) ∧
      Shape.binary? .equal (.vector .float 3) (.vector .uint 3) = some (.scalar .bool) := by
  have hint : (Shape.scalar .int).Unnamed := by decide
  have hmatrix : (Shape.matrix 3 2).Unnamed := by decide
  have hscaled : Shape.binary? .mul (.scalar .int) (.matrix 3 2) = some (.matrix 3 2) := by decide
  have hequal : Shape.binary? .equal (.vector .uint 3) (.vector .float 3) =
      some (.scalar .bool) := by decide
  refine ⟨hint, hmatrix, hscaled, ?_, hequal, ?_⟩
  · rw [(operand_order_immaterial hmatrix hint).2 (by decide), hscaled]
  · rw [(operand_order_immaterial (by decide) (by decide)).1 .equal (by decide), hequal]

-- a product of linear algebra, a shift, and numbers that carry names
example : Shape.binary? .mul (.matrix 2 3) (.vector .float 2) = some (.vector .float 3) ∧
    Shape.binary? .mul (.vector .float 2) (.matrix 2 3) = none := by decide

example : Shape.binary? .shiftLeft (.vector .int 2) (.scalar .int) = some (.vector .int 2) ∧
    Shape.binary? .shiftLeft (.scalar .int) (.vector .int 2) = none := by decide

example : Shape.binary? .add { Shape.scalar .int with typeName := "S" } (.scalar .int) = none ∧
    Shape.binary? .add (.scalar .int) { Shape.scalar .int with typeName := "S" } =
      some { Shape.scalar .int with typeName := "S" } := by decide

end ShaderCost
