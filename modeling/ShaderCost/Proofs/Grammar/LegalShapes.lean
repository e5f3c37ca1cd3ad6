import ShaderCost.Proofs.Grammar.RecordedShapes

/-! # Legal shapes

`Shape.Legal` lists the shapes of the language: void, scalars, vectors and float matrices of two to
four rows and columns, samplers, declared structures, and arrays of what is not void. Operators,
selectors and constructors stay among them. Two things do not:

* a field of a structure may be an array of void;
* a built-in function takes arguments of any shape, and so the vector with the lanes of a matrix, or
  the transpose of a vector, is a result like any other. `ResultRule.Fits` says which arguments
  keep the result legal.

So an arena has legal shapes, up to arrays of void, exactly if the arguments of all its calls of
built-in functions fit (`shapes_legal_iff_calls_fit`).
-/

namespace ShaderCost

/-! ## Shapes of the language -/

namespace Shape

/-- The dimensions of a scalar, a vector or a matrix. -/
def Dims (rows cols : Nat) : Prop :=
  (1 ≤ rows ∧ rows ≤ 4 ∧ cols = 1) ∨ (2 ≤ rows ∧ rows ≤ 4 ∧ 2 ≤ cols ∧ cols ≤ 4)

instance (rows cols : Nat) : Decidable (Dims rows cols) :=
  inferInstanceAs (Decidable ((1 ≤ rows ∧ rows ≤ 4 ∧ cols = 1) ∨
    (2 ≤ rows ∧ rows ≤ 4 ∧ 2 ≤ cols ∧ cols ≤ 4)))

inductive Legal (structs : List StructDecl) : Shape → Prop where
  | void : Legal structs .void
  | scalar {basic : BasicType} (h : (Shape.scalar basic).hasLanes = true) :
      Legal structs (.scalar basic)
  | vector {basic : BasicType} {n : Nat} (h : (Shape.scalar basic).hasLanes = true)
      (hn : 2 ≤ n ∧ n ≤ 4) : Legal structs (.vector basic n)
  | matrix {cols rows : Nat} (hcols : 2 ≤ cols ∧ cols ≤ 4) (hrows : 2 ≤ rows ∧ rows ≤ 4) :
      Legal structs (.matrix cols rows)
  | sampler {name : String} (h : name ∈ Builtin.samplerNames) : Legal structs (.ofSampler name)
  | struct {decl : StructDecl} (h : decl ∈ structs) : Legal structs (.ofStruct decl.name)
  | array {shape : Shape} {length : Int} (h : Legal structs shape) (hvoid : shape.basic ≠ .void)
      (hsingle : shape.isArray = false) (hpos : 0 < length) :
      Legal structs { shape with arrayLength := length }

def IsVoidArray (shape : Shape) : Prop :=
  ∃ length : Int, 0 < length ∧ shape = { Shape.void with arrayLength := length }

/-- The shape is legal, or that of a field which is an array of void. -/
def Admitted (structs : List StructDecl) (shape : Shape) : Prop :=
  shape.Legal structs ∨ shape.IsVoidArray

variable {structs structs' : List StructDecl} {shape : Shape}

theorem Legal.mono (h : shape.Legal structs) (hsub : ∀ {decl}, decl ∈ structs → decl ∈ structs') :
    shape.Legal structs' := by
  induction h with
  | void => exact .void
  | scalar h => exact .scalar h
  | vector h hn => exact .vector h hn
  | matrix hcols hrows => exact .matrix hcols hrows
  | sampler h => exact .sampler h
  | struct h => exact .struct (hsub h)
  | array _ hvoid hsingle hpos ih => exact .array ih hvoid hsingle hpos

theorem Admitted.void : Shape.void.Admitted structs := Or.inl .void

/-! ## Lanes -/

theorem legal_of_dims {basic : BasicType} {rows cols : Nat}
    (h : (Shape.scalar basic).hasLanes = true) (hdims : Dims rows cols)
    (hfloat : cols = 1 ∨ basic = .float) :
    Legal structs ⟨basic, rows.toUInt8, cols.toUInt8, 0, ""⟩ := by
  rcases hdims with ⟨hlow, hhigh, rfl⟩ | ⟨hlow, hhigh, hlow', hhigh'⟩
  · rcases Nat.eq_or_lt_of_le hlow with rfl | hlow
    · exact .scalar h
    · exact .vector h ⟨hlow, hhigh⟩
  · obtain rfl := hfloat.resolve_left (by omega)
    exact .matrix ⟨hlow', hhigh'⟩ ⟨hlow, hhigh⟩

/-- A legal shape of lanes is known by its dimensions. -/
theorem legal_iff_dims (hlanes : shape.hasLanes = true) :
    shape.Legal structs ↔ shape.typeName = "" ∧ Dims shape.rows.toNat shape.cols.toNat ∧
      (shape.cols = 1 ∨ shape.basic = .float) := by
  constructor
  · intro h
    cases h with
    | void => cases hlanes
    | scalar _ => exact ⟨rfl, Or.inl ⟨Nat.le_refl 1, (by decide : 1 ≤ 4), rfl⟩, Or.inl rfl⟩
    | @vector basic n _ hn =>
      have hrows : n.toUInt8.toNat = n := Nat.mod_eq_of_lt (by omega)
      refine ⟨rfl, Or.inl ?_, Or.inl rfl⟩
      change 1 ≤ n.toUInt8.toNat ∧ n.toUInt8.toNat ≤ 4 ∧ 1 = 1
      omega
    | @matrix cols rows hcols hrows =>
      have hcols' : cols.toUInt8.toNat = cols := Nat.mod_eq_of_lt (by omega)
      have hrows' : rows.toUInt8.toNat = rows := Nat.mod_eq_of_lt (by omega)
      refine ⟨rfl, Or.inr ?_, Or.inr rfl⟩
      change 2 ≤ rows.toUInt8.toNat ∧ rows.toUInt8.toNat ≤ 4 ∧ 2 ≤ cols.toUInt8.toNat ∧
        cols.toUInt8.toNat ≤ 4
      omega
    | sampler _ => cases hlanes
    | struct _ => cases hlanes
    | array _ _ _ hpos =>
      simp only [hasLanes, Bool.and_eq_true, beq_iff_eq] at hlanes
      omega
  · rintro ⟨hname, hdims, hfloat⟩
    obtain ⟨basic, rows, cols, arrayLength, typeName⟩ := shape
    obtain rfl : typeName = "" := hname
    obtain ⟨rfl, hbasic⟩ : arrayLength = 0 ∧ (Shape.scalar basic).hasLanes = true := by
      simpa [hasLanes, scalar] using hlanes
    have h : Legal structs ⟨basic, rows.toNat.toUInt8, cols.toNat.toUInt8, 0, ""⟩ :=
      legal_of_dims hbasic hdims (hfloat.imp_left fun hcols => congrArg UInt8.toNat hcols)
    simpa using h

theorem Legal.dims (h : shape.Legal structs) (hlanes : shape.hasLanes = true) :
    Dims shape.rows.toNat shape.cols.toNat := ((legal_iff_dims hlanes).1 h).2.1

theorem admitted_iff_dims (hlanes : shape.hasLanes = true) :
    shape.Admitted structs ↔ shape.typeName = "" ∧ Dims shape.rows.toNat shape.cols.toNat ∧
      (shape.cols = 1 ∨ shape.basic = .float) := by
  refine Iff.trans (or_iff_left ?_) (legal_iff_dims hlanes)
  rintro ⟨length, hpos, rfl⟩
  simp [hasLanes, Shape.void] at hlanes

theorem Admitted.dims (h : shape.Admitted structs) (hlanes : shape.hasLanes = true) :
    Dims shape.rows.toNat shape.cols.toNat := ((admitted_iff_dims hlanes).1 h).2.1

/-- A matrix is larger than one in both directions. -/
theorem Admitted.matrix_dims (h : shape.Admitted structs) (hmatrix : shape.isMatrix = true) :
    (2 ≤ shape.rows.toNat ∧ shape.rows.toNat ≤ 4) ∧
      2 ≤ shape.cols.toNat ∧ shape.cols.toNat ≤ 4 := by
  have hdims := h.dims (isMatrix_hasLanes hmatrix)
  simp only [isMatrix, Bool.and_eq_true, decide_eq_true_eq, gt_iff_lt, UInt8.lt_iff_toNat_lt]
    at hmatrix
  have hone : (1 : UInt8).toNat = 1 := rfl
  unfold Dims at hdims
  omega

theorem Admitted.vector_dims (h : shape.Admitted structs) (hvector : shape.isVector = true) :
    2 ≤ shape.rows.toNat ∧ shape.rows.toNat ≤ 4 := by
  have hdims := h.dims (isVector_hasLanes hvector)
  simp only [isVector, Bool.and_eq_true, decide_eq_true_eq, gt_iff_lt, UInt8.lt_iff_toNat_lt]
    at hvector
  have hone : (1 : UInt8).toNat = 1 := rfl
  unfold Dims at hdims
  omega

theorem Dims.le {rows cols : Nat} (h : Dims rows cols) : rows ≤ 4 ∧ cols ≤ 4 := by
  unfold Dims at h
  omega

theorem Legal.rows_cols_le (h : shape.Legal structs) :
    shape.rows.toNat ≤ 4 ∧ shape.cols.toNat ≤ 4 := by
  induction h with
  | void | sampler _ | struct _ => exact ⟨Nat.zero_le 4, Nat.zero_le 4⟩
  | scalar hbasic => exact (Legal.dims (@Legal.scalar structs _ hbasic) hbasic).le
  | vector hbasic hn => exact (Legal.dims (@Legal.vector structs _ _ hbasic hn) hbasic).le
  | matrix hcols hrows => exact (Legal.dims (@Legal.matrix structs _ _ hcols hrows) rfl).le
  | array _ _ _ _ ih => exact ih

theorem Admitted.rows_cols_le (h : shape.Admitted structs) :
    shape.rows.toNat ≤ 4 ∧ shape.cols.toNat ≤ 4 := by
  rcases h with h | ⟨length, -, rfl⟩
  · exact h.rows_cols_le
  · exact ⟨Nat.zero_le 4, Nat.zero_le 4⟩

/-- No admitted shape has more lanes than a matrix of four by four. -/
theorem Admitted.elements_le (h : shape.Admitted structs) : shape.elements ≤ 16 := by
  unfold elements
  split
  · next hvector =>
    have hrows := (h.vector_dims hvector).2
    omega
  · split
    · next hmatrix =>
      obtain ⟨⟨-, hrows⟩, -, hcols⟩ := h.matrix_dims hmatrix
      exact Nat.mul_le_mul hrows hcols
    · split <;> decide

/-! ## Operations on shapes -/

theorem Legal.part (h : shape.Legal structs) :
    Legal structs { shape with arrayLength := 0 } := by
  induction h with
  | array _ _ _ _ ih => exact ih
  | void => exact .void
  | scalar h => exact .scalar h
  | vector h hn => exact .vector h hn
  | matrix hcols hrows => exact .matrix hcols hrows
  | sampler h => exact .sampler h
  | struct h => exact .struct h

theorem Admitted.element (h : shape.Admitted structs) : shape.element.Admitted structs := by
  unfold Shape.element
  split
  · rcases h with h | ⟨length, -, rfl⟩
    · exact Or.inl h.part
    · exact .void
  · split
    · next hmatrix =>
      exact Or.inl (.vector (hasLanes_scalar_basic (isMatrix_hasLanes hmatrix))
        (h.matrix_dims hmatrix).1)
    · split
      · next hvector => exact Or.inl (.scalar (hasLanes_scalar_basic (isVector_hasLanes hvector)))
      · exact .void

theorem Admitted.floats (h : shape.Admitted structs) (hlanes : shape.hasLanes = true) :
    Admitted structs { shape with basic := .float } := by
  have hlanes' : hasLanes { shape with basic := .float } = true := by
    simp only [hasLanes, Bool.and_eq_true] at hlanes ⊢
    exact ⟨hlanes.1, rfl⟩
  obtain ⟨hname, hdims, -⟩ := (admitted_iff_dims hlanes).1 h
  exact (admitted_iff_dims hlanes').2 ⟨hname, hdims, Or.inr rfl⟩

theorem Admitted.product {l r : Shape} (hl : l.Admitted structs) (hr : r.Admitted structs)
    (hkind : isMatrixProduct l r = true) (h : matrixProduct? l r = some shape) :
    shape.Admitted structs := by
  unfold matrixProduct? at h
  split at h
  · next hboth =>
    rw [Bool.and_eq_true] at hboth
    split at h <;> cases h
    exact Or.inl (.matrix (hr.matrix_dims hboth.2).2 (hl.matrix_dims hboth.1).1)
  · next hboth =>
    split at h
    · next hleft =>
      split at h <;> cases h
      exact Or.inl (.vector rfl (hl.matrix_dims hleft).1)
    · next hleft =>
      have hright : r.isMatrix = true := by
        simp only [isMatrixProduct, Bool.or_eq_true, Bool.and_eq_true] at hkind
        rcases hkind with (hkind | hkind) | hkind
        · exact hkind.2
        · exact absurd hkind.1 hleft
        · exact hkind.2
      split at h <;> cases h
      exact Or.inl (.vector rfl (hr.matrix_dims hright).2)

end Shape

theorem Builtin.type?_legal {name : String} {shape : Shape} (h : type? name = some shape)
    (structs : List StructDecl) : shape.Legal structs := by
  have htable : ∀ entry ∈ types, entry.2 = .void ∨ entry.2 ∈ samplerNames.map Shape.ofSampler ∨
      (entry.2.hasLanes = true ∧ entry.2.typeName = "" ∧
        Shape.Dims entry.2.rows.toNat entry.2.cols.toNat ∧
        (entry.2.cols = 1 ∨ entry.2.basic = .float)) := by decide
  rcases htable _ (lookup_mem h) with hvoid | hsampler | ⟨hlanes, hdims⟩
  · change shape = .void at hvoid
    rw [hvoid]
    exact .void
  · obtain ⟨name', hname, heq⟩ := List.mem_map.1 hsampler
    change Shape.ofSampler name' = shape at heq
    rw [← heq]
    exact .sampler hname
  · exact (Shape.legal_iff_dims hlanes).2 hdims

/-- Only void itself is void and no array. -/
theorem Shape.Legal.eq_void {structs : List StructDecl} {shape : Shape} (h : shape.Legal structs)
    (hvoid : shape.basic = .void) : shape = .void := by
  cases h with
  | void => rfl
  | scalar hbasic | vector hbasic _ =>
    cases hvoid
    cases hbasic
  | matrix _ _ | sampler _ | struct _ => cases hvoid
  | array _ hne _ _ => exact absurd hvoid hne

theorem ParserState.IsType.admitted {s : ParserState} {shape : Shape} (h : s.IsType shape) :
    shape.Admitted s.structs := by
  induction h with
  | builtin hname => exact Or.inl (Builtin.type?_legal hname _)
  | struct hdecl => exact Or.inl (.struct hdecl)
  | @array shape length _ hsingle hpos ih =>
    rcases ih with hlegal | ⟨_, hpos', rfl⟩
    · by_cases hvoid : shape.basic = .void
      · rw [hlegal.eq_void hvoid]
        exact Or.inr ⟨length, hpos, rfl⟩
      · exact Or.inl (.array hlegal hvoid hsingle hpos)
    · simp only [Shape.isArray, decide_eq_false_iff_not] at hsingle
      exact absurd hpos' hsingle

/-! ## Calls of built-in functions -/

namespace Builtin

/-- The arguments keep the dimensions of the result legal. -/
def ResultRule.Fits (rule : ResultRule) (args : List Shape) : Prop :=
  let first := args.headD .void
  match rule with
  | .lanesOf _ => Shape.Dims first.elements 1
  | .transposed => Shape.Dims first.cols.toNat first.rows.toNat
  | .outerProduct => Shape.Dims first.elements (args.getD 1 .void).elements
  | .sameAsFirst | .sameAsLast | .fixed _ => True

instance : (rule : ResultRule) → (args : List Shape) → Decidable (rule.Fits args)
  | .lanesOf _, _ | .transposed, _ | .outerProduct, _ =>
    inferInstanceAs (Decidable (Shape.Dims _ _))
  | .sameAsFirst, _ | .sameAsLast, _ | .fixed _, _ => inferInstanceAs (Decidable True)

/-- A rule with a shape or lanes of its own has those of a type. -/
def ResultRule.OwnType : ResultRule → Prop
  | .fixed shape => ∃ entry ∈ types, type? entry.1 = some shape
  | .lanesOf basic => (Shape.scalar basic).hasLanes = true
  | _ => True

instance : (rule : ResultRule) → Decidable rule.OwnType
  | .fixed shape => inferInstanceAs (Decidable (∃ entry ∈ types, type? entry.1 = some shape))
  | .lanesOf basic => inferInstanceAs (Decidable ((Shape.scalar basic).hasLanes = true))
  | .sameAsFirst | .sameAsLast | .transposed | .outerProduct => inferInstanceAs (Decidable True)

theorem function?_ownType {name : String} {fn : Function} (h : function? name = some fn) :
    fn.result.OwnType := by
  have htable : ∀ entry ∈ functions, entry.2.result.OwnType := by decide
  exact htable _ (lookup_mem h)

variable {structs : List StructDecl} {args : List Shape}

/-- On admitted arguments the result is admitted exactly if they fit. -/
theorem ResultRule.fits_iff_admitted {rule : ResultRule} (hown : rule.OwnType)
    (hargs : ∀ arg ∈ args, arg.Admitted structs) :
    rule.Fits args ↔ (rule.shape args).Admitted structs := by
  have hfirst : (args.headD .void).Admitted structs := by
    cases args with
    | nil => exact .void
    | cons arg args => exact hargs arg List.mem_cons_self
  have hsecond : (args.getD 1 .void).Admitted structs := by
    rw [List.getD_eq_getElem?_getD]
    cases hget : args[1]? with
    | none => exact .void
    | some arg => exact hargs arg (List.mem_of_getElem? hget)
  -- the numbers of lanes are far from the end of their eight bits
  have hlanes : ∀ {shape : Shape}, shape.Admitted structs →
      shape.elements.toUInt8.toNat = shape.elements := fun h =>
    Nat.mod_eq_of_lt (Nat.lt_of_le_of_lt h.elements_le (by decide))
  cases rule with
  | sameAsFirst => exact iff_of_true trivial hfirst
  | sameAsLast =>
    refine iff_of_true trivial ?_
    rw [ResultRule.shape, List.getLastD_eq_getLast?]
    cases hlast : args.getLast? with
    | none => exact .void
    | some arg => exact hargs arg (List.mem_of_getLast? hlast)
  | fixed shape =>
    obtain ⟨entry, -, hname⟩ := hown
    exact iff_of_true trivial (Or.inl (type?_legal hname structs))
  | lanesOf basic =>
    have hown : ((lanesOf basic).shape args).hasLanes = true := hown
    refine Iff.trans ?_ (Shape.admitted_iff_dims hown).symm
    change Shape.Dims _ 1 ↔ "" = "" ∧ Shape.Dims (args.headD .void).elements.toUInt8.toNat 1 ∧
      ((1 : UInt8) = 1 ∨ basic = .float)
    rw [hlanes hfirst]
    simp
  | transposed =>
    refine Iff.trans ?_ (Shape.admitted_iff_dims rfl).symm
    change Shape.Dims _ _ ↔ "" = "" ∧
      Shape.Dims (args.headD .void).cols.toNat.toUInt8.toNat
        (args.headD .void).rows.toNat.toUInt8.toNat ∧ (_ ∨ BasicType.float = .float)
    simp
  | outerProduct =>
    refine Iff.trans ?_ (Shape.admitted_iff_dims rfl).symm
    change Shape.Dims _ _ ↔ "" = "" ∧
      Shape.Dims (args.headD .void).elements.toUInt8.toNat
        (args.getD 1 .void).elements.toUInt8.toNat ∧ (_ ∨ BasicType.float = .float)
    rw [hlanes hfirst, hlanes hsecond]
    simp

end Builtin

/-- A call of a built-in function has arguments that do not fit. -/
def ParserState.Misfit (s : ParserState) : Prop :=
  ∃ id fn, s.Has id ∧ s.Calls (s.node id) fn ∧
    ¬ fn.result.Fits ((s.node id).operands.map s.shape)

theorem ParserState.Misfit.grows {s s' : ParserState} (h : s.Misfit) (hgrows : Grows s s') :
    s'.Misfit := by
  obtain ⟨id, fn, hid, hcalls, hfits⟩ := h
  refine ⟨id, fn, hgrows.has hid, ?_⟩
  rw [hgrows.node_eq hid]
  refine ⟨hcalls.grows hgrows, ?_⟩
  rwa [hcalls.shapes_eq hgrows]

/-- Shapes are admitted as long as all calls fit. -/
theorem admittedLaw : ShapeLaw fun s shape => s.Misfit ∨ shape.Admitted s.structs where
  grows hgrows h := h.imp (·.grows hgrows) (·.imp_left (·.mono hgrows.structs))
  declared h := Or.inr h.admitted
  element h := h.imp_right (·.element)
  floats hlanes h := h.imp_right (·.floats hlanes)
  product := by
    rintro s l r shape hkind hproduct (h | hl) (h | hr)
    · exact Or.inl h
    · exact Or.inl h
    · exact Or.inl h
    · exact Or.inr (hl.product hr hkind hproduct)
  builtin := by
    intro s n fn hcalls hargs
    by_cases hmisfit : s.Misfit
    · exact Or.inl (hmisfit.grows (.push s n))
    have hargs : ∀ arg ∈ n.operands.map s.shape, arg.Admitted s.structs := by
      intro arg harg
      obtain ⟨c, hc, rfl⟩ := List.mem_map.1 harg
      exact (hargs c hc).resolve_left hmisfit
    rw [hcalls.shape]
    by_cases hfits : fn.result.Fits (n.operands.map s.shape)
    · exact Or.inr ((Builtin.ResultRule.fits_iff_admitted
        (Builtin.function?_ownType hcalls.function) hargs).1 hfits)
    · -- the call itself is the first that does not fit
      refine Or.inl ⟨s.nodes.size, fn, s.has_push n, ?_⟩
      rw [s.node_push_size n]
      refine ⟨hcalls.grows (.push s n), ?_⟩
      rwa [hcalls.shapes_eq (.push s n)]

/-- What looks like a call of a built-in function in the arena is one. -/
theorem Steps.calls {s s' : ParserState} (h : Steps s s')
    (hs : ∀ id, s.Has id → (s.node id).op = .builtin → ∃ fn, s.Calls (s.node id) fn) :
    ∀ id, s'.Has id → (s'.node id).op = .builtin → ∃ fn, s'.Calls (s'.node id) fn := by
  induction h with
  | refl => exact hs
  | @tail s₁ s₂ _ hstep ih =>
    have hgrows := hstep.grows
    have hkept : ∀ id, s₁.Has id → (s₂.node id).op = .builtin → ∃ fn, s₂.Calls (s₂.node id) fn := by
      intro id hid hop
      rw [hgrows.node_eq hid] at hop ⊢
      obtain ⟨fn, hcalls⟩ := ih id hid hop
      exact ⟨fn, hcalls.grows hgrows⟩
    cases hstep with
    | @node n hn hchildren =>
      intro id hid hop
      rcases (s₁.has_push_iff n).1 hid with hid | rfl
      · exact hkept id hid hop
      · rw [s₁.node_push_size n] at hop ⊢
        obtain ⟨fn, hcalls⟩ := hn.calls hchildren hop
        exact ⟨fn, hcalls.grows hgrows⟩
    | _ => exact hkept

/-! ## The arena of a shader -/

/-- If the node calls a built-in function, the arguments fit. -/
def Tree.CallFits (t : Tree) (id : NodeId) : Prop :=
  (t.node id).op = .builtin → ∀ fn ∈ Builtin.function? (t.node id).name,
    fn.result.Fits ((t.node id).operands.map fun c => (t.node c).shape)

instance (t : Tree) (id : NodeId) : Decidable (t.CallFits id) :=
  inferInstanceAs (Decidable ((t.node id).op = .builtin →
    ∀ fn ∈ Builtin.function? (t.node id).name,
      fn.result.Fits ((t.node id).operands.map fun c => (t.node c).shape)))

/-- The shapes of an arena are legal, up to arrays of void, exactly if all calls of built-in
functions fit. Then no shape has more than four rows or columns, nor more than sixteen lanes. -/
theorem shapes_legal_iff_calls_fit {source : Bytes} {t : Tree} (h : Tree.ofSource source = .ok t) :
    ∃ root s, Shader.shader.run { rest := tokenize source } = .ok (root, s) ∧ t.nodes = s.nodes ∧
      ((∀ id < t.size, t.CallFits id) ↔
        ∀ id < t.size, (t.node id).shape.Admitted s.structs) ∧
      ((∀ id < t.size, t.CallFits id) → ∀ id < t.size,
        (t.node id).shape.rows.toNat ≤ 4 ∧ (t.node id).shape.cols.toNat ≤ 4 ∧
          (t.node id).shape.elements ≤ 16) := by
  obtain ⟨root, s, hrun, rfl, hsteps⟩ := Tree.ofTokens_steps h
  have hshapes := hsteps.allShapes admittedLaw (.start admittedLaw _)
  have hcalls := hsteps.calls fun _ hid => absurd hid (Nat.not_lt_zero _)
  have hadmitted : (∀ id, s.Has id → Tree.CallFits { nodes := s.nodes, root := some root } id) →
      ∀ id, (s.shape id).Admitted s.structs := by
    intro hfits id
    refine (hshapes.nodes id).resolve_left ?_
    rintro ⟨bad, fn, hbad, hcall, hmisfit⟩
    exact hmisfit (hfits bad hbad hcall.op fn hcall.function)
  refine ⟨root, s, hrun, rfl, ⟨fun hfits id _ => hadmitted hfits id, ?_⟩, ?_⟩
  · intro hlegal id hid hop fn hfn
    obtain ⟨fn', hcall⟩ := hcalls id hid hop
    obtain rfl : fn' = fn := Option.some.inj (hcall.function.symm.trans hfn)
    have hargs : ∀ arg ∈ (s.node id).operands.map s.shape, arg.Admitted s.structs := by
      intro arg harg
      obtain ⟨c, hc, rfl⟩ := List.mem_map.1 harg
      exact hlegal c (hcall.operands c hc)
    refine (Builtin.ResultRule.fits_iff_admitted (Builtin.function?_ownType hfn) hargs).2 ?_
    rw [← hcall.shape]
    exact hlegal id hid
  · intro hfits id _
    have hshape := hadmitted hfits id
    exact ⟨hshape.rows_cols_le.1, hshape.rows_cols_le.2, hshape.elements_le⟩

/-- One call for each rule that looks at dimensions, with arguments that fit. -/
def fittingCalls : Bytes :=
  Bytes.ofString "void f() {bvec3 b = isnan(vec3(1)); mat3x2 m = transpose(mat2x3(1));}\n" ++
    Bytes.ofString "mat3x2 g() {return outerProduct(vec2(1), vec3(2));}"

theorem shapes_legal_iff_calls_fit_fittingCalls : ∃ t, Tree.ofSource fittingCalls = .ok t ∧
    (∀ id < t.size, t.CallFits id) ∧
    ∃ root s, Shader.shader.run { rest := tokenize fittingCalls } = .ok (root, s) ∧
      t.nodes = s.nodes ∧ ∀ id < t.size, (t.node id).shape.Admitted s.structs := by
  have hfits : (Tree.ofSource fittingCalls).toOption.any (fun t =>
      decide (∀ id < t.size, t.CallFits id)) = true := by decide +kernel
  obtain ⟨t, h, hfits⟩ := exists_ok_of_any hfits
  have hfits : ∀ id < t.size, t.CallFits id := of_decide_eq_true hfits
  obtain ⟨root, s, hrun, hnodes, hiff, -⟩ := shapes_legal_iff_calls_fit h
  exact ⟨t, h, hfits, root, s, hrun, hnodes, hiff.1 hfits⟩

/-- The lanes of a matrix as a vector, products of products, and a field that is an array of
void. -/
def oversizedShapes : Bytes :=
  Bytes.ofString "struct S {void a[3];};\nvoid f(S s) {s.a; isnan(mat4(1));}\n" ++
    Bytes.ofString "void g(mat4 m) {outerProduct(outerProduct(m, m), m);}"

/-- Illegal shapes do occur: a vector of sixteen lanes, a matrix whose 256 rows are cut off to none,
and an array of void. -/
theorem illegal_shapes_occur : ∃ t, Tree.ofSource oversizedShapes = .ok t ∧
    ∀ shape ∈ [Shape.vector .bool 16, Shape.matrix 16 256, ⟨.void, 0, 0, 3, ""⟩],
      (∃ id < t.size, (t.node id).shape = shape) ∧ ∀ structs, ¬ shape.Legal structs := by
  have hshapes : (Tree.ofSource oversizedShapes).toOption.any (fun t => decide (∀ shape ∈
      [Shape.vector .bool 16, Shape.matrix 16 256, ⟨.void, 0, 0, 3, ""⟩],
        ∃ id < t.size, (t.node id).shape = shape)) = true := by decide +kernel
  obtain ⟨t, h, hshapes⟩ := exists_ok_of_any hshapes
  refine ⟨t, h, fun shape hshape => ⟨of_decide_eq_true hshapes shape hshape, ?_⟩⟩
  intro structs hlegal
  simp only [List.mem_cons, List.not_mem_nil, or_false] at hshape
  rcases hshape with rfl | rfl | rfl
  · exact absurd (hlegal.dims rfl) (by decide)
  · exact absurd (hlegal.dims rfl) (by decide)
  · exact absurd (hlegal.eq_void rfl) (by decide)

end ShaderCost
