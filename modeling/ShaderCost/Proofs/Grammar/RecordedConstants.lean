import ShaderCost.Proofs.Grammar.ShaderSteps

/-! # Constants that reading records

A constant comes into the state of the parser as a literal, as the place of a component or a field,
or from a constant that is already there, by a negation or a change to float. A law that holds of
the first two and is kept by the others holds of all recorded constants, those of nodes, variables
and macros (`Steps.allConstants`). There are two such laws:

* constants are of types that have literals (`lanesLaw`);
* integers are 32-bit words up to their sign (`ParserState.Fits`).

The second cannot be had without the sign: a negation is not brought back into the 32 bits
(`integers_leave_words`).
-/

namespace ShaderCost

/-! ## Variables -/

/-- Every variable in sight satisfies `P`. -/
def ParserState.AllVariables (s : ParserState) (P : Variable → Prop) : Prop :=
  ∀ scope ∈ s.scope :: s.enclosing, ∀ v ∈ scope, P v

namespace ParserState.AllVariables

variable {s s' : ParserState} {P : Variable → Prop}

theorem lookup (h : s.AllVariables P) {name : String} {v : Variable}
    (hv : s.lookup? name = some v) : P v := by
  obtain ⟨scope, hscope, hfind⟩ := List.exists_of_findSome?_eq_some hv
  exact h scope hscope v (List.mem_of_find?_eq_some hfind)

/-- A step keeps `P` where it holds of the variable that it declares. -/
theorem step (h : s.AllVariables P) (hstep : Step s s')
    (hdeclared : ∀ v : Variable, s.IsType v.shape → (∀ value ∈ v.value, s.Folds v.shape value) →
      P v) : s'.AllVariables P := by
  cases hstep with
  | @declare v hv hvalue =>
    intro scope hscope
    rcases List.mem_cons.1 hscope with rfl | hscope
    · exact List.forall_mem_cons.2 ⟨hdeclared v hv hvalue, h s.scope List.mem_cons_self⟩
    · exact h scope (List.mem_cons_of_mem _ hscope)
  | opens =>
    intro scope hscope
    rcases List.mem_cons.1 hscope with rfl | hscope
    · exact fun _ hv => (List.not_mem_nil hv).elim
    · exact h scope hscope
  | closes =>
    intro scope hscope
    change scope ∈ s.enclosing.headD [] :: s.enclosing.tail at hscope
    cases hout : s.enclosing with
    | nil =>
      rw [hout] at hscope
      rw [List.mem_singleton.1 hscope]
      exact fun _ hv => (List.not_mem_nil hv).elim
    | cons outer rest =>
      rw [hout] at hscope
      exact h scope (List.mem_cons_of_mem _ (hout ▸ hscope))
  | _ => exact h

end ParserState.AllVariables

/-! ## Laws -/

/-- A law that all recorded constants obey. -/
structure ConstantLaw (P : ParserState → Constant → Prop) : Prop where
  grows : ∀ {s s' value}, Grows s s' → P s value → P s' value
  literal : ∀ {s lexeme value}, Literal.value lexeme = .ok value → P s value
  place : ∀ {s} {position : Nat}, s.IsPlace position → P s (.int position)
  negate : ∀ {s value}, P s value → P s value.negate
  toFloat : ∀ {s value}, P s value → P s value.toFloat

/-- All recorded constants satisfy `P`: those of nodes, variables and macros. -/
structure AllConstants (P : ParserState → Constant → Prop) (s : ParserState) : Prop where
  nodes : ∀ id, ∀ value ∈ (s.node id).constant?, P s value
  scopes : s.AllVariables fun v => ∀ value ∈ v.value, P s value
  macros : ∀ m ∈ s.macros, P s m.value

namespace AllConstants

variable {P : ParserState → Constant → Prop} {s s' : ParserState}

theorem start (tokens : List Token) : AllConstants P { rest := tokens } := by
  constructor
  · intro id value hvalue
    cases hvalue
  · intro scope hscope v hv value hvalue
    have hbuiltin : ∀ v ∈ Scope.builtin, v.value = none := by decide
    rw [List.mem_singleton.1 hscope] at hv
    rw [hbuiltin v hv] at hvalue
    cases hvalue
  · intro m hm
    cases hm

theorem expansion (h : AllConstants P s) {name : String} {value : Constant}
    (hvalue : s.expansion? name = some value) : P s value := by
  obtain ⟨m, hm, rfl⟩ := Option.map_eq_some_iff.1 hvalue
  exact h.macros m (List.mem_of_find?_eq_some hm)

theorem folds (h : AllConstants P s) (law : ConstantLaw P) {shape : Shape} {value : Constant}
    (hvalue : s.Folds shape value) : P s value := by
  obtain ⟨id, initial, -, hinitial, -, -, rfl⟩ := hvalue
  split
  · exact law.toFloat (h.nodes id initial hinitial)
  · exact h.nodes id initial hinitial

theorem makes (h : AllConstants P s) (law : ConstantLaw P) {n : Node} (hn : Makes s n) :
    ∀ value ∈ n.constant?, P s value := by
  intro value hvalue
  cases hn with
  | literal hliteral =>
    cases hvalue
    exact law.literal hliteral
  | expansion hname =>
    cases hvalue
    exact h.expansion hname
  | constantVariable hv hconstant =>
    cases hvalue
    exact h.scopes.lookup hv _ hconstant
  | place hplace =>
    cases hvalue
    exact law.place hplace
  | negatedLiteral _ hliteral _ =>
    cases hvalue
    exact law.negate (h.nodes _ _ hliteral)
  | builtin _ _ _ _ =>
    -- the form of the node depends on the number of arguments, but is never that of a constant
    exfalso
    unfold Node.constant? at hvalue
    simp only at hvalue
    grind
  | _ => cases hvalue

theorem step (h : AllConstants P s) (law : ConstantLaw P) (hstep : Step s s') :
    AllConstants P s' := by
  have hgrows := hstep.grows
  have hnodes : ∀ id, ∀ value ∈ (s.node id).constant?, P s' value := fun id value hvalue =>
    law.grows hgrows (h.nodes id value hvalue)
  have hmacros : ∀ m ∈ s.macros, P s' m.value := fun m hm => law.grows hgrows (h.macros m hm)
  have hvariables : s'.AllVariables fun v => ∀ value ∈ v.value, P s' value := by
    have hkept : s.AllVariables fun v => ∀ value ∈ v.value, P s' value :=
      fun scope hscope v hv value hvalue =>
        law.grows hgrows (h.scopes scope hscope v hv value hvalue)
    exact hkept.step hstep fun v _ hvalue value hmem =>
      law.grows hgrows (h.folds law (hvalue value hmem))
  cases hstep with
  | @node n hn _ =>
    refine ⟨fun id => ?_, hvariables, hmacros⟩
    rw [s.node_push]
    split
    · exact fun value hvalue => law.grows hgrows (h.makes law hn value hvalue)
    · exact hnodes id
  | defineMacro hliteral hvalue =>
    refine ⟨hnodes, hvariables, List.forall_mem_cons.2 ⟨?_, hmacros⟩⟩
    rcases hvalue with hvalue | hvalue <;> rw [hvalue]
    · exact law.literal hliteral
    · exact law.negate (law.literal hliteral)
  | _ => exact ⟨hnodes, hvariables, hmacros⟩

end AllConstants

theorem Steps.allConstants {P : ParserState → Constant → Prop} {s s' : ParserState}
    (h : Steps s s') (law : ConstantLaw P) (hs : AllConstants P s) : AllConstants P s' := by
  induction h with
  | refl => exact hs
  | tail _ hstep ih => exact ih.step law hstep

/-! ## Constants are of types that have literals -/

theorem Constant.negate_basic (value : Constant) : value.negate.basic = value.basic := by
  cases value <;> rfl

theorem Constant.toFloat_basic (value : Constant) : value.toFloat.basic = .float := by
  cases value <;> rfl

theorem Literal.value_hasLanes {lexeme : Lexeme} {value : Constant}
    (h : Literal.value lexeme = .ok value) : (Shape.scalar value.basic).hasLanes = true := by
  unfold Literal.value at h
  split at h
  · next text =>
    cases hw : word text <;> rw [hw] at h <;> cases h
    rfl
  · next text =>
    cases hw : word text <;> rw [hw] at h <;> cases h
    rfl
  · split at h <;> cases h
    rfl
  · cases h
    rfl
  · cases h

theorem lanesLaw : ConstantLaw fun _ value => (Shape.scalar value.basic).hasLanes = true where
  grows _ h := h
  literal h := Literal.value_hasLanes h
  place _ := rfl
  negate h := by rwa [Constant.negate_basic]
  toFloat _ := by
    rw [Constant.toFloat_basic]
    rfl

/-! ## Integers are words up to their sign -/

/-- An integer within the 32 bits of its type. -/
def Constant.IsWord : Constant → Prop
  | .int v => -0x80000000 ≤ v ∧ v < 0x80000000
  | .uint v => 0 ≤ v ∧ v < 0x100000000
  | _ => True

/-- A constant of 32 bits, or the place of a field, for structures may be of any length. -/
def ParserState.Measures (s : ParserState) (value : Constant) : Prop :=
  value.IsWord ∨ ∃ decl ∈ s.structs, ∃ position < decl.fields.length, value = .int (position : Nat)

/-- A constant that measures up, or the negation of one. -/
def ParserState.Fits (s : ParserState) (value : Constant) : Prop :=
  s.Measures value ∨ s.Measures value.negate

namespace Literal

theorem digits_lt {base start result : Nat} {text : List Char}
    (h : digits base start text = .ok result) (hstart : start < 0x100000000) :
    result < 0x100000000 := by
  fun_induction digits base start text with
  | case1 value =>
    cases h
    exact hstart
  | case2 => cases h
  | case3 => cases h
  | case4 => cases h
  | case5 value c rest d _ _ hfits ih => exact ih h (by omega)

theorem word_lt {text : String} {w : Nat} (h : word text = .ok w) : w < 0x100000000 := by
  unfold word at h
  split at h <;> exact digits_lt h (by decide)

/-- A literal denotes a word, and reading it as signed keeps it in range. -/
theorem value_isWord {lexeme : Lexeme} {value : Constant} (h : Literal.value lexeme = .ok value) :
    value.IsWord := by
  unfold Literal.value at h
  split at h
  · next text =>
    cases hw : word text with
    | error _ => rw [hw] at h; cases h
    | ok w =>
      rw [hw] at h
      cases h
      have hlt := word_lt hw
      change -0x80000000 ≤ signed w ∧ signed w < 0x80000000
      unfold signed
      split <;> omega
  · next text =>
    cases hw : word text with
    | error _ => rw [hw] at h; cases h
    | ok w =>
      rw [hw] at h
      cases h
      have hlt := word_lt hw
      exact ⟨by omega, by omega⟩
  · split at h <;> cases h
    trivial
  · cases h
    trivial
  · cases h

end Literal

theorem ParserState.Measures.grows {s s' : ParserState} {value : Constant} (h : s.Measures value)
    (hgrows : Grows s s') : s'.Measures value := by
  refine h.imp_right ?_
  rintro ⟨decl, hdecl, hposition⟩
  exact ⟨decl, hgrows.structs hdecl, hposition⟩

theorem fitsLaw : ConstantLaw ParserState.Fits where
  grows hgrows h := h.imp (·.grows hgrows) (·.grows hgrows)
  literal h := Or.inl (Or.inl (Literal.value_isWord h))
  place := by
    rintro s position (hcomponent | ⟨decl, hdecl, hfield⟩)
    · exact Or.inl (Or.inl ⟨by omega, by omega⟩)
    · exact Or.inl (Or.inr ⟨decl, hdecl, position, hfield, rfl⟩)
  negate := by
    intro s value h
    -- integers come back when they are negated twice, and of floats nothing is asked
    have htwice : value.negate.negate = value ∨ value.negate.IsWord := by
      cases value with
      | int v => exact Or.inl (congrArg Constant.int (Int.neg_neg v))
      | uint v => exact Or.inl (congrArg Constant.uint (Int.neg_neg v))
      | float v => exact Or.inr trivial
      | bool v => exact Or.inl rfl
      | blank basic => exact Or.inl rfl
    rcases htwice with htwice | hword
    · change s.Measures value.negate ∨ s.Measures value.negate.negate
      rw [htwice]
      exact h.symm
    · exact Or.inl (Or.inl hword)
  toFloat := by
    intro s value _
    cases value <;> exact Or.inl (Or.inl trivial)

/-- Whatever literals, negations, macros and constant variables a constant of the arena comes from,
it is within the 32 bits of its type, the place of a field, or the negation of such a number. -/
theorem integers_words_up_to_sign {source : Bytes} {t : Tree} (h : Tree.ofSource source = .ok t) :
    ∃ root s, Shader.shader.run { rest := tokenize source } = .ok (root, s) ∧ t.nodes = s.nodes ∧
      ∀ id value, (t.node id).constant? = some value → s.Fits value := by
  obtain ⟨root, s, hrun, rfl, hsteps⟩ := Tree.ofTokens_steps h
  exact ⟨root, s, hrun, rfl, (hsteps.allConstants fitsLaw (.start _)).nodes⟩

/-- Negations in a macro and in a constant variable, and the place of a field. -/
def negatedConstants : Bytes :=
  Bytes.ofString "#define LOW -0x80000000\nconst uint mask = -1u;\n" ++
    Bytes.ofString "struct S {float a; float b;};\nfloat f(S s) {return s.b;}\n" ++
    Bytes.ofString "int g() {return LOW;}\nuint h() {return mask;}"

theorem integers_words_up_to_sign_negatedConstants : ∃ t, Tree.ofSource negatedConstants = .ok t ∧
    ∃ root s, Shader.shader.run { rest := tokenize negatedConstants } = .ok (root, s) ∧
      t.nodes = s.nodes ∧ ∀ id value, (t.node id).constant? = some value → s.Fits value := by
  have hok : (Tree.ofSource negatedConstants).isOk = true := by decide +kernel
  obtain ⟨t, h⟩ := Tree.exists_of_isOk hok
  exact ⟨t, h, integers_words_up_to_sign h⟩

/-- The least signed word and an unsigned word, both negated. -/
def negatedWords : Bytes := Bytes.ofString "int a = -0x80000000;\nuint b = -1u;\n"

/-- The sign is needed: a negation gives a signed integer above all words, and an unsigned one below
them. -/
theorem integers_leave_words : ∃ t, Tree.ofSource negatedWords = .ok t ∧
    (∃ id, (t.node id).constant? = some (.int 0x80000000) ∧ ¬ Constant.IsWord (.int 0x80000000)) ∧
    ∃ id, (t.node id).constant? = some (.uint (-1)) ∧ ¬ Constant.IsWord (.uint (-1)) := by
  have hconstants : (Tree.ofSource negatedWords).toOption.any (fun t =>
      decide ((t.node 1).constant? = some (.int 0x80000000) ∧
        (t.node 6).constant? = some (.uint (-1)))) = true := by decide +kernel
  obtain ⟨t, h, hconstants⟩ := exists_ok_of_any hconstants
  obtain ⟨hint, huint⟩ := of_decide_eq_true hconstants
  refine ⟨t, h, ⟨1, hint, fun hword => ?_⟩, ⟨6, huint, fun hword => ?_⟩⟩
  · exact absurd hword.2 (by decide)
  · exact absurd hword.1 (by decide)

end ShaderCost
