import ShaderCost.Proofs.Grammar.ExpressionSteps

/-! # Steps of shaders

Directives, declarations, statements and the top level, in the order of the grammar. The shapes that
a declaration gives are those of types (`specifier_does`), the conditions of statements are Boolean
scalars, and a whole shader is a sequence of steps (`ofTokens_steps`).
-/

namespace ShaderCost

open ShaderCost.Parser
open ShaderCost.Expression (has_nil has_cons)

variable {s : ParserState}

theorem LoopParts.mem_children {p : LoopParts} {id : NodeId} :
    id ∈ p.children ↔ p.test = some id ∨ p.body = some id ∨ p.terminal = some id := by
  obtain ⟨test, body, terminal, testLast⟩ := p
  cases testLast
  · simp [children, eq_comm]
  · simp [children, eq_comm, or_left_comm]

namespace Directive

theorem define_does (token : Token) (words : List Bytes) (s : ParserState) :
    (define token words).Does s fun _ _ => True := by
  cases words with
  | nil => exact .failAt _ _
  | cons name body =>
    unfold define
    refine .check fun _ => ?_
    simp only
    split
    · exact .failAt _ _
    · split
      · exact .failAt _ _
      · exact .failAt _ _
      · next negated _ _ value hvalue =>
        intro a s' hrun
        cases hrun
        refine ⟨.single (.defineMacro hvalue ?_), trivial⟩
        cases negated
        · exact Or.inl rfl
        · exact Or.inr rfl

theorem parse_does (token : Token) (text : Bytes) (s : ParserState) :
    (parse token text).Does s fun _ _ => True := by
  unfold parse
  split
  · exact .pure trivial
  · refine .ite (fun _ => .pure trivial) fun _ => .ite (fun _ => define_does _ _ _) fun _ => ?_
    exact .ite (fun _ => .failAt _ _) fun _ => .failAt _ _

end Directive

namespace Declaration

/-! ## Qualifiers -/

theorem parenthesesStep_does (depth : Nat) (s : ParserState) :
    (parenthesesStep depth).Does s (Does.AfterTurn (fun _ _ => True) fun _ _ => True) := by
  refine .advance ?_
  split
  · exact .pure trivial
  · exact .ite (fun _ => .pure trivial) fun _ => .pure trivial
  · exact .fail _
  · exact .pure trivial

theorem skipParentheses_does (s : ParserState) : skipParentheses.Does s fun _ _ => True :=
  .expectLexeme (.loop (fun _ _ => True) (fun depth s _ => parenthesesStep_does depth s) trivial)

theorem qualifierStep_does (q : Qualifiers) (s : ParserState) :
    (qualifierStep q).Does s (Does.AfterTurn (fun _ _ => True) fun _ _ => True) := by
  refine .current ?_
  split
  · exact .advance (.pure trivial)
  · exact .advance (.pure trivial)
  · exact .advance (.pure trivial)
  · exact .advance ((skipParentheses_does _).bind fun _ s' _ _ => .pure trivial)
  · exact .ite (fun _ => .advance (.pure trivial)) fun _ => .pure trivial
  · exact .pure trivial

theorem qualifiers_does (s : ParserState) : qualifiers.Does s fun _ _ => True :=
  .loop (fun _ _ => True) (fun q s _ => qualifierStep_does q s) trivial

theorem precision_does (s : ParserState) : precision.Does s fun _ _ => True := by
  refine .current ?_
  split
  · exact .advance (.pure trivial)
  · exact .advance (.pure trivial)
  · exact .advance (.pure trivial)
  · exact .fail _

/-! ## Types -/

/-- Hands out a shape that a declaration can give. -/
def TypeHanded (shape : Shape) (s : ParserState) : Prop := s.IsType shape

theorem arraySuffix_does {shape : Shape} (hshape : s.IsType shape) :
    (arraySuffix shape).Does s TypeHanded := by
  refine .accept (.ite (fun h => nomatch h) fun _ => ?_) (.pure hshape)
  refine .ite (fun _ => .fail_bind) fun hsingle => .current ?_
  refine (Expression.parseConditional_does _).bind fun size s' hs _ => .nodeAt ?_
  split
  · exact .failAt _ _
  · next length _ =>
    refine .check fun hpos => .expectLexeme (.pure ?_)
    have hshape' : s'.IsType shape := hs.grows.isType hshape.next
    exact .array hshape'.next (by simpa using hsingle) (by omega)

/-- The fields read so far have types. -/
def FieldsTyped (fields : List Field) (s : ParserState) : Prop :=
  ∀ field ∈ fields, s.IsType field.shape

theorem FieldsTyped.grows {fields : List Field} {s' : ParserState} (h : FieldsTyped fields s)
    (hs : Grows s s') : FieldsTyped fields s' := fun field hfield => hs.isType (h field hfield)

theorem fieldStep_does {shape : Shape} {fields : List Field} (hshape : s.IsType shape)
    (hfields : FieldsTyped fields s) : (fieldStep shape fields).Does s
      (Does.AfterTurn (fun fields s => s.IsType shape ∧ FieldsTyped fields s) FieldsTyped) := by
  refine .expectName fun name => ?_
  refine (arraySuffix_does (.next hshape)).bind fun fieldShape s' hs hfieldShape => ?_
  refine .check fun _ => ?_
  have hgrows : Grows s s' := (Grows.next s).trans hs.grows
  have hall : FieldsTyped (fields ++ [{ name, shape := fieldShape }]) s' := by
    intro field hfield
    rcases List.mem_append.1 hfield with hfield | hfield
    · exact hgrows.isType (hfields field hfield)
    · rw [List.mem_singleton.1 hfield]
      exact hfieldShape
  exact .accept (.pure ⟨.next (hgrows.isType hshape), hall.grows (.next s')⟩) (.pure hall)

theorem memberStep_does {specifier : Parser Shape}
    (hspecifier : ∀ s, specifier.Does s TypeHanded) {fields : List Field}
    (hfields : FieldsTyped fields s) :
    (memberStep specifier fields).Does s (Does.AfterTurn FieldsTyped FieldsTyped) := by
  refine .accept (.pure (hfields.grows (.next s))) ?_
  refine (qualifiers_does s).bind fun _ s₁ hs₁ _ => ?_
  refine (hspecifier s₁).bind fun shape s₂ hs₂ hshape => ?_
  refine Does.bind (.loop (fun fields s => s.IsType shape ∧ FieldsTyped fields s)
    (fun fields s h => fieldStep_does h.1 h.2) ⟨hshape, ?_⟩) fun fields s₃ _ hfields => ?_
  · exact hfields.grows (hs₁.grows.trans hs₂.grows)
  · exact .expectLexeme (.pure (hfields.grows (.next s₃)))

theorem structSpecifier_does {specifier : Parser Shape}
    (hspecifier : ∀ s, specifier.Does s TypeHanded) :
    (structSpecifier specifier).Does s TypeHanded := by
  refine .expectLexeme (.expectName fun name => .get (.check fun hname => .expectLexeme ?_))
  have hbuiltin : Builtin.type? name = none := by
    cases hbuiltin : Builtin.type? name with
    | none => rfl
    | some shape =>
      exfalso
      apply hname
      simp only [ParserState.isTypeName, ParserState.type?, hbuiltin, Option.isSome_some]
  refine Does.bind (.loop FieldsTyped (fun fields s h => memberStep_does hspecifier h)
    fun _ h => (List.not_mem_nil h).elim) fun fields s' _ hfields => ?_
  refine .modify (.struct hbuiltin hfields) (.pure ?_)
  have hmem : { name, fields } ∈ (s'.addStruct { name, fields }).structs := List.mem_cons_self
  exact .struct hmem

theorem type?_isType {name : String} {shape : Shape} (h : s.type? name = some shape) :
    s.IsType shape := by
  unfold ParserState.type? at h
  split at h
  · next hbuiltin =>
    cases h
    exact .builtin hbuiltin
  · obtain ⟨decl, hdecl, rfl⟩ := Option.map_eq_some_iff.1 h
    exact .struct (List.mem_of_find?_eq_some hdecl)

theorem specifierRule_does {self : Unit → Parser Shape}
    (hself : ∀ rule s, (self rule).Does s TypeHanded) (rule : Unit) (s : ParserState) :
    (specifierRule self rule).Does s TypeHanded := by
  refine .current ?_
  split
  · exact structSpecifier_does (hself ())
  · refine .advance (.get ?_)
    split
    · next shape hshape => exact .pure (type?_isType hshape)
    · exact .failAt _ _
  · exact .fail _

theorem specifier_does (s : ParserState) : specifier.Does s TypeHanded :=
  Does.knot (fun _ hself => specifierRule_does hself) () s

theorem starts_does {β : Type} {R : β → ParserState → Prop} {f : Bool → Parser β}
    (h : ∀ b, (f b).Does s R) : (starts >>= f).Does s R := by
  refine Does.bind (Q := fun _ s' => s' = s) ?_ fun b s' _ hs => hs ▸ h b
  refine .current ?_
  split
  · exact .pure rfl
  · refine .following fun token => ?_
    split
    · exact .get (.pure rfl)
    · exact .pure rfl
  · exact .pure rfl

/-! ## Declarators -/

/-- The value comes from a literal, and the assignment is there. -/
def InitializerRead (shape : Shape) (result : Option Constant × Option NodeId)
    (s : ParserState) : Prop :=
  (∀ value ∈ result.1, s.Folds shape value) ∧ ∀ assign ∈ result.2, s.Has assign

theorem initializer_does (q : Qualifiers) {shape : Shape} (hshape : s.IsType shape)
    (token : Token) (name : String) :
    (initializer q shape token name).Does s (InitializerRead shape) := by
  unfold initializer
  refine .check fun _ => ?_
  refine (Expression.parse_does _ s).bind fun initial s₁ hs₁ hinitial => .nodeAt ?_
  refine .check fun haccepts => ?_
  have haccepts : shape.accepts (s₁.shape initial) = true := by simpa using haccepts
  split
  · next value hvalue =>
    refine .pure ⟨fun value' hmem => ?_, fun _ h => (Option.not_mem_none _ h).elim⟩
    obtain rfl := Option.mem_some.1 hmem
    unfold foldedValue? at hvalue
    split at hvalue
    · cases hvalue
    · next literal hliteral =>
      split at hvalue
      · next hscalar =>
        rw [Bool.and_eq_true] at hscalar
        exact ⟨initial, literal, hinitial, hliteral, haccepts, hscalar.2,
          (Option.some.inj hvalue).symm⟩
      · cases hvalue
  · have hshape' : s₁.IsType shape := hs₁.grows.isType hshape
    refine .addNode (.declaration hshape') has_nil fun target s₂ _ hgrows htarget hnode => ?_
    have hinitial' : s₂.Has initial := hgrows.has hinitial
    have htargetShape : s₂.shape target = shape := by rw [ParserState.shape, hnode]
    have hassign : (s₂.shape target).accepts (s₂.shape initial) = true := by
      rw [htargetShape, hgrows.shape_eq hinitial, haccepts]
    rw [← htargetShape]
    refine Does.bind (.hand (.assign hassign) (has_cons htarget (has_cons hinitial' has_nil)))
      fun assign s₃ _ hhas =>
        .pure ⟨fun _ h => (Option.not_mem_none _ h).elim, fun assign' hmem => ?_⟩
    obtain rfl := Option.mem_some.1 hmem
    exact hhas

/-- The type of a declaration is one, and the assignments read so far are there. -/
def AssignsRead (shape : Shape) (assigns : List NodeId) (s : ParserState) : Prop :=
  s.IsType shape ∧ ∀ assign ∈ assigns, s.Has assign

theorem AssignsRead.grows {shape : Shape} {assigns : List NodeId} {s' : ParserState}
    (h : AssignsRead shape assigns s) (hs : Grows s s') : AssignsRead shape assigns s' :=
  ⟨hs.isType h.1, fun assign hassign => hs.has (h.2 assign hassign)⟩

theorem declaratorStep_does (q : Qualifiers) {shape : Shape} (isGlobal : Bool)
    {assigns : List NodeId} (h : AssignsRead shape assigns s) :
    (declaratorStep q shape isGlobal assigns).Does s
      (Does.AfterTurn (AssignsRead shape) (AssignsRead shape)) := by
  refine .expectName fun name => .get (.check fun _ => ?_)
  refine (arraySuffix_does h.1.next).bind fun itemShape s₁ hs₁ hitem => ?_
  refine (Does.accepts _ s₁).bind fun equals s₂ hs₂ _ => ?_
  have hgrows : Grows s s₂ := (Grows.next s).trans (hs₁.grows.trans hs₂.grows)
  have hitem : s₂.IsType itemShape := hs₂.grows.isType hitem
  extract_lets rest
  -- with or without an initialiser the rest is the same
  have hrest : ∀ x s', Steps s₂ s' → InitializerRead itemShape x s' →
      (rest x).Does s' (Does.AfterTurn (AssignsRead shape) (AssignsRead shape)) := by
    rintro ⟨value, assign⟩ s₃ hs₃ ⟨hvalue, hassign⟩
    have hitem : s₃.IsType itemShape := hs₃.grows.isType hitem
    refine .modify (.declare hitem hvalue) ?_
    extract_lets assigns' next
    have hnext : ∀ s', Grows s₃ s' →
        (next ()).Does s' (Does.AfterTurn (AssignsRead shape) (AssignsRead shape)) := by
      intro s' hs'
      have hread : AssignsRead shape assigns' s' := by
        refine ⟨hs'.isType (hs₃.grows.isType (hgrows.isType h.1)), fun a ha => ?_⟩
        rcases List.mem_append.1 ha with ha | ha
        · exact hs'.has (hs₃.grows.has (hgrows.has (h.2 a ha)))
        · exact hs'.has (hassign a (Option.mem_toList.1 ha))
      exact .accept (.pure (hread.grows (.next s'))) (.pure hread)
    refine .ite (fun _ => ?_) fun _ => hnext _ (.addVariable _ _)
    refine .addNode (.declaration ((Grows.addVariable _ _).isType hitem)) has_nil
      fun global s₄ _ hs₄ hglobal _ => ?_
    exact .modify (.global hglobal) (hnext _ (((Grows.addVariable _ _).trans hs₄).trans
      (.addGlobal _ _)))
  refine .ite (fun _ => (initializer_does q hitem _ _).bind hrest) fun _ =>
    .ite (fun _ => .failAt_bind) fun _ => ?_
  exact Does.bind (.pure ⟨(fun _ h => nomatch h), fun _ h => nomatch h⟩) hrest

/-- Hands out the number of a node or none. -/
def HandedSome (result : Option NodeId) (s : ParserState) : Prop := ∀ id ∈ result, s.Has id

theorem HandedSome.some {id : NodeId} (h : s.Has id) : HandedSome (some id) s := by
  intro id' hid
  obtain rfl := Option.mem_some.1 hid
  exact h

theorem HandedSome.none : HandedSome none s := fun _ h => nomatch h

theorem declarators_does (q : Qualifiers) {shape : Shape} (hshape : s.IsType shape)
    (isGlobal : Bool) : (declarators q shape isGlobal).Does s HandedSome := by
  unfold declarators
  refine .ite (fun _ => .fail_bind) fun _ => ?_
  refine Does.bind (.loop (AssignsRead shape)
    (fun assigns s h => declaratorStep_does q isGlobal h) ⟨hshape, has_nil⟩)
    fun assigns s' _ hread => .expectLexeme ?_
  split
  · exact .pure .none
  · next assign => exact .pure (.some (hread.2 assign List.mem_cons_self))
  · refine .nodeAt (Does.bind (.hand (.sequence (by simp)) ?_) fun node s'' _ hnode => ?_)
    · exact hread.2
    · exact .pure (.some hnode)

end Declaration

namespace Statement

open Declaration (HandedSome)

variable {self : Unit → Parser (Option NodeId)}

theorem blockStep_does (hself : ∀ rule s, (self rule).Does s HandedSome) {items : List NodeId}
    (hitems : ∀ item ∈ items, s.Has item) : (blockStep self items).Does s
      (Does.AfterTurn (fun items s => ∀ item ∈ items, s.Has item)
        fun items s => ∀ item ∈ items, s.Has item) := by
  refine .current ?_
  split
  · exact .pure fun item hitem => hitems item (List.mem_reverse.1 hitem)
  · exact .fail _
  · refine (hself () s).bind fun item s' hs hitem => ?_
    have hitems' : ∀ item ∈ items, s'.Has item := fun item h => hs.grows.has (hitems item h)
    cases item with
    | some item => exact .pure (has_cons (hitem item rfl) hitems')
    | none => exact .pure hitems'

theorem items_does (hself : ∀ rule s, (self rule).Does s HandedSome) (opening : Token)
    (s : ParserState) : (do
      let items ← Parser.loop (blockStep self) []
      let _ ← expect .rightBrace
      addSequence .sequence items opening.line : Parser NodeId).Does s Handed := by
  refine Does.bind (.loop _ (fun items s h => blockStep_does hself h) has_nil)
    fun items s' _ hitems => .expectLexeme ?_
  exact .hand (.sequence (by simp)) hitems

theorem block_does (hself : ∀ rule s, (self rule).Does s HandedSome) :
    (block self).Does s Handed := .expectLexeme (items_does hself _ _)

theorem scopedBlock_does (hself : ∀ rule s, (self rule).Does s HandedSome) :
    (scopedBlock self).Does s Handed := .expectLexeme (.inScope (items_does hself _ _))

theorem body_does (hself : ∀ rule s, (self rule).Does s HandedSome) :
    (body self).Does s Handed := by
  refine .current (Does.bind (.inScope (Q := HandedSome) (hself () _)) fun item s' _ hitem => ?_)
  cases item with
  | some item => exact .pure (hitem item rfl)
  | none => exact .hand (.sequence (by simp)) has_nil

/-- Hands out a condition. -/
def ConditionHanded (id : NodeId) (s : ParserState) : Prop :=
  s.Has id ∧ s.shape id = .scalar .bool

theorem ConditionHanded.grows {id : NodeId} {s' : ParserState} (h : ConditionHanded id s)
    (hs : Grows s s') : ConditionHanded id s' :=
  ⟨hs.has h.1, (hs.shape_eq h.1).trans h.2⟩

theorem booleanExpression_does (s : ParserState) :
    booleanExpression.Does s ConditionHanded := by
  refine .current ((Expression.parse_does _ s).bind fun condition s' _ hcondition => ?_)
  exact .shapeAt (.check fun hbool => .pure ⟨hcondition, by simpa using hbool⟩)

theorem condition_does (s : ParserState) : condition.Does s ConditionHanded := by
  refine .expectLexeme ((booleanExpression_does _).bind fun node s' _ hnode => ?_)
  exact .expectLexeme (.pure (hnode.grows (.next s')))

theorem ifStatement_does (hself : ∀ rule s, (self rule).Does s HandedSome) :
    (ifStatement self).Does s Handed := by
  refine .expectLexeme ((condition_does _).bind fun test s₁ _ htest => ?_)
  refine (body_does hself).bind fun yes s₂ hs₂ hyes => .current ?_
  have hrest : ∀ no s', Grows s₂ s' → no.length ≤ 1 → (∀ n ∈ no, s'.Has n) → (addNode
      { form := .selection, line := s.front.line, operands := [test, yes] ++ no }).Does s'
        Handed := by
    intro no s' hs' hlength hno
    have htest' := (htest.grows hs₂.grows).grows hs'
    have hyes' : s'.Has yes := hs'.has hyes
    exact .hand (.ifStatement htest'.2 hlength) (has_cons htest'.1 (has_cons hyes' hno))
  refine .ite (fun _ => .advance ((body_does hself).bind fun no s₃ hs₃ hno => ?_)) fun _ => ?_
  · exact hrest [no] s₃ ((Grows.next s₂).trans hs₃.grows) (Nat.le_refl 1) (has_cons hno has_nil)
  · exact hrest [] s₂ (.refl s₂) (Nat.zero_le 1) has_nil

theorem forInitializer_does (s : ParserState) : forInitializer.Does s HandedSome := by
  refine .accept (.pure .none) (Declaration.starts_does fun starts => ?_)
  refine .ite (fun _ => ?_) fun _ => ?_
  · refine (Declaration.qualifiers_does s).bind fun q s₁ _ _ => ?_
    refine (Declaration.specifier_does s₁).bind fun shape s₂ _ hshape => ?_
    exact Declaration.declarators_does q hshape false
  · refine (Expression.parse_does _ s).bind fun node s₁ _ hnode => ?_
    exact .expectLexeme (.pure (.some hnode))

theorem addLoop_does {parts : LoopParts} {line : Nat}
    (htest : ∀ test ∈ parts.test, s.shape test = .scalar .bool)
    (hparts : ∀ part ∈ parts.children, s.Has part) : (addLoop parts line).Does s Handed :=
  .hand (.loop htest) hparts

theorem forStatement_does (hself : ∀ rule s, (self rule).Does s HandedSome) :
    (forStatement self).Does s Handed := by
  refine .expectLexeme (.expectLexeme (.inScope (Q := Handed) ?_))
  refine (forInitializer_does _).bind fun initial s₁ hs₁ hinitial => ?_
  refine .isAt fun noTest => .choose
    (Q := fun test s => ∀ id ∈ test, ConditionHanded id s) (.pure fun _ h => nomatch h) ?_ ?_
  · refine .map ((booleanExpression_does s₁).mono fun test s' _ htest id hid => ?_)
    obtain rfl := Option.mem_some.1 hid
    exact htest
  intro test s₂ hs₂ htest
  refine .expectLexeme (.isAt fun noTerminal => .choose (Q := HandedSome) (.pure .none) ?_ ?_)
  · exact .map ((Expression.parse_does _ _).mono fun _ _ _ h => .some h)
  intro terminal s₃ hs₃ hterminal
  refine .expectLexeme ((body_does hself).bind fun inner s₄ hs₄ hinner => ?_)
  have hgrows₃ : Grows s₃ s₄ := (Grows.next s₃).trans hs₄.grows
  have hgrows₂ : Grows s₂ s₄ := (Grows.next s₂).trans (hs₃.grows.trans hgrows₃)
  refine (addLoop_does (fun id hid => ((htest id hid).grows hgrows₂).2) ?_).bind
    fun node s₅ hs₅ hnode => ?_
  · intro part hpart
    rcases LoopParts.mem_children.1 hpart with rfl | hbody | rfl
    · exact ((htest part rfl).grows hgrows₂).1
    · obtain rfl := Option.mem_some.1 hbody
      exact hinner
    · exact hgrows₃.has (hterminal part rfl)
  · cases initial with
    | none => exact .pure hnode
    | some initial =>
      have hinitial' : s₅.Has initial :=
        (hs₂.grows.trans (hgrows₂.trans hs₅.grows)).has (hinitial initial rfl)
      exact .hand (.sequence (by simp)) (has_cons hinitial' (has_cons hnode has_nil))

theorem whileStatement_does (hself : ∀ rule s, (self rule).Does s HandedSome) :
    (whileStatement self).Does s Handed := by
  refine .expectLexeme ((condition_does _).bind fun test s₁ _ htest => ?_)
  refine (body_does hself).bind fun inner s₂ hs₂ hinner => addLoop_does ?_ ?_
  · intro id hid
    obtain rfl := Option.mem_some.1 hid
    exact (htest.grows hs₂.grows).2
  · exact has_cons (htest.grows hs₂.grows).1 (has_cons hinner has_nil)

theorem doStatement_does (hself : ∀ rule s, (self rule).Does s HandedSome) :
    (doStatement self).Does s Handed := by
  refine .expectLexeme ((body_does hself).bind fun inner s₁ _ hinner => .expectLexeme ?_)
  refine (condition_does _).bind fun test s₂ hs₂ htest => .expectLexeme (addLoop_does ?_ ?_)
  · intro id hid
    obtain rfl := Option.mem_some.1 hid
    exact (htest.grows (.next s₂)).2
  · have hinner' : s₂.Has inner := hs₂.grows.has hinner
    exact has_cons hinner' (has_cons htest.1 has_nil)

theorem returnStatement_does (s : ParserState) : returnStatement.Does s Handed := by
  refine .advance (.isAt fun empty => .ite (fun _ => ?_) fun _ => ?_)
  · exact .pure_bind (.expectLexeme (.hand (.branch (by simp)) has_nil))
  · refine (Expression.parse_does _ _).bind fun value s' _ hvalue => .pure_bind ?_
    exact .expectLexeme (.hand (.branch (by simp)) (has_cons hvalue has_nil))

theorem branch_does {op : Operator} (hop : op ∈ [.return, .break, .continue, .discard])
    (s : ParserState) : (branch op).Does s Handed :=
  .advance (.expectLexeme (.hand (.branch hop) has_nil))

theorem localDeclaration_does (s : ParserState) : localDeclaration.Does s HandedSome := by
  refine (Declaration.qualifiers_does s).bind fun q s₁ _ _ => ?_
  refine (Declaration.specifier_does s₁).bind fun shape s₂ _ hshape => ?_
  exact .accept (.pure .none) (Declaration.declarators_does q hshape false)

theorem rule_does (hself : ∀ rule s, (self rule).Does s HandedSome) (u : Unit)
    (s : ParserState) : (rule self u).Does s HandedSome := by
  have hsome : ∀ {p : Parser NodeId}, p.Does s Handed → (some <$> p).Does s HandedSome := fun hp =>
    .map (hp.mono fun _ _ _ h => .some h)
  refine .current ?_
  split
  · exact hsome (scopedBlock_does hself)
  · exact .advance (.pure .none)
  · exact hsome (ifStatement_does hself)
  · exact hsome (forStatement_does hself)
  · exact hsome (whileStatement_does hself)
  · exact hsome (doStatement_does hself)
  · exact hsome (returnStatement_does s)
  · exact hsome (branch_does (by simp) s)
  · exact hsome (branch_does (by simp) s)
  · exact hsome (branch_does (by simp) s)
  · exact .advance ((Directive.parse_does _ _ _).bind fun _ _ _ _ => .pure .none)
  · refine Declaration.starts_does fun starts => .ite (fun _ => localDeclaration_does s) fun _ => ?_
    refine (Expression.parse_does _ s).bind fun node s₁ _ hnode => ?_
    exact .expectLexeme (.pure (.some hnode))

theorem parse_does (s : ParserState) : parse.Does s HandedSome :=
  Does.knot (fun _ hself => rule_does hself) () s

theorem functionBody_does (s : ParserState) : functionBody.Does s Handed :=
  block_does fun _ => parse_does

end Statement

namespace Shader

open Declaration (HandedSome)

/-! ## Functions -/

/-- The parameters read so far have types. -/
def ParamsTyped (params : List Param) (s : ParserState) : Prop :=
  ∀ param ∈ params, s.IsType param.shape

theorem ParamsTyped.grows {params : List Param} {s' : ParserState} (h : ParamsTyped params s)
    (hs : Grows s s') : ParamsTyped params s' := fun param hparam => hs.isType (h param hparam)

theorem paramStep_does {params : List Param} (hparams : ParamsTyped params s) :
    (paramStep params).Does s (Does.AfterTurn ParamsTyped ParamsTyped) := by
  refine .isAt fun closing => .ite (fun _ => .pure ?_) fun _ => .optional (.expects _ s) ?_
  · exact fun param hparam => hparams param (List.mem_reverse.1 hparam)
  intro s₁ hs₁
  refine (Declaration.qualifiers_does s₁).bind fun _ s₂ hs₂ _ => ?_
  refine (Declaration.specifier_does s₂).bind fun shape s₃ hs₃ hshape => ?_
  refine .ite (fun _ => .fail_bind) fun _ => .current ?_
  have hall : ∀ {shape s' name line}, Steps s₃ s' → s'.IsType shape →
      ParamsTyped ({ name, shape, line } :: params) s' := by
    intro shape s' name line hs' hshape param hparam
    rcases List.mem_cons.1 hparam with rfl | hparam
    · exact hshape
    · exact ((hs₁.grows.trans hs₂.grows).trans (hs₃.grows.trans hs'.grows)).isType
        (hparams param hparam)
  split
  · refine .advance (.pure_bind ?_)
    refine (Declaration.arraySuffix_does (.next hshape)).bind fun shape s₄ hs₄ hshape => ?_
    exact .pure (hall (.head .consume hs₄) hshape)
  · refine .pure_bind ?_
    refine (Declaration.arraySuffix_does hshape).bind fun shape s₄ hs₄ hshape => ?_
    exact .pure (hall hs₄ hshape)

theorem params_does (s : ParserState) : params.Does s ParamsTyped := by
  refine .expectLexeme (.current (.following fun _ => .optional (.advances _) fun s₁ _ => ?_))
  refine Does.bind (.loop ParamsTyped (fun params s h => paramStep_does h)
    fun _ h => (List.not_mem_nil h).elim) fun params s₂ _ hparams => ?_
  exact .expectLexeme (.pure (hparams.grows (.next s₂)))

/-- The function that a header declares. -/
def heading (name : String) (params : List Shape) (result : Shape) : FunctionDecl :=
  { name, signature := signatureOf name params, params, result }

/-- The function of a header is declared as `decl`, for the first time or again. -/
inductive Declares (s : ParserState) (header : FunctionDecl) :
    FunctionDecl → ParserState → Prop where
  | again {decl : FunctionDecl} (h : decl ∈ s.functions) (hname : decl.name = header.name)
      (hsignature : decl.signature = header.signature) (hresult : decl.result = header.result) :
      Declares s header decl s
  | first (hnew : s.declared? header.name header.signature = none) :
      Declares s header header (s.addFunction header)

theorem declareFunction_does (token : Token) (name : String) {result : Shape}
    {shapes : List Shape} (hresult : s.IsType result) (hshapes : ∀ shape ∈ shapes, s.IsType shape) :
    (declareFunction token name result shapes).Does s fun decl s' =>
      Declares s (heading name shapes result) decl s' ∧
        ∃ params, s'.declared? decl.name decl.signature = some (params, result) := by
  have hfind : ∀ signature, (s.overloads name).find? (·.signature == signature) =
      s.functions.find? fun d => d.name == name && d.signature == signature := by
    intro signature
    simp only [ParserState.overloads, List.find?_filter, ← Bool.and_eq_true, Bool.decide_eq_true]
  refine .get ?_
  split
  · next decl hdecl =>
    rw [hfind] at hdecl
    have hmatch := List.find?_some hdecl
    simp only [Bool.and_eq_true, beq_iff_eq] at hmatch
    refine .check fun hsame => ?_
    have hsame : decl.result = result := by simpa using hsame
    refine .pure ⟨.again (List.mem_of_find?_eq_some hdecl) hmatch.1 hmatch.2 hsame, decl.params, ?_⟩
    rw [ParserState.declared?, hmatch.1, hmatch.2, hdecl, Option.map_some, hsame]
  · next hnone =>
    rw [hfind] at hnone
    have hnew : s.declared? name (signatureOf name shapes) = none := by
      rw [ParserState.declared?, hnone, Option.map_none]
    have hstep : Step s (s.addFunction (heading name shapes result)) :=
      .function hnew hshapes hresult
    refine .modify hstep (.pure ⟨.first hnew, shapes, ?_⟩)
    simp [ParserState.declared?, hnone]

theorem declareParam_does {param : Param} (hparam : s.IsType param.shape) :
    (declareParam param).Does s HandedSome := by
  unfold declareParam
  split
  · exact .pure .none
  · refine .modify (.declare hparam fun _ h => nomatch h) ?_
    refine Does.bind (.hand (.declaration ((Grows.addVariable _ _).isType hparam)) has_nil)
      fun node s' _ hnode => .pure (.some hnode)

theorem declareParams_does {params : List Param} (hparams : ParamsTyped params s) :
    (params.mapM declareParam).Does s fun symbols s' =>
      ∀ symbol ∈ symbols.filterMap id, s'.Has symbol := by
  induction params generalizing s with
  | nil => exact .pure has_nil
  | cons param params ih =>
    rw [List.mapM_cons]
    have hparam := declareParam_does (hparams param List.mem_cons_self)
    refine hparam.bind fun symbol s₁ hs₁ hsymbol => ?_
    have hrest : ParamsTyped params s₁ := fun p hp =>
      hs₁.grows.isType (hparams p (List.mem_cons_of_mem param hp))
    refine (ih hrest).bind fun symbols s₂ hs₂ hsymbols => .pure fun id hid => ?_
    cases symbol with
    | none => exact hsymbols id hid
    | some symbol =>
      rcases List.mem_cons.1 hid with rfl | hid
      · exact hs₂.grows.has (hsymbol _ rfl)
      · exact hsymbols id hid

theorem function_does {result : Shape} (hresult : s.IsType result) :
    (function result).Does s HandedSome := by
  refine .expectName fun name => .check fun _ => .get (.check fun _ => ?_)
  refine (params_does _).bind fun params s₁ hs₁ hparams => ?_
  have hresult₁ : s₁.IsType result := hs₁.grows.isType hresult.next
  refine (declareFunction_does _ _ hresult₁ ?_).bind fun decl s₂ hs₂ ⟨_, shapes, hdecl⟩ => ?_
  · intro shape hshape
    obtain ⟨param, hparam, rfl⟩ := List.mem_map.1 hshape
    exact hparams param hparam
  refine .accept (.pure .none) (.ite (fun h => nomatch h) fun _ => .check fun _ => ?_)
  refine .modify (.defined decl.name decl.signature) (.inScope (Q := HandedSome) ?_)
  have hgrows : Grows s₂ (s₂.withBody decl.name decl.signature).opened :=
    (Step.defined decl.name decl.signature).grows.trans Step.opens.grows
  refine (declareParams_does (hparams.grows (hs₂.grows.trans hgrows))).bind
    fun symbols s₃ hs₃ hsymbols => ?_
  refine .addNode (.sequence (by simp)) hsymbols fun list s₄ _ hs₄ hlist _ => ?_
  refine (Statement.functionBody_does s₄).bind fun body s₅ hs₅ hbody => ?_
  have hdecl' : s₅.declared? decl.name decl.signature = some (shapes, result) :=
    (((hgrows.trans hs₃.grows).trans hs₄).trans hs₅.grows).declared hdecl
  have hlist' : s₅.Has list := hs₅.grows.has hlist
  refine Does.bind (.hand (.function hdecl') (has_cons hlist' (has_cons hbody has_nil)))
    fun node s₆ _ hnode => .pure (.some hnode)

/-! ## The top level -/

theorem externalDeclaration_does (s : ParserState) : externalDeclaration.Does s HandedSome := by
  refine (Declaration.qualifiers_does s).bind fun q s₁ _ _ => .current (.following fun token => ?_)
  extract_lets rest
  have hrest : (rest ()).Does s₁ HandedSome := by
    refine (Declaration.specifier_does s₁).bind fun shape s₂ _ hshape => .accept (.pure .none) ?_
    refine .current (.following fun token => ?_)
    split
    · exact function_does hshape
    · exact Declaration.declarators_does q hshape true
  split
  · refine .get (.ite (fun _ => ?_) fun _ => hrest)
    exact .advance (.advance (.pure .none))
  · exact hrest

theorem itemStep_does {items : List NodeId} (hitems : ∀ item ∈ items, s.Has item) :
    (itemStep items).Does s (Does.AfterTurn (fun items s => ∀ item ∈ items, s.Has item)
      fun items s => ∀ item ∈ items, s.Has item) := by
  have hkeep : ∀ {s'}, Steps s s' → ∀ item ∈ items, s'.Has item := fun hs item hitem =>
    hs.grows.has (hitems item hitem)
  refine .current ?_
  split
  · exact .pure fun item hitem => hitems item (List.mem_reverse.1 hitem)
  · refine .advance ((Directive.parse_does _ _ _).bind fun _ s' hs _ => .pure ?_)
    exact hkeep (.head .consume hs)
  · exact .advance (.pure (hkeep (.single .consume)))
  · refine .advance ((Declaration.precision_does _).bind fun _ s₁ hs₁ _ => ?_)
    refine (Declaration.specifier_does s₁).bind fun _ s₂ hs₂ _ => .expectLexeme (.pure ?_)
    exact hkeep ((Relation.ReflTransGen.head .consume hs₁).trans (hs₂.tail .consume))
  · refine (externalDeclaration_does s).bind fun item s' hs hitem => ?_
    cases item with
    | some item => exact .pure (has_cons (hitem item rfl) (hkeep hs))
    | none => exact .pure (hkeep hs)

theorem shader_does (hglobals : ∀ id ∈ s.globals, s.Has id) : shader.Does s Handed := by
  refine Does.bind (.loop _ (fun items s h => itemStep_does h) has_nil)
    fun items s₁ hs₁ hitems => .get ?_
  refine .addNode (.sequence (by simp)) (hs₁.globals hglobals) fun globals s₂ _ hs₂ hnode _ => ?_
  refine .hand (.sequence (by simp)) fun c hc => ?_
  rcases List.mem_append.1 hc with hc | hc
  · exact hs₂.has (hitems c hc)
  · rwa [List.mem_singleton.1 hc]

end Shader

/-- A tree that is read is the arena at the end of a sequence of steps. -/
theorem Tree.ofTokens_steps {tokens : List Token} {t : Tree} (h : Tree.ofTokens tokens = .ok t) :
    ∃ root s, Shader.shader.run { rest := tokens } = .ok (root, s) ∧
      t = { nodes := s.nodes, root := some root } ∧ Steps { rest := tokens } s := by
  unfold Tree.ofTokens at h
  cases hrun : Shader.shader.run { rest := tokens } with
  | error e =>
    rw [hrun] at h
    cases h
  | ok result =>
    rw [hrun] at h
    cases h
    exact ⟨result.1, result.2, rfl, rfl, (Shader.shader_does has_nil hrun).1⟩

/-- A result that passes a check is there. -/
theorem exists_ok_of_any {ε α : Type} {x : Except ε α} {p : α → Bool}
    (h : x.toOption.any p = true) : ∃ a, x = .ok a ∧ p a = true := by
  cases x with
  | ok a => exact ⟨a, rfl, h⟩
  | error e => cases h

theorem Tree.exists_of_isOk {x : Except ParseError Tree} (h : x.isOk = true) :
    ∃ t, x = .ok t := by
  cases x with
  | ok t => exact ⟨t, rfl⟩
  | error e => cases h

theorem Tree.ofSource_of_isOk {source : Bytes} (h : (Tree.ofSource source).isOk = true) :
    Tree.ofSource source = .ok ((Tree.ofSource source).toOption.getD .empty) := by
  obtain ⟨t, ht⟩ := Tree.exists_of_isOk h
  rw [ht]
  rfl

end ShaderCost
