import ShaderCost.Proofs.Grammar.ExpressionEndings

/-! # How the reading of shaders ends

Directives, declarations, statements and the top level, in the order of the grammar. A loop goes on
only behind a token that its turn has consumed, and a rule calls itself only behind one of its own;
so the reading of a whole shader ends with a refusal or with a tree (`shader_ends`).
-/

namespace ShaderCost

open ShaderCost.Parser
open ShaderCost.Expression (has_nil has_cons)

variable {ts : List Token} {s : ParserState} {k : Nat}

namespace Directive

theorem define_ends {token : Token} (htoken : token ∈ ts) (words : List Bytes)
    (hk : s.rest.length < k) : (define token words).Ends ts s fun _ => k := by
  cases words with
  | nil => exact .failAt htoken rfl
  | cons name body =>
    unfold define
    refine .check htoken rfl fun _ => ?_
    simp only
    split
    · exact .failAt htoken rfl
    · split
      · exact .failAt htoken rfl
      · exact .failAt htoken rfl
      · intro hs
        exact ⟨id, hs.more, hk⟩

theorem parse_ends {token : Token} (htoken : token ∈ ts) (text : Bytes) (hk : s.rest.length < k) :
    (parse token text).Ends ts s fun _ => k := by
  unfold parse
  split
  · exact .pure hk
  · refine .ite (fun _ => .pure hk) fun _ => .ite (fun _ => define_ends htoken _ hk) fun _ => ?_
    exact .ite (fun _ => .failAt htoken rfl) fun _ => .failAt htoken rfl

end Directive

namespace Declaration

/-! ## Qualifiers -/

/-- The end of the input is stepped over like any other token, and the complaint is behind it. -/
theorem parenthesesStep_unterminated (hs : Reading ts s) (hend : s.front.lexeme = .endOfInput)
    (depth : Nat) : parenthesesStep depth s =
      .error { complaint := .unterminatedParenthesis, line := 0, column := 0 } := by
  have hfront : s.next.front = .nowhere := by
    unfold ParserState.front
    rw [hs.next_of_isLast (by rw [hend]; rfl)]
    rfl
  unfold parenthesesStep
  rw [run_advance _ (by simp [hend])]
  simp only [hend]
  rw [run_fail, hfront]
  rfl

theorem parenthesesStep_ends (depth : Nat) :
    (parenthesesStep depth).Ends ts s (Ends.turnBound s.rest.length) := by
  by_cases hend : s.front.lexeme = .endOfInput
  · intro hs
    rw [parenthesesStep_unterminated hs hend]
    exact Refusal.unterminated
  · refine .advance hend fun _ hlt => ?_
    split
    · exact .pure hlt
    · exact .ite (fun _ => .pure (Nat.lt_succ_of_lt hlt)) fun _ => .pure hlt
    · next hlexeme => exact absurd hlexeme hend
    · exact .pure hlt

theorem skipParentheses_ends (hk : s.rest.length ≤ k) : skipParentheses.Ends ts s fun _ => k := by
  refine .expect fun _ hnext => .loop (fun _ _ => True)
    (fun depth s _ => parenthesesStep_does depth s) ?_ trivial (by omega)
  intro depth s' _ _
  exact parenthesesStep_ends depth

theorem qualifierStep_ends (q : Qualifiers) :
    (qualifierStep q).Ends ts s (Ends.turnBound s.rest.length) := by
  refine .current fun _ => ?_
  split
  · next hlexeme => exact .advance (by simp [hlexeme]) fun _ hlt => .pure hlt
  · next hlexeme => exact .advance (by simp [hlexeme]) fun _ hlt => .pure hlt
  · next hlexeme => exact .advance (by simp [hlexeme]) fun _ hlt => .pure hlt
  · next hlexeme =>
    refine .advance (by simp [hlexeme]) fun _ hlt => ?_
    exact .bind (skipParentheses_does _) (skipParentheses_ends (Nat.le_of_lt hlt))
      fun _ s' _ _ hk => .pure hk
  · next hlexeme =>
    refine .ite (fun _ => ?_) fun _ => .pure (Nat.lt_succ_self _)
    exact .advance (by simp [hlexeme]) fun _ hlt => .pure hlt
  · exact .pure (Nat.lt_succ_self _)

theorem qualifiers_ends (hk : s.rest.length < k) : qualifiers.Ends ts s fun _ => k := by
  refine .loop (fun _ _ => True) (fun q s _ => qualifierStep_does q s) ?_ trivial hk
  intro q s' _ _
  exact qualifierStep_ends q

theorem precision_ends (hk : s.rest.length < k) : precision.Ends ts s fun _ => k := by
  refine .current fun _ => ?_
  split
  · next hlexeme => exact .advance (by simp [hlexeme]) fun _ hlt => .pure (by omega)
  · next hlexeme => exact .advance (by simp [hlexeme]) fun _ hlt => .pure (by omega)
  · next hlexeme => exact .advance (by simp [hlexeme]) fun _ hlt => .pure (by omega)
  · exact .fail rfl

/-! ## Types -/

theorem arraySuffix_ends (shape : Shape) (hk : s.rest.length < k) :
    (arraySuffix shape).Ends ts s fun _ => k := by
  refine .accept (fun _ hlt => .ite (fun h => nomatch h) fun _ => ?_) (.pure hk)
  refine .ite (fun _ => .fail_bind rfl) fun _ => .current fun htoken => ?_
  have hk₁ : s.next.rest.length ≤ k := by omega
  refine .bind (Expression.parseConditional_does _) (Expression.parseConditional_ends hk₁)
    fun size s' _ hsize hk' => .nodeAt hsize ?_
  split
  · exact .failAt htoken rfl
  · exact .check htoken rfl fun _ => .expect fun _ hlt' => .pure (Nat.lt_trans hlt' hk')

theorem fieldStep_ends {shape : Shape} (hshape : s.IsType shape) (fields : List Field) :
    (fieldStep shape fields).Ends ts s (Ends.turnBound s.rest.length) := by
  refine .expectName fun name _ htoken hlt => ?_
  refine .bind (arraySuffix_does hshape.next) (arraySuffix_ends shape hlt)
    fun fieldShape s' _ _ hk => .check htoken.mem rfl fun _ => ?_
  exact .accept (fun _ hlt' => .pure (Nat.lt_trans hlt' hk)) (.pure (Nat.lt_succ_of_lt hk))

theorem memberStep_ends {self : Unit → Parser Shape} {n : Nat}
    (hself : Descends ts TypeHanded self n) (hn : s.rest.length < n) {fields : List Field}
    (hfields : FieldsTyped fields s) :
    (memberStep (self ()) fields).Ends ts s (Ends.turnBound s.rest.length) := by
  refine .accept (fun _ hlt => .pure (Nat.lt_succ_of_lt hlt)) ?_
  refine .bind (qualifiers_does s) (qualifiers_ends (Nat.lt_succ_self _))
    fun _ s₁ hs₁ _ hk₁ => ?_
  have hspecifier : (self ()).Ends ts s₁ fun _ => s.rest.length :=
    (hself.ends () (by omega)).weaken fun _ => by omega
  refine .bind (hself.does () s₁) hspecifier fun shape s₂ hs₂ hshape hk₂ => ?_
  have hfields₂ : FieldsTyped fields s₂ := hfields.grows (hs₁.grows.trans hs₂.grows)
  have hdoes : ∀ fields s, s.IsType shape ∧ FieldsTyped fields s → (fieldStep shape fields).Does s
      (Does.AfterTurn (fun fields s => s.IsType shape ∧ FieldsTyped fields s) FieldsTyped) :=
    fun fields s h => fieldStep_does h.1 h.2
  refine .bind (.loop _ hdoes ⟨hshape, hfields₂⟩) (.loop _ hdoes (fun fields s' h _ =>
    fieldStep_ends h.1 fields) ⟨hshape, hfields₂⟩ hk₂) fun fields s₃ _ _ hk₃ => ?_
  exact .expect fun _ hlt => .pure (Nat.lt_trans hlt hk₃)

theorem structSpecifier_ends {self : Unit → Parser Shape} (hself : Descends ts TypeHanded self k)
    (hk : s.rest.length ≤ k) : (structSpecifier (self ())).Ends ts s fun _ => k := by
  refine .expectKeyword fun _ hlt₁ => .expectName fun name hname htoken hlt₂ => .get ?_
  refine .check htoken.mem rfl fun _ => .expect fun _ hlt₃ => ?_
  have hdoes : ∀ fields s, FieldsTyped fields s → (memberStep (self ()) fields).Does s
      (Does.AfterTurn FieldsTyped FieldsTyped) := fun fields s h =>
    memberStep_does (hself.does ()) h
  have hnil : FieldsTyped [] s.next.next.next := fun _ h => (List.not_mem_nil h).elim
  refine .bind (.loop _ hdoes hnil) (.loop _ hdoes (fun fields s' h _ =>
    memberStep_ends hself (by omega) h) hnil (k := k) (by omega)) fun fields s' _ _ hk' => ?_
  intro hs
  exact ⟨(·.addStruct ⟨_, htoken, hname⟩), hs.more, hk'⟩

theorem specifierRule_ends {self : Unit → Parser Shape} (hself : Descends ts TypeHanded self k)
    (rule : Unit) (hk : s.rest.length ≤ k) : (specifierRule self rule).Ends ts s fun _ => k := by
  refine .current fun _ => ?_
  split
  · exact structSpecifier_ends hself hk
  · next name hlexeme =>
    refine .advance (by simp [hlexeme]) fun htoken hlt => .get ?_
    split
    · exact .pure (by omega)
    · exact .failAt htoken.mem rfl
  · exact .fail rfl

theorem specifier_ends (hk : s.rest.length ≤ k) : specifier.Ends ts s fun _ => k :=
  .knot (fun _ hself => specifierRule_does hself)
    (fun _ s hself rule => specifierRule_ends hself rule (Nat.le_refl s.rest.length)) () hk

theorem specifier_descends (ts : List Token) (n : Nat) :
    Descends ts TypeHanded (fun _ : Unit => specifier) n :=
  ⟨fun _ => specifier_does, fun _ s _ => specifier_ends (Nat.le_refl s.rest.length)⟩

theorem starts_ends {β : Type} {bound : β → Nat} {f : Bool → Parser β}
    (h : ∀ b, (f b).Ends ts s bound) : (starts >>= f).Ends ts s bound := by
  have hdoes : starts.Does s fun _ s' => s' = s := by
    rw [← bind_pure starts]
    exact starts_does fun _ => .pure rfl
  have hends : starts.Ends ts s fun _ => s.rest.length + 1 := by
    have hstill : ∀ b, (pure b : Parser Bool).Ends ts s fun _ => s.rest.length + 1 := fun b =>
      .pure (Nat.lt_succ_self _)
    refine .current fun _ => ?_
    split
    · exact hstill _
    · refine .following ?_
      split
      · exact .get (hstill _)
      · exact hstill _
    · exact hstill _
  exact .bind hdoes hends fun b s' _ hs _ => hs ▸ h b

/-! ## Declarators -/

theorem initializer_ends (q : Qualifiers) {shape : Shape} (hshape : s.IsType shape)
    {token : Token} (htoken : Consumed ts token) (name : String) (hk : s.rest.length ≤ k) :
    (initializer q shape token name).Ends ts s fun _ => k := by
  unfold initializer
  refine .check htoken.mem rfl fun _ => ?_
  refine .bind (Expression.parse_does _ s) (Expression.parse_ends _ hk)
    fun initial s₁ hs₁ hinitial hk₁ => .nodeAt hinitial (.check htoken.mem rfl fun _ => ?_)
  split
  · exact .pure hk₁
  · have hshape₁ : s₁.IsType shape := hs₁.grows.isType hshape
    refine .bind (.hand (.declaration hshape₁) has_nil) (.hand (.still rfl) hk₁)
      fun target s₂ _ _ hk₂ => ?_
    exact .handAs (.on htoken rfl) fun _ => hk₂

theorem declaratorStep_ends (q : Qualifiers) {shape : Shape} (hshape : s.IsType shape)
    (isGlobal : Bool) (assigns : List NodeId) :
    (declaratorStep q shape isGlobal assigns).Ends ts s (Ends.turnBound s.rest.length) := by
  refine .expectName fun name _ htoken hlt => .get (.check htoken.mem rfl fun _ => ?_)
  refine .bind (arraySuffix_does hshape.next) (arraySuffix_ends shape hlt)
    fun itemShape s₁ _ hitem hk₁ => ?_
  refine .bind (Does.accepts _ s₁) (.accepts _ hk₁) fun equals s₂ hs₂ _ hk₂ => ?_
  have hitem : s₂.IsType itemShape := hs₂.grows.isType hitem
  extract_lets rest
  -- with or without an initialiser the rest is the same
  have hrest : ∀ x s', Steps s₂ s' → InitializerRead itemShape x s' →
      s'.rest.length < s.rest.length →
      (rest x).Ends ts s' (Ends.turnBound s.rest.length) := by
    rintro ⟨value, assign⟩ s₃ hs₃ ⟨hvalue, -⟩ hk₃
    have hitem : s₃.IsType itemShape := hs₃.grows.isType hitem
    refine .modify (.declare hitem hvalue) rfl id ?_
    extract_lets assigns' next
    have hnext : ∀ s' : ParserState, s'.rest.length < s.rest.length →
        (next ()).Ends ts s' (Ends.turnBound s.rest.length) := by
      intro s' hk'
      exact .accept (fun _ hlt' => .pure (Nat.lt_trans hlt' hk')) (.pure (Nat.lt_succ_of_lt hk'))
    refine .ite (fun _ => ?_) fun _ => hnext _ hk₃
    refine .bind (.hand (.declaration ((Grows.addVariable _ _).isType hitem)) has_nil)
      (.hand (.still rfl) hk₃) fun global s₄ _ hglobal hk₄ => ?_
    exact .modify (.global hglobal) rfl id (hnext _ hk₄)
  refine .ite (fun _ => ?_) fun _ => .ite (fun _ => .failAt_bind htoken.mem rfl) fun _ => ?_
  · exact .bind (initializer_does q hitem _ _)
      (initializer_ends q hitem htoken name (Nat.le_of_lt hk₂)) hrest
  · exact .bind (.pure ⟨(fun _ h => nomatch h), fun _ h => nomatch h⟩) (.pure hk₂) hrest

theorem declarators_ends (q : Qualifiers) {shape : Shape} (hshape : s.IsType shape)
    (isGlobal : Bool) (hk : s.rest.length ≤ k) :
    (declarators q shape isGlobal).Ends ts s fun _ => k := by
  unfold declarators
  refine .ite (fun _ => .fail_bind rfl) fun _ => ?_
  have hdoes : ∀ assigns s, AssignsRead shape assigns s →
      (declaratorStep q shape isGlobal assigns).Does s
        (Does.AfterTurn (AssignsRead shape) (AssignsRead shape)) := fun assigns s h =>
    declaratorStep_does q isGlobal h
  refine .bind (.loop _ hdoes ⟨hshape, has_nil⟩) (.loop _ hdoes (fun assigns s' h _ =>
    declaratorStep_ends q h.1 isGlobal assigns) ⟨hshape, has_nil⟩ (Nat.lt_succ_of_le hk))
    fun assigns s₁ _ hread hk₁ => .expect fun _ hlt => ?_
  have hk₂ : s₁.next.rest.length < k := by omega
  split
  · exact .pure hk₂
  · exact .pure hk₂
  · next first others _ =>
    have hfirst : s₁.next.Has first := hread.2 first List.mem_cons_self
    exact .nodeAt hfirst (.handAs (.still rfl) fun _ => hk₂)

end Declaration

namespace Statement

open Declaration (HandedSome)

variable {self : Unit → Parser (Option NodeId)}

theorem blockStep_ends {n : Nat} (hself : Descends ts HandedSome self n) (hn : s.rest.length < n)
    (items : List NodeId) : (blockStep self items).Ends ts s (Ends.turnBound s.rest.length) := by
  refine .current fun _ => ?_
  split
  · exact .pure (Nat.lt_succ_self _)
  · exact .fail rfl
  · refine .bind (hself.does () s) (hself.ends () hn) fun item s' _ _ hk => ?_
    cases item with
    | some item => exact .pure hk
    | none => exact .pure hk

theorem items_ends (hself : Descends ts HandedSome self k) (opening : Token)
    (hk : s.rest.length < k) : (do
      let items ← Parser.loop (blockStep self) []
      let _ ← expect .rightBrace
      addSequence .sequence items opening.line : Parser NodeId).Ends ts s fun _ => k := by
  refine .bind (.loop _ (fun items s h => blockStep_does hself.does h) has_nil)
    (.loop _ (fun items s h => blockStep_does hself.does h)
      (fun items s' _ hle => blockStep_ends hself (by omega) items) has_nil hk)
    fun items s' _ _ hk' => .expect fun _ hlt => ?_
  exact .hand (.still rfl) (Nat.lt_trans hlt hk')

theorem block_ends (hself : Descends ts HandedSome self k) (hk : s.rest.length ≤ k) :
    (block self).Ends ts s fun _ => k :=
  .expect fun _ hlt => items_ends hself _ (Nat.lt_of_lt_of_le hlt hk)

theorem scopedBlock_ends (hself : Descends ts HandedSome self k) (hk : s.rest.length ≤ k) :
    (scopedBlock self).Ends ts s fun _ => k :=
  .expect fun _ hlt => .inScope (items_ends hself _ (Nat.lt_of_lt_of_le hlt hk))

theorem body_ends (hself : Descends ts HandedSome self k) (hk : s.rest.length < k) :
    (body self).Ends ts s fun _ => k := by
  refine .current fun _ => .bind (.inScope (Q := HandedSome) (hself.does () _))
    (.inScope (hself.call () hk)) fun item s' _ _ hk' => ?_
  cases item with
  | some item => exact .pure hk'
  | none => exact .hand (.still rfl) hk'

theorem booleanExpression_ends (hk : s.rest.length ≤ k) :
    booleanExpression.Ends ts s fun _ => k := by
  refine .current fun htoken => ?_
  refine .bind (Expression.parse_does _ s) (Expression.parse_ends _ hk)
    fun condition s' _ hcondition hk' => ?_
  exact .shapeAt hcondition (.check htoken rfl fun _ => .pure hk')

theorem condition_ends (hk : s.rest.length ≤ k) : condition.Ends ts s fun _ => k := by
  refine .expect fun _ hlt => ?_
  have hk₁ : s.next.rest.length ≤ k := by omega
  refine .bind (booleanExpression_does _) (booleanExpression_ends hk₁) fun node s' _ _ hk' => ?_
  exact .expect fun _ hlt' => .pure (Nat.lt_trans hlt' hk')

theorem ifStatement_ends (hself : Descends ts HandedSome self k) (hk : s.rest.length ≤ k) :
    (ifStatement self).Ends ts s fun _ => k := by
  refine .expectKeyword fun _ hlt => ?_
  have hk₁ : s.next.rest.length ≤ k := by omega
  refine .bind (condition_does _) (condition_ends hk₁) fun test s₁ _ _ hk₁ => ?_
  refine .bind (body_does hself.does) (body_ends hself hk₁) fun yes s₂ _ _ hk₂ => ?_
  refine .current fun _ => .ite (fun helse => ?_) fun _ => .hand (.still rfl) hk₂
  have hlexeme : s₂.front.lexeme = .keyword .else := by simpa using helse
  refine .advance (by simp [hlexeme]) fun _ hlt' => ?_
  exact .bind (body_does hself.does) (body_ends hself (Nat.lt_trans hlt' hk₂))
    fun no s₃ _ _ hk₃ => .hand (.still rfl) hk₃

theorem forInitializer_ends (hk : s.rest.length ≤ k) : forInitializer.Ends ts s fun _ => k := by
  refine .accept (fun _ hlt => .pure (by omega)) (Declaration.starts_ends fun starts => ?_)
  refine .ite (fun _ => ?_) fun _ => ?_
  · refine .bind (Declaration.qualifiers_does s)
      (Declaration.qualifiers_ends (Nat.lt_succ_of_le hk)) fun q s₁ _ _ hk₁ => ?_
    refine .bind (Declaration.specifier_does s₁)
      (Declaration.specifier_ends (Nat.le_of_lt_succ hk₁)) fun shape s₂ _ hshape hk₂ => ?_
    exact Declaration.declarators_ends q hshape false (Nat.le_of_lt hk₂)
  · refine .bind (Expression.parse_does _ s) (Expression.parse_ends _ hk) fun node s₁ _ _ hk₁ => ?_
    exact .expect fun _ hlt => .pure (Nat.lt_trans hlt hk₁)

theorem addLoop_ends (parts : LoopParts) (line : Nat) (hk : s.rest.length < k) :
    (addLoop parts line).Ends ts s fun _ => k := .hand (.still rfl) hk

theorem forStatement_ends (hself : Descends ts HandedSome self k) (hk : s.rest.length ≤ k) :
    (forStatement self).Ends ts s fun _ => k := by
  refine .expectKeyword fun _ hlt₁ => .expect fun _ hlt₂ => .inScope ?_
  have hk₀ : s.next.next.opened.rest.length ≤ k := by
    change s.next.next.rest.length ≤ k
    omega
  refine .bind (forInitializer_does _) (forInitializer_ends hk₀) fun initial s₁ _ _ hk₁ => ?_
  have htest := booleanExpression_does s₁
  refine .isAt fun noTest _ => .choose (D := fun test s => ∀ id ∈ test, ConditionHanded id s)
    (.pure fun _ h => nomatch h) (.map (htest.mono fun _ _ _ h id hid => ?_)) (.pure hk₁)
    (.map htest (booleanExpression_ends (Nat.le_of_lt hk₁))) fun test s₂ _ _ hk₂ => ?_
  · obtain rfl := Option.mem_some.1 hid
    exact h
  refine .expect fun _ hlt₃ => .isAt fun noTerminal _ => ?_
  have hk₃ : s₂.next.rest.length < k := Nat.lt_trans hlt₃ hk₂
  have hterminal := Expression.parse_does .expression s₂.next
  refine .choose (D := HandedSome) (.pure .none) (.map (hterminal.mono fun _ _ _ h => .some h))
    (.pure hk₃) (.map hterminal (Expression.parse_ends _ (Nat.le_of_lt hk₃)))
    fun terminal s₃ _ _ hk₃ => .expect fun _ hlt₄ => ?_
  refine .bind (body_does hself.does) (body_ends hself (Nat.lt_trans hlt₄ hk₃))
    fun inner s₄ _ _ hk₄ hs₄ => ?_
  -- the nodes of the loop are all that is left to make
  cases initial with
  | none => exact ⟨fun hlined => hlined.push (.still rfl), hs₄.more, hk₄⟩
  | some initial =>
    exact ⟨fun hlined => (hlined.push (.still rfl)).push (.still rfl), hs₄.more, hk₄⟩

theorem whileStatement_ends (hself : Descends ts HandedSome self k) (hk : s.rest.length ≤ k) :
    (whileStatement self).Ends ts s fun _ => k := by
  refine .expectKeyword fun _ hlt => ?_
  have hk₁ : s.next.rest.length ≤ k := by omega
  refine .bind (condition_does _) (condition_ends hk₁) fun test s₁ _ _ hk₁ => ?_
  exact .bind (body_does hself.does) (body_ends hself hk₁) fun inner s₂ _ _ hk₂ =>
    addLoop_ends _ _ hk₂

theorem doStatement_ends (hself : Descends ts HandedSome self k) (hk : s.rest.length ≤ k) :
    (doStatement self).Ends ts s fun _ => k := by
  refine .expectKeyword fun _ hlt => ?_
  have hk₁ : s.next.rest.length < k := by omega
  refine .bind (body_does hself.does) (body_ends hself hk₁) fun inner s₁ _ _ hk₁ => ?_
  refine .expectKeyword fun _ hlt₁ => ?_
  have hk₂ : s₁.next.rest.length ≤ k := by omega
  refine .bind (condition_does _) (condition_ends hk₂) fun test s₂ _ _ hk₂ => ?_
  exact .expect fun _ hlt₂ => addLoop_ends _ _ (Nat.lt_trans hlt₂ hk₂)

theorem returnStatement_ends (hend : s.front.lexeme ≠ .endOfInput) (hk : s.rest.length ≤ k) :
    returnStatement.Ends ts s fun _ => k := by
  refine .advance hend fun _ hlt => .isAt fun empty _ => .ite (fun _ => ?_) fun _ => ?_
  · exact .pure_bind (.expect fun _ hlt' => .hand (.still rfl) (by omega))
  · have hk₁ : s.next.rest.length ≤ k := by omega
    refine .bind (Expression.parse_does _ _) (Expression.parse_ends _ hk₁)
      fun value s' _ _ hk' => .pure_bind ?_
    exact .expect fun _ hlt' => .hand (.still rfl) (Nat.lt_trans hlt' hk')

theorem branch_ends (op : Operator) (hend : s.front.lexeme ≠ .endOfInput)
    (hk : s.rest.length ≤ k) : (branch op).Ends ts s fun _ => k :=
  .advance hend fun _ hlt => .expect fun _ hlt' => .hand (.still rfl) (by omega)

theorem localDeclaration_ends (hk : s.rest.length ≤ k) : localDeclaration.Ends ts s fun _ => k := by
  refine .bind (Declaration.qualifiers_does s) (Declaration.qualifiers_ends (Nat.lt_succ_of_le hk))
    fun q s₁ _ _ hk₁ => ?_
  refine .bind (Declaration.specifier_does s₁) (Declaration.specifier_ends (Nat.le_of_lt_succ hk₁))
    fun shape s₂ _ hshape hk₂ => ?_
  refine .accept (fun _ hlt => .pure (Nat.lt_trans hlt hk₂)) ?_
  exact Declaration.declarators_ends q hshape false (Nat.le_of_lt hk₂)

theorem rule_ends (hself : Descends ts HandedSome self k) (u : Unit) (hk : s.rest.length ≤ k) :
    (rule self u).Ends ts s fun _ => k := by
  have hbranch : ∀ {op : Operator}, op ∈ [.return, .break, .continue, .discard] →
      s.front.lexeme ≠ .endOfInput → (some <$> branch op).Ends ts s fun _ => k := fun hop hend =>
    .map (branch_does hop s) (branch_ends _ hend hk)
  refine .current fun _ => ?_
  split
  · exact .map (scopedBlock_does hself.does) (scopedBlock_ends hself hk)
  · next hlexeme => exact .advance (by simp [hlexeme]) fun _ hlt => .pure (by omega)
  · exact .map (ifStatement_does hself.does) (ifStatement_ends hself hk)
  · exact .map (forStatement_does hself.does) (forStatement_ends hself hk)
  · exact .map (whileStatement_does hself.does) (whileStatement_ends hself hk)
  · exact .map (doStatement_does hself.does) (doStatement_ends hself hk)
  · next hlexeme =>
    exact .map (returnStatement_does s) (returnStatement_ends (by simp [hlexeme]) hk)
  · next hlexeme => exact hbranch (by simp) (by simp [hlexeme])
  · next hlexeme => exact hbranch (by simp) (by simp [hlexeme])
  · next hlexeme => exact hbranch (by simp) (by simp [hlexeme])
  · next hlexeme =>
    refine .advance (by simp [hlexeme]) fun htoken hlt => ?_
    have hk₁ : s.next.rest.length < k := by omega
    exact .bind (Directive.parse_does _ _ _) (Directive.parse_ends htoken.mem _ hk₁)
      fun _ s' _ _ hk' => .pure hk'
  · refine Declaration.starts_ends fun starts => .ite (fun _ => ?_) fun _ => ?_
    · exact localDeclaration_ends hk
    · refine .bind (Expression.parse_does _ s) (Expression.parse_ends _ hk)
        fun node s₁ _ _ hk₁ => ?_
      exact .expect fun _ hlt => .pure (Nat.lt_trans hlt hk₁)

theorem parse_ends (hk : s.rest.length ≤ k) : parse.Ends ts s fun _ => k :=
  .knot (fun _ hself => rule_does hself)
    (fun _ s hself u => rule_ends hself u (Nat.le_refl s.rest.length)) () hk

theorem parse_descends (ts : List Token) (n : Nat) :
    Descends ts HandedSome (fun _ : Unit => parse) n :=
  ⟨fun _ => parse_does, fun _ s _ => parse_ends (Nat.le_refl s.rest.length)⟩

theorem functionBody_ends (hk : s.rest.length ≤ k) : functionBody.Ends ts s fun _ => k :=
  block_ends (parse_descends ts k) hk

end Statement

namespace Shader

open Declaration (HandedSome)

/-! ## Functions -/

theorem paramStep_ends (params : List Param) :
    (paramStep params).Ends ts s (Ends.turnBound s.rest.length) := by
  refine .isAt fun closing _ => .ite (fun _ => .pure (Nat.lt_succ_self _)) fun _ => ?_
  refine .optional (.expects _ s) (fun _ => .expects _ (Nat.le_succ _)) (Nat.lt_succ_self _)
    fun s₁ _ hk₁ => ?_
  refine .bind (Declaration.qualifiers_does s₁) (Declaration.qualifiers_ends hk₁)
    fun _ s₂ _ _ hk₂ => ?_
  refine .bind (Declaration.specifier_does s₂) (Declaration.specifier_ends (Nat.le_of_lt_succ hk₂))
    fun shape s₃ _ hshape hk₃ => ?_
  refine .ite (fun _ => .fail_bind rfl) fun _ => .current fun _ => ?_
  split
  · next hlexeme =>
    refine .advance (by simp [hlexeme]) fun _ hlt => .pure_bind ?_
    have hk₄ : s₃.next.rest.length < s.rest.length := Nat.lt_trans hlt hk₃
    exact .bind (Declaration.arraySuffix_does hshape.next) (Declaration.arraySuffix_ends shape hk₄)
      fun _ s₄ _ _ hk₄ => .pure hk₄
  · refine .pure_bind ?_
    exact .bind (Declaration.arraySuffix_does hshape) (Declaration.arraySuffix_ends shape hk₃)
      fun _ s₄ _ _ hk₄ => .pure hk₄

theorem params_ends (hk : s.rest.length ≤ k) : params.Ends ts s fun _ => k := by
  refine .expect fun _ hlt => .current fun _ => .following ?_
  have hk₁ : s.next.rest.length < k := by omega
  refine .optional (.advances _) (fun hvoid => ?_) hk₁ fun s₁ _ hk₁ => ?_
  · rw [Bool.and_eq_true, beq_iff_eq] at hvoid
    exact .advances (by simp [hvoid.1]) (Nat.le_of_lt hk₁)
  · have hnil : ParamsTyped [] s₁ := fun _ h => (List.not_mem_nil h).elim
    refine .bind (.loop ParamsTyped (fun params s h => paramStep_does h) hnil)
      (.loop ParamsTyped (fun params s h => paramStep_does h)
        (fun params s' _ _ => paramStep_ends params) hnil hk₁) fun params s₂ _ _ hk₂ => ?_
    exact .expect fun _ hlt₂ => .pure (Nat.lt_trans hlt₂ hk₂)

theorem declareFunction_ends {token : Token} (htoken : Consumed ts token) {name : String}
    (hname : token.lexeme = .name name) (result : Shape) (shapes : List Shape)
    (hk : s.rest.length < k) : (declareFunction token name result shapes).Ends ts s fun _ => k := by
  refine .get ?_
  split
  · exact .check htoken.mem rfl fun _ => .pure hk
  · intro hs
    exact ⟨fun hsourced => hsourced.addFunction ⟨⟨token, htoken, hname⟩, rfl⟩, hs.more, hk⟩

theorem declareParam_ends {param : Param} (hparam : s.IsType param.shape)
    (hk : s.rest.length < k) : (declareParam param).Ends ts s fun _ => k := by
  unfold declareParam
  split
  · exact .pure hk
  · refine .modify (.declare hparam fun _ h => nomatch h) rfl id ?_
    exact .handAs (.still rfl) fun _ => hk

theorem declareParams_ends {s : ParserState} {params : List Param} (hparams : ParamsTyped params s)
    (hk : s.rest.length < k) : (params.mapM declareParam).Ends ts s fun _ => k := by
  induction params generalizing s with
  | nil => exact .pure hk
  | cons param params ih =>
    rw [List.mapM_cons]
    have hparam := hparams param List.mem_cons_self
    refine .bind (declareParam_does hparam) (declareParam_ends hparam hk) fun _ s₁ hs₁ _ hk₁ => ?_
    have hrest : ParamsTyped params s₁ := fun p hp =>
      hs₁.grows.isType (hparams p (List.mem_cons_of_mem param hp))
    exact .bind (declareParams_does hrest) (ih hrest hk₁) fun _ s₂ _ _ hk₂ => .pure hk₂

theorem function_ends {result : Shape} (hresult : s.IsType result) (hk : s.rest.length ≤ k) :
    (function result).Ends ts s fun _ => k := by
  refine .expectName fun name hname htoken hlt => .check htoken.mem rfl fun _ => .get ?_
  refine .check htoken.mem rfl fun _ => ?_
  have hk₁ : s.next.rest.length ≤ k := by omega
  refine .bind (params_does _) (params_ends hk₁) fun params s₁ hs₁ hparams hk₁ => ?_
  have hresult₁ : s₁.IsType result := hs₁.grows.isType hresult.next
  have hshapes : ∀ shape ∈ params.map (·.shape), s₁.IsType shape := by
    intro shape hshape
    obtain ⟨param, hparam, rfl⟩ := List.mem_map.1 hshape
    exact hparams param hparam
  refine .bind (declareFunction_does _ _ hresult₁ hshapes)
    (declareFunction_ends htoken hname result _ hk₁) fun decl s₂ hs₂ _ hk₂ => ?_
  refine .accept (fun _ hlt₂ => .pure (Nat.lt_trans hlt₂ hk₂)) ?_
  refine .ite (fun h => nomatch h) fun _ => .check htoken.mem rfl fun _ => ?_
  refine .modify (.defined decl.name decl.signature) rfl (·.withBody _ _) (.inScope ?_)
  have hgrows : Grows s₂ (s₂.withBody decl.name decl.signature).opened :=
    (Step.defined decl.name decl.signature).grows.trans Step.opens.grows
  have hparams₂ := hparams.grows (hs₂.grows.trans hgrows)
  refine .bind (declareParams_does hparams₂) (declareParams_ends hparams₂ hk₂)
    fun symbols s₃ _ hsymbols hk₃ => ?_
  refine .bind (.hand (.sequence (by simp)) hsymbols) (.hand (.still rfl) hk₃)
    fun list s₄ _ _ hk₄ => ?_
  refine .bind (Statement.functionBody_does s₄) (Statement.functionBody_ends (Nat.le_of_lt hk₄))
    fun body s₅ _ _ hk₅ => ?_
  exact .handAs (.still rfl) fun _ => hk₅

/-! ## The top level -/

theorem externalDeclaration_ends (hk : s.rest.length ≤ k) :
    externalDeclaration.Ends ts s fun _ => k := by
  refine .bind (Declaration.qualifiers_does s) (Declaration.qualifiers_ends (Nat.lt_succ_of_le hk))
    fun q s₁ _ _ hk₁ => .current fun _ => .following ?_
  extract_lets rest
  have hrest : (rest ()).Ends ts s₁ fun _ => k := by
    refine .bind (Declaration.specifier_does s₁)
      (Declaration.specifier_ends (Nat.le_of_lt_succ hk₁)) fun shape s₂ _ hshape hk₂ => ?_
    refine .accept (fun _ hlt => .pure (Nat.lt_trans hlt hk₂)) ?_
    refine .current fun _ => .following ?_
    split
    · exact function_ends hshape (Nat.le_of_lt hk₂)
    · exact Declaration.declarators_ends q hshape true (Nat.le_of_lt hk₂)
  split
  · next name hname hsemicolon =>
    refine .get (.ite (fun _ => ?_) fun _ => hrest)
    refine .advance (by simp [hname]) fun _ hlt => .advance (by simp [hsemicolon]) fun _ hlt' => ?_
    exact .pure (by omega)
  · exact hrest

theorem itemStep_ends (items : List NodeId) :
    (itemStep items).Ends ts s (Ends.turnBound s.rest.length) := by
  refine .current fun _ => ?_
  split
  · exact .pure (Nat.lt_succ_self _)
  · next hlexeme =>
    refine .advance (by simp [hlexeme]) fun htoken hlt => ?_
    exact .bind (Directive.parse_does _ _ _) (Directive.parse_ends htoken.mem _ hlt)
      fun _ s' _ _ hk => .pure hk
  · next hlexeme => exact .advance (by simp [hlexeme]) fun _ hlt => .pure hlt
  · next hlexeme =>
    refine .advance (by simp [hlexeme]) fun _ hlt => ?_
    refine .bind (Declaration.precision_does _) (Declaration.precision_ends hlt)
      fun _ s₁ _ _ hk₁ => ?_
    refine .bind (Declaration.specifier_does s₁) (Declaration.specifier_ends (Nat.le_of_lt hk₁))
      fun _ s₂ _ _ hk₂ => ?_
    exact .expect fun _ hlt₂ => .pure (Nat.lt_trans hlt₂ hk₂)
  · refine .bind (externalDeclaration_does s) (externalDeclaration_ends (Nat.le_refl _))
      fun item s' _ _ hk => ?_
    cases item with
    | some item => exact .pure hk
    | none => exact .pure hk

theorem shader_ends (hglobals : ∀ id ∈ s.globals, s.Has id) (hk : s.rest.length < k) :
    shader.Ends ts s fun _ => k := by
  refine .bind (.loop _ (fun items s h => itemStep_does h) has_nil)
    (.loop _ (fun items s h => itemStep_does h) (fun items s' _ _ => itemStep_ends items)
      has_nil hk) fun items s₁ hs₁ _ hk₁ => .get ?_
  refine .bind (.hand (.sequence (by simp)) (hs₁.globals hglobals)) (.hand (.still rfl) hk₁)
    fun globals s₂ _ _ hk₂ => ?_
  exact .hand (.still rfl) hk₂

end Shader

end ShaderCost
