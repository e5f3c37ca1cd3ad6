import ShaderCost.Grammar.Shader
import ShaderCost.Proofs.Grammar.Expression

/-! # Ownership in shaders

Declarations, statements and the parts of functions, in the order of the grammar. Types make literals
only to drop them, and directives make nothing. A statement leaves one node or none.
-/

namespace ShaderCost

open ShaderCost.Parser

variable {held : List NodeId}

namespace Directive

theorem define_keeps (token : Token) (words : List Bytes) : (define token words).Keeps := by
  intro held
  cases words with
  | nil => exact .failAt _ _
  | cons name body =>
    unfold define
    refine .check ?_
    simp only
    split
    · exact .failAt _ _
    · split
      · exact .failAt _ _
      · exact .failAt _ _
      · exact .quiet (fun _ => rfl) (fun _ => rfl) fun _ => rfl

theorem parse_keeps (token : Token) (text : Bytes) : (parse token text).Keeps := by
  intro held
  unfold parse
  split
  · exact Keeps.pure _ held
  · refine .ite (Keeps.pure _ held) (.ite (define_keeps _ _ held) ?_)
    exact .ite (.failAt _ _) (.failAt _ _)

end Directive

namespace Declaration

/-! ## Qualifiers -/

theorem parenthesesStep_keeps (depth : Nat) : (parenthesesStep depth).Keeps := by
  intro held
  refine advance_keeps.bind fun token => ?_
  split
  · exact Keeps.pure _ held
  · exact .ite (Keeps.pure _ held) (Keeps.pure _ held)
  · exact .fail _
  · exact Keeps.pure _ held

theorem skipParentheses_keeps : skipParentheses.Keeps := fun held =>
  (expect_keeps _).bind fun _ => Keeps.loop parenthesesStep_keeps 1 held

theorem qualifierStep_keeps (q : Qualifiers) : (qualifierStep q).Keeps := by
  intro held
  refine current_keeps.bind fun token => ?_
  split
  · exact advance_keeps.bind fun _ => Keeps.pure _ held
  · exact advance_keeps.bind fun _ => Keeps.pure _ held
  · exact advance_keeps.bind fun _ => Keeps.pure _ held
  · refine advance_keeps.bind fun _ => ?_
    exact skipParentheses_keeps.bind fun _ => Keeps.pure _ held
  · exact .ite (advance_keeps.bind fun _ => Keeps.pure _ held) (Keeps.pure _ held)
  · exact Keeps.pure _ held

theorem qualifiers_keeps : qualifiers.Keeps := Keeps.loop qualifierStep_keeps {}

theorem precision_keeps : precision.Keeps := by
  intro held
  refine current_keeps.bind fun token => ?_
  split
  · exact advance_keeps.bind fun _ => Keeps.pure _ held
  · exact advance_keeps.bind fun _ => Keeps.pure _ held
  · exact advance_keeps.bind fun _ => Keeps.pure _ held
  · exact .fail _

/-! ## Types -/

/-- The expression for the length is dropped. -/
theorem arraySuffix_keeps (shape : Shape) : (arraySuffix shape).Keeps := by
  intro held
  refine (accept_keeps _).bind fun bracket => .ite (Keeps.pure _ held) ?_
  refine .ite .fail_bind ?_
  refine current_keeps.bind fun token => ?_
  refine Expression.parseConditional_yields.bind fun id => .nodeAt fun size => ?_
  cases hvalue : size.constant? with
  | none => exact Or.inl (.failAt _ _)
  | some value =>
    refine Or.inr ⟨rfl, ?_⟩
    split
    · exact .failAt _ _
    · exact .check ((expect_keeps _).bind fun _ => Keeps.pure _ held)

theorem fieldStep_keeps (shape : Shape) (fields : List Field) : (fieldStep shape fields).Keeps := by
  intro held
  refine expectName_keeps.bind fun name => ?_
  refine (arraySuffix_keeps _).bind fun fieldShape => .check ?_
  refine (accept_keeps _).bind fun comma => ?_
  exact .ite (Keeps.pure _ held) (Keeps.pure _ held)

theorem memberStep_keeps {specifier : Parser Shape} (h : specifier.Keeps) (fields : List Field) :
    (memberStep specifier fields).Keeps := by
  intro held
  refine (accept_keeps _).bind fun brace => .ite (Keeps.pure _ held) ?_
  refine qualifiers_keeps.bind fun _ => ?_
  refine h.bind fun shape => ?_
  refine (Keeps.loop (fieldStep_keeps shape) fields).bind fun fields => ?_
  exact (expect_keeps _).bind fun _ => Keeps.pure _ held

theorem structSpecifier_keeps {specifier : Parser Shape} (h : specifier.Keeps) :
    (structSpecifier specifier).Keeps := by
  intro held
  refine (expectKeyword_keeps _).bind fun _ => ?_
  refine expectName_keeps.bind fun name => ?_
  refine Keeps.get.bind fun s => .check ?_
  refine (expect_keeps _).bind fun _ => ?_
  refine (Keeps.loop (memberStep_keeps h) []).bind fun fields => ?_
  exact Builds.bind (.quiet (fun _ => rfl) (fun _ => rfl) fun _ => rfl) fun _ => Keeps.pure _ held

theorem specifierRule_keeps {self : Unit → Parser Shape} (h : ∀ rule, (self rule).Keeps)
    (rule : Unit) : (specifierRule self rule).Keeps := by
  intro held
  refine current_keeps.bind fun token => ?_
  split
  · exact structSpecifier_keeps (h ()) held
  · refine advance_keeps.bind fun _ => ?_
    refine Keeps.get.bind fun s => ?_
    split
    · exact Keeps.pure _ held
    · exact .failAt _ _
  · exact .fail _

theorem specifier_keeps : specifier.Keeps :=
  Builds.knot (fun _ h rule => specifierRule_keeps h rule) ()

theorem starts_keeps : starts.Keeps := by
  intro held
  refine current_keeps.bind fun token => ?_
  split
  · exact Keeps.pure _ held
  · refine following_keeps.bind fun next => ?_
    split
    · exact Keeps.get.bind fun s => Keeps.pure _ held
    · exact Keeps.pure _ held
  · exact Keeps.pure _ held

/-! ## Declarators -/

theorem initializer_builds (q : Qualifiers) (shape : Shape) (token : Token) (name : String) :
    (initializer q shape token name).Builds held fun result => result.2.toList ++ held := by
  unfold initializer
  refine .check ?_
  refine (Expression.parse_yields _).bind fun initial => ?_
  refine .nodeAt fun n => ?_
  cases hfolded : foldedValue? q shape n with
  | some value =>
    refine Or.inr ⟨?_, .check (.pure (List.Perm.refl _))⟩
    unfold foldedValue? at hfolded
    split at hfolded
    · cases hfolded
    · next hvalue => rw [hvalue, Option.isSome_some]
  | none =>
    refine Or.inl (.check (Builds.bind (.addNode nofun (List.Perm.refl _)) fun target => ?_))
    refine .perm (List.Perm.swap target initial held) ?_
    exact addBinary_builds.bind fun assign => .pure (List.Perm.refl _)

theorem declaratorStep_builds (q : Qualifiers) (shape : Shape) (isGlobal : Bool)
    (assigns : List NodeId) : (declaratorStep q shape isGlobal assigns).Builds (assigns ++ held)
      (heldAfter (· ++ held) (· ++ held)) := by
  refine expectName_keeps.bind fun name => ?_
  refine Keeps.get.bind fun s => .check ?_
  refine (arraySuffix_keeps _).bind fun shape => ?_
  refine (accept_keeps _).bind fun equals => ?_
  -- with or without an initialiser the rest is the same
  refine .ite (Builds.bind (initializer_builds _ _ _ _) ?rest)
    (.ite .failAt_bind (Builds.bind (.pure (List.Perm.refl _)) ?rest))
  rintro ⟨value, assign⟩
  refine (declare_keeps _).bind fun _ => ?_
  extract_lets assigns' next
  have hnext : (next ()).Builds (assign.toList ++ (assigns ++ held))
      (heldAfter (· ++ held) (· ++ held)) := by
    have hperm : (assigns ++ assign.toList ++ held).Perm
        (assign.toList ++ (assigns ++ held)) := by
      rw [← List.append_assoc]
      exact List.perm_append_comm.append_right held
    exact (accept_keeps _).bind fun comma => .ite (.pure hperm) (.pure hperm)
  exact .ite (.global rfl rfl hnext) hnext

theorem declarators_yieldsSome (q : Qualifiers) (shape : Shape) (isGlobal : Bool) :
    (declarators q shape isGlobal).YieldsSome := by
  intro held
  unfold declarators
  refine .ite .fail_bind ?_
  refine Builds.bind (.loop (· ++ held) (· ++ held) (declaratorStep_builds q shape isGlobal))
    fun assigns => ?_
  refine (expect_keeps _).bind fun _ => ?_
  split
  · exact .pure (List.Perm.refl _)
  · exact .pure (List.Perm.refl _)
  · refine (nodeAt_keeps _).bind fun n => ?_
    exact Builds.bind (.addNode nofun (List.Perm.refl _)) fun node => .pure (List.Perm.refl _)

end Declaration

namespace Statement

variable {self : Unit → Parser (Option NodeId)}

theorem blockStep_builds (hself : ∀ rule, (self rule).YieldsSome) (items : List NodeId) :
    (blockStep self items).Builds (items ++ held) (heldAfter (· ++ held) (· ++ held)) := by
  refine current_keeps.bind fun token => ?_
  split
  · exact .pure ((List.reverse_perm items).append_right held)
  · exact .fail _
  · refine (hself () (items ++ held)).bind fun item => ?_
    cases item with
    | some item => exact .pure (List.Perm.refl _)
    | none => exact .pure (List.Perm.refl _)

theorem block_yields (hself : ∀ rule, (self rule).YieldsSome) : (block self).Yields := by
  intro held
  refine (expect_keeps _).bind fun opening => ?_
  refine Builds.bind (.loop (· ++ held) (· ++ held) (blockStep_builds hself)) fun items => ?_
  exact (expect_keeps _).bind fun _ => addSequence_builds

theorem scopedBlock_yields (hself : ∀ rule, (self rule).YieldsSome) :
    (scopedBlock self).Yields := by
  intro held
  refine (expect_keeps _).bind fun opening => .inScope ?_
  refine Builds.bind (.loop (· ++ held) (· ++ held) (blockStep_builds hself)) fun items => ?_
  exact (expect_keeps _).bind fun _ => addSequence_builds

theorem body_yields (hself : ∀ rule, (self rule).YieldsSome) : (body self).Yields := by
  intro held
  refine current_keeps.bind fun token => ?_
  refine Builds.bind (.inScope (hself () held)) fun item => ?_
  cases item with
  | some item => exact .pure (List.Perm.refl _)
  | none => exact addSequence_builds

theorem booleanExpression_yields : booleanExpression.Yields := by
  intro held
  refine current_keeps.bind fun token => ?_
  refine (Expression.parse_yields _).bind fun condition => ?_
  exact (shapeAt_keeps _).bind fun shape => .check (.pure (List.Perm.refl _))

theorem condition_yields : condition.Yields := by
  intro held
  refine (expect_keeps _).bind fun _ => ?_
  refine booleanExpression_yields.bind fun node => ?_
  exact (expect_keeps _).bind fun _ => .pure (List.Perm.refl _)

theorem ifStatement_yields (hself : ∀ rule, (self rule).YieldsSome) :
    (ifStatement self).Yields := by
  intro held
  refine (expectKeyword_keeps _).bind fun token => ?_
  refine condition_yields.bind fun test => ?_
  refine (body_yields hself).bind fun yes => ?_
  refine current_keeps.bind fun next => .ite ?_ ?_
  · refine advance_keeps.bind fun _ => ?_
    refine (body_yields hself).bind fun no => ?_
    rw [pure_bind]
    exact .addNode nofun ((List.reverse_perm [test, yes, no]).append_right held)
  · rw [pure_bind]
    exact .addNode nofun (List.Perm.swap test yes held)

theorem forInitializer_yieldsSome : forInitializer.YieldsSome := by
  intro held
  refine (accept_keeps _).bind fun semicolon => .ite (.pure (List.Perm.refl _)) ?_
  refine Declaration.starts_keeps.bind fun isDeclaration => .ite ?_ ?_
  · refine Declaration.qualifiers_keeps.bind fun q => ?_
    refine Declaration.specifier_keeps.bind fun shape => ?_
    exact Declaration.declarators_yieldsSome _ _ _ held
  · refine (Expression.parse_yields _).bind fun node => ?_
    exact (expect_keeps _).bind fun _ => .pure (List.Perm.refl _)

theorem addLoop_builds {parts : LoopParts} {line : Nat} {rest : List NodeId}
    (h : held.Perm (parts.children ++ rest)) :
    (addLoop parts line).Builds held fun id => id :: rest :=
  .addNode nofun h

/-- The parts of a `for` loop in the order they are read, the latest first. -/
theorem perm_children (test : Option NodeId) (inner : NodeId) (terminal : Option NodeId)
    (rest : List NodeId) : (inner :: (terminal.toList ++ (test.toList ++ rest))).Perm
      ((LoopParts.mk test (some inner) terminal false).children ++ rest) := by
  have hparts : (LoopParts.mk test (some inner) terminal false).children =
      test.toList ++ inner :: terminal.toList := by
    cases test <;> cases terminal <;> rfl
  have hperm : (inner :: terminal.toList ++ test.toList).Perm
      (test.toList ++ inner :: terminal.toList) := List.perm_append_comm
  rw [hparts]
  simpa only [List.append_assoc, List.cons_append] using hperm.append_right rest

theorem forStatement_yields (hself : ∀ rule, (self rule).YieldsSome) :
    (forStatement self).Yields := by
  intro held
  refine (expectKeyword_keeps _).bind fun token => ?_
  refine (expect_keeps _).bind fun _ => .inScope ?_
  refine (forInitializer_yieldsSome held).bind fun initial => ?_
  refine (isAt_keeps _).bind fun untested => ?_
  refine .choose (YieldsSome.none _) (booleanExpression_yields.some _) fun test => ?_
  refine (expect_keeps _).bind fun _ => ?_
  refine (isAt_keeps _).bind fun endless => ?_
  refine .choose (YieldsSome.none _) ((Expression.parse_yields _).some _) fun terminal => ?_
  refine (expect_keeps _).bind fun _ => ?_
  refine (body_yields hself).bind fun inner => ?_
  refine (addLoop_builds (perm_children test inner terminal _)).bind fun node => ?_
  cases initial with
  | none => exact .pure (List.Perm.refl _)
  | some initial => exact .addNode nofun (List.Perm.swap initial node held)

theorem whileStatement_yields (hself : ∀ rule, (self rule).YieldsSome) :
    (whileStatement self).Yields := by
  intro held
  refine (expectKeyword_keeps _).bind fun token => ?_
  refine condition_yields.bind fun test => ?_
  refine (body_yields hself).bind fun inner => ?_
  exact addLoop_builds (List.Perm.swap test inner held)

theorem doStatement_yields (hself : ∀ rule, (self rule).YieldsSome) :
    (doStatement self).Yields := by
  intro held
  refine (expectKeyword_keeps _).bind fun token => ?_
  refine (body_yields hself).bind fun inner => ?_
  refine (expectKeyword_keeps _).bind fun _ => ?_
  refine condition_yields.bind fun test => ?_
  refine (expect_keeps _).bind fun _ => ?_
  exact addLoop_builds (List.Perm.swap inner test held)

theorem returnStatement_yields : returnStatement.Yields := by
  intro held
  refine advance_keeps.bind fun token => ?_
  refine (isAt_keeps _).bind fun bare => .ite ?_ ?_
  · rw [pure_bind]
    exact (expect_keeps _).bind fun _ => .addNode nofun (List.Perm.refl _)
  · refine (Expression.parse_yields _).bind fun value => ?_
    rw [pure_bind]
    exact (expect_keeps _).bind fun _ => .addNode nofun (List.Perm.refl _)

theorem branch_yields (op : Operator) : (branch op).Yields := by
  intro held
  refine advance_keeps.bind fun token => ?_
  exact (expect_keeps _).bind fun _ => .addNode nofun (List.Perm.refl _)

theorem localDeclaration_yieldsSome : localDeclaration.YieldsSome := by
  intro held
  refine Declaration.qualifiers_keeps.bind fun q => ?_
  refine Declaration.specifier_keeps.bind fun shape => ?_
  refine (accept_keeps _).bind fun semicolon => .ite (YieldsSome.none held) ?_
  exact Declaration.declarators_yieldsSome _ _ _ held

theorem rule_yieldsSome (hself : ∀ rule, (self rule).YieldsSome) (u : Unit) :
    (rule self u).YieldsSome := by
  intro held
  refine current_keeps.bind fun token => ?_
  split
  · exact (scopedBlock_yields hself).some held
  · exact advance_keeps.bind fun _ => YieldsSome.none held
  · exact (ifStatement_yields hself).some held
  · exact (forStatement_yields hself).some held
  · exact (whileStatement_yields hself).some held
  · exact (doStatement_yields hself).some held
  · exact returnStatement_yields.some held
  · exact (branch_yields _).some held
  · exact (branch_yields _).some held
  · exact (branch_yields _).some held
  · refine advance_keeps.bind fun token => ?_
    exact (Directive.parse_keeps _ _).bind fun _ => YieldsSome.none held
  · refine Declaration.starts_keeps.bind fun isDeclaration => .ite ?_ ?_
    · exact localDeclaration_yieldsSome held
    · refine (Expression.parse_yields _).bind fun node => ?_
      exact (expect_keeps _).bind fun _ => .pure (List.Perm.refl _)

theorem parse_yieldsSome : parse.YieldsSome :=
  Builds.knot (fun _ hself u => rule_yieldsSome hself u) ()

theorem functionBody_yields : functionBody.Yields := block_yields fun _ => parse_yieldsSome

end Statement

namespace Shader

/-! ## Functions -/

theorem paramStep_keeps (params : List Param) : (paramStep params).Keeps := by
  intro held
  refine (isAt_keeps _).bind fun closing => .ite (Keeps.pure _ held) ?_
  refine .optional (expect_keeps _) ?_
  refine Declaration.qualifiers_keeps.bind fun _ => ?_
  refine Declaration.specifier_keeps.bind fun shape => .ite .fail_bind ?_
  refine current_keeps.bind fun token => ?_
  simp only
  split
  · refine advance_keeps.bind fun _ => ?_
    rw [pure_bind]
    exact (Declaration.arraySuffix_keeps _).bind fun shape => Keeps.pure _ held
  · rw [pure_bind]
    exact (Declaration.arraySuffix_keeps _).bind fun shape => Keeps.pure _ held

theorem params_keeps : params.Keeps := by
  intro held
  refine (expect_keeps _).bind fun _ => ?_
  refine current_keeps.bind fun token => ?_
  refine following_keeps.bind fun next => .optional advance_keeps ?_
  refine (Keeps.loop paramStep_keeps []).bind fun params => ?_
  exact (expect_keeps _).bind fun _ => Keeps.pure _ held

theorem declareParam_yieldsSome (param : Param) : (declareParam param).YieldsSome := by
  intro held
  unfold declareParam
  split
  · exact YieldsSome.none held
  · refine (declare_keeps _).bind fun _ => ?_
    exact Builds.bind (.addNode nofun (List.Perm.refl _)) fun id => .pure (List.Perm.refl _)

end Shader

end ShaderCost
