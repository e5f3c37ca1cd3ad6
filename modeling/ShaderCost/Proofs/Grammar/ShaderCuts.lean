import ShaderCost.Proofs.Grammar.ExpressionCuts
import ShaderCost.Proofs.Grammar.Items

/-! # Shaders that are cut off

Reading directives, declarations and statements goes the same way up to a cut. At the top level the
end of the input is where a shader may end, so that the run on the readable tokens can succeed where
the other has met a token that it cannot read (`Shader.shader_reported`).
-/

namespace ShaderCost

open ShaderCost.Parser

variable {c : Cut} {s s' : ParserState} {token : Token}

/-! ## Directives -/

namespace Directive

theorem define_mirrors (htoken : token ∈ c.readable) (words : List Bytes) :
    (define token words).Mirrors c s s' := by
  unfold define
  split
  · exact .failAt htoken
  · refine .check htoken ?_
    split
    · exact .failAt htoken
    · split
      · exact .failAt htoken
      · exact .failAt htoken
      · exact .modify fun _ _ => rfl

theorem parse_mirrors (htoken : token ∈ c.readable) (text : Bytes) :
    (parse token text).Mirrors c s s' := by
  unfold parse
  split
  · exact .pure
  · refine .ite (fun _ => .pure) fun _ => .ite (fun _ => define_mirrors htoken _) fun _ => ?_
    exact .ite (fun _ => .failAt htoken) fun _ => .failAt htoken

end Directive

/-! ## Declarations -/

namespace Declaration

/-- Behind the end of the input there is no token to complain at. -/
theorem parenthesesStep_refused (h : c.AtCut s s') (depth : Nat) :
    c.Refused (parenthesesStep depth s) (parenthesesStep depth s') := by
  have hreadable : ∀ error, s.front.lexeme ≠ .bad error := by
    rw [h.front]
    exact nofun
  refine ⟨⟨.unterminatedParenthesis, 0, 0⟩, Or.inr ⟨rfl, rfl⟩, ?_, ?_⟩
  · unfold parenthesesStep
    rw [run_advance _ hreadable, h.front]
    change (fail .unterminatedParenthesis : Parser _) s.next = _
    rw [run_fail, ParserState.front, ParserState.next, h.rest]
    rfl
  · change (advance s' >>= _) = _
    rw [h.advance_refused]
    rfl

theorem parenthesesStep_mirrors (depth : Nat) : (parenthesesStep depth).Mirrors c s s' := by
  intro h
  rcases h.front_cases with hreads | hcut
  · refine Mirrors.advance hreads ?_ h
    split
    · exact .pure
    · exact .ite (fun _ => .pure) fun _ => .pure
    · exact .fail
    · exact .pure
  · exact (parenthesesStep_refused hcut depth).outcome

theorem skipParentheses_mirrors : skipParentheses.Mirrors c s s' :=
  .expect fun _ => .loop fun depth _ _ => parenthesesStep_mirrors depth

theorem qualifierStep_mirrors (q : Qualifiers) : (qualifierStep q).Mirrors c s s' := by
  refine .current (fun hreads => ?_) fun hcut => .ok hcut.twins
  split
  · exact .advance hreads .pure
  · exact .advance hreads .pure
  · exact .advance hreads .pure
  · exact .advance hreads (skipParentheses_mirrors.bind fun _ _ _ => .pure)
  · exact .ite (fun _ => .advance hreads .pure) fun _ => .pure
  · exact .pure

theorem qualifiers_mirrors : qualifiers.Mirrors c s s' :=
  .loop fun q _ _ => qualifierStep_mirrors q

/-- There are no qualifiers at the cut. -/
theorem qualifiers_atCut (h : c.AtCut s s') :
    qualifiers s = .ok ({}, s) ∧ qualifiers s' = .ok ({}, s') := by
  have hstop : ∀ turns (s : ParserState), s.front = c.stop ∨ s.front = c.bad →
      loopWithin qualifierStep (turns + 1) {} s = .ok ({}, s) := by
    intro turns s hfront
    unfold loopWithin qualifierStep
    rw [bind_assoc, run_current]
    rcases hfront with hfront | hfront
    · rw [hfront]
      rfl
    · rw [hfront]
      rfl
  exact ⟨hstop _ s (Or.inl h.front), hstop _ s' (Or.inr h.front')⟩

theorem qualifiers_needs {α : Type} {f : Qualifiers → Parser α} (hf : ∀ q, Needs c (f q)) :
    Needs c (qualifiers >>= f) where
  mirrors _ _ := qualifiers_mirrors.bind fun q s s' => (hf q).mirrors s s'
  refuses s s' hcut := .after (qualifiers_atCut hcut) ((hf {}).refuses s s' hcut)

theorem precision_mirrors : precision.Mirrors c s s' := by
  refine .current (fun hreads => ?_) fun hcut => (hcut.fail _ _).outcome
  split
  · exact .advance hreads .pure
  · exact .advance hreads .pure
  · exact .advance hreads .pure
  · exact .fail

theorem arraySuffix_mirrors (shape : Shape) : (arraySuffix shape).Mirrors c s s' := by
  refine (Mirrors.accept _).bind fun isArray s s' => .ite (fun _ => .pure) fun _ => ?_
  refine .ite (fun _ => .fail_bind) fun _ => .current (fun hreads => ?_) fun hcut => ?_
  · refine (Expression.parseConditional_needs.mirrors _ _).bind fun size s s' => ?_
    refine Mirrors.nodeAt.bind fun n s s' => ?_
    split
    · exact .failAt hreads.mem
    · exact .check hreads.mem (.expect fun _ => .pure)
  · exact (Expression.parseConditional_needs.refuses _ _ hcut).bind.outcome

theorem fieldStep_mirrors (shape : Shape) (fields : List Field) :
    (fieldStep shape fields).Mirrors c s s' := by
  refine .expectName fun name hname => (arraySuffix_mirrors shape).bind fun fieldShape s s' => ?_
  refine .check hname.mem ((Mirrors.accept _).bind fun more s s' => ?_)
  exact .ite (fun _ => .pure) fun _ => .pure

theorem memberStep_mirrors {specifier : Parser Shape} (hspecifier : Needs c specifier)
    (fields : List Field) : (memberStep specifier fields).Mirrors c s s' := by
  refine (Mirrors.accept _).bind fun closed s s' => .ite (fun _ => .pure) fun _ => ?_
  refine qualifiers_mirrors.bind fun _ s s' => (hspecifier.mirrors s s').bind fun shape s s' => ?_
  refine .bind (.loop fun fields _ _ => fieldStep_mirrors shape fields) fun fields s s' => ?_
  exact .expect fun _ => .pure

theorem structSpecifier_mirrors {specifier : Parser Shape} (hspecifier : Needs c specifier) :
    (structSpecifier specifier).Mirrors c s s' := by
  refine .expectKeyword fun _ => .expectName fun name hname => .get (fun _ => rfl) ?_
  refine .check hname.mem (.expect fun _ => ?_)
  refine .bind (.loop fun fields _ _ => memberStep_mirrors hspecifier fields) fun fields s s' => ?_
  exact .bind (.modify fun _ _ => rfl) fun _ s s' => .pure

theorem specifier_needs : Needs c specifier := by
  refine .knot (fun self hself _ => ⟨fun s s' => ?_, fun s s' hcut => ?_⟩) ()
  · refine .current (fun hreads => ?_) fun hcut => (hcut.fail _ _).outcome
    split
    · exact structSpecifier_mirrors (hself ())
    · refine .advance hreads (.get (fun _ => rfl) ?_)
      split
      · exact .pure
      · exact .failAt hreads.mem
    · exact .fail
  · unfold specifierRule
    rw [run_current, run_current, hcut.front, hcut.front']
    exact hcut.fail _ _

theorem starts_mirrors : starts.Mirrors c s s' := by
  refine .current (fun hreads => ?_) fun hcut => .ok hcut.twins
  split
  · exact .pure
  · refine .following (fun second _ => ?_) fun htwins => .ok htwins
    split
    · exact .get (fun _ => rfl) .pure
    · exact .pure
  · exact .pure

/-- No declaration begins at the cut. -/
theorem starts_atCut (h : c.AtCut s s') :
    starts s = .ok (false, s) ∧ starts s' = .ok (false, s') := by
  unfold starts
  rw [run_current, run_current, h.front, h.front']
  exact ⟨rfl, rfl⟩

theorem initializer_mirrors (q : Qualifiers) (shape : Shape) (htoken : token ∈ c.readable)
    (name : String) : (initializer q shape token name).Mirrors c s s' := by
  unfold initializer
  refine .check htoken (((Expression.parse_needs _).mirrors s s').bind fun initial s s' => ?_)
  refine Mirrors.nodeAt.bind fun n s s' => .check htoken ?_
  split
  · exact .pure
  · exact Mirrors.addNode.bind fun target s s' => Mirrors.addNode.bind fun assign s s' => .pure

theorem declaratorStep_mirrors (q : Qualifiers) (shape : Shape) (isGlobal : Bool)
    (assigns : List NodeId) : (declaratorStep q shape isGlobal assigns).Mirrors c s s' := by
  refine .expectName fun name hname => .get (fun _ => rfl) (.check hname.mem ?_)
  refine (arraySuffix_mirrors shape).bind fun itemShape s s' => ?_
  refine (Mirrors.accept _).bind fun isInitialized s s' => ?_
  extract_lets rest
  -- with or without an initialiser the rest is the same
  have hrest : ∀ x s s', (rest x).Mirrors c s s' := by
    rintro ⟨value, assign⟩ s s'
    refine Mirrors.declare.bind fun _ s s' => ?_
    extract_lets assigns₁ next
    have hnext : ∀ s s', (next ()).Mirrors c s s' := fun s s' =>
      (Mirrors.accept _).bind fun more s s' => .ite (fun _ => .pure) fun _ => .pure
    refine .ite (fun _ => Mirrors.addNode.bind fun global s s' => ?_) fun _ => hnext s s'
    exact .bind (.modify fun _ _ => rfl) fun _ => hnext
  refine .ite (fun _ => (initializer_mirrors q itemShape hname.mem name).bind hrest) fun _ => ?_
  exact .ite (fun _ => .failAt_bind hname.mem) fun _ => .bind .pure hrest

theorem declarators_mirrors (q : Qualifiers) (shape : Shape) (isGlobal : Bool) :
    (declarators q shape isGlobal).Mirrors c s s' := by
  unfold declarators
  refine .ite (fun _ => .fail_bind) fun _ => ?_
  refine .bind (.loop fun assigns _ _ => declaratorStep_mirrors q shape isGlobal assigns)
    fun assigns s s' => .expect fun _ => ?_
  split
  · exact .pure
  · exact .pure
  · refine Mirrors.nodeAt.bind fun n s s' => ?_
    exact Mirrors.addNode.bind fun node s s' => .pure

end Declaration

/-! ## Statements -/

namespace Statement

section

variable {self : Unit → Parser (Option NodeId)} (hself : ∀ rule, Needs c (self rule))

include hself

theorem blockStep_mirrors (items : List NodeId) : (blockStep self items).Mirrors c s s' := by
  refine .current (fun hreads => ?_) fun hcut => ?_
  · split
    · exact .pure
    · exact .fail
    · refine ((hself ()).mirrors s s').bind fun item s s' => ?_
      cases item with
      | some item => exact .pure
      | none => exact .pure
  · -- a block may not end with the input, and what cannot be read begins no statement
    exact (Cut.Refused.across (hcut.fail .unexpectedEnd .unexpectedEnd)
      ((hself ()).refuses s s' hcut)).outcome

theorem block_mirrors : (block self).Mirrors c s s' := by
  refine .expect fun _ => ?_
  refine .bind (.loop fun items _ _ => blockStep_mirrors hself items) fun items s s' => ?_
  exact .expect fun _ => .addNode

theorem scopedBlock_mirrors : (scopedBlock self).Mirrors c s s' := by
  refine .expect fun _ => .inScope fun s s' => ?_
  refine .bind (.loop fun items _ _ => blockStep_mirrors hself items) fun items s s' => ?_
  exact .expect fun _ => .addNode

theorem body_mirrors : (body self).Mirrors c s s' := by
  refine .current (fun _ => ?_) fun hcut => ?_
  · refine .bind (.inScope (hself ()).mirrors) fun item s s' => ?_
    cases item with
    | some item => exact .pure
    | none => exact .addNode
  · refine Mirrors.bind (.inScope (hself ()).mirrors) (fun item s s' => ?_) hcut.twins
    cases item with
    | some item => exact .pure
    | none => exact .addNode

omit hself in
theorem booleanExpression_mirrors : booleanExpression.Mirrors c s s' := by
  refine .current (fun hreads => ?_) fun hcut => ?_
  · refine ((Expression.parse_needs _).mirrors s s').bind fun condition s s' => ?_
    exact Mirrors.shapeAt.bind fun shape s s' => .check hreads.mem .pure
  · exact ((Expression.parse_needs _).refuses s s' hcut).bind.outcome

omit hself in
theorem condition_mirrors : condition.Mirrors c s s' :=
  .expect fun _ => booleanExpression_mirrors.bind fun _ _ _ => .expect fun _ => .pure

theorem ifStatement_mirrors : (ifStatement self).Mirrors c s s' := by
  refine .expectKeyword fun _ => condition_mirrors.bind fun test s s' => ?_
  refine (body_mirrors hself).bind fun yes s s' => .current (fun hreads => ?_) fun hcut => ?_
  · refine .ite (fun _ => .advance hreads ?_) fun _ => .bind .pure fun no s s' => .addNode
    refine (body_mirrors hself).bind fun no s s' => ?_
    exact .bind .pure fun no s s' => .addNode
  · exact Mirrors.addNode hcut.twins

omit hself in
theorem forInitializer_mirrors : forInitializer.Mirrors c s s' := by
  refine (Mirrors.accept _).bind fun isEmpty s s' => .ite (fun _ => .pure) fun _ => ?_
  refine Declaration.starts_mirrors.bind fun starts s s' => .ite (fun _ => ?_) fun _ => ?_
  · refine Declaration.qualifiers_mirrors.bind fun q s s' => ?_
    refine (Declaration.specifier_needs.mirrors s s').bind fun shape s s' => ?_
    exact Declaration.declarators_mirrors q shape false
  · refine ((Expression.parse_needs _).mirrors s s').bind fun node s s' => ?_
    exact .expect fun _ => .pure

theorem forStatement_mirrors : (forStatement self).Mirrors c s s' := by
  refine .expectKeyword fun _ => .expect fun _ => .inScope fun s s' => ?_
  refine forInitializer_mirrors.bind fun initial s s' => .isAt fun noTest _ => ?_
  refine .choose .pure (.map booleanExpression_mirrors) fun test s s' => .expect fun _ => ?_
  refine .isAt fun noTerminal _ => .choose .pure (.map ((Expression.parse_needs _).mirrors _ _)) ?_
  refine fun terminal s s' => .expect fun _ => (body_mirrors hself).bind fun inner s s' => ?_
  refine Mirrors.addNode.bind fun node s s' => ?_
  split
  · exact .pure
  · exact .addNode

theorem whileStatement_mirrors : (whileStatement self).Mirrors c s s' := by
  refine .expectKeyword fun _ => condition_mirrors.bind fun test s s' => ?_
  exact (body_mirrors hself).bind fun inner s s' => .addNode

theorem doStatement_mirrors : (doStatement self).Mirrors c s s' := by
  refine .expectKeyword fun _ => (body_mirrors hself).bind fun inner s s' => ?_
  refine .expectKeyword fun _ => condition_mirrors.bind fun test s s' => ?_
  exact .expect fun _ => .addNode

omit hself in
theorem returnStatement_mirrors (hreads : c.Reads s s') : returnStatement.Mirrors c s s' := by
  refine .advance hreads (.isAt fun isEmpty _ => ?_)
  extract_lets rest
  have hrest : ∀ value s s', (rest value).Mirrors c s s' := fun value s s' =>
    .expect fun _ => .addNode
  refine .ite (fun _ => .bind .pure hrest) fun _ => ?_
  exact ((Expression.parse_needs _).mirrors _ _).bind fun node s s' => .bind .pure hrest

omit hself in
theorem branch_mirrors (hreads : c.Reads s s') (op : Operator) : (branch op).Mirrors c s s' :=
  .advance hreads (.expect fun _ => .addNode)

omit hself in
theorem localDeclaration_mirrors : localDeclaration.Mirrors c s s' := by
  refine Declaration.qualifiers_mirrors.bind fun q s s' => ?_
  refine (Declaration.specifier_needs.mirrors s s').bind fun shape s s' => ?_
  refine (Mirrors.accept _).bind fun isEmpty s s' => .ite (fun _ => .pure) fun _ => ?_
  exact Declaration.declarators_mirrors q shape false

omit hself in
/-- At the cut no declaration begins, and an expression needs a token. -/
theorem plain_needs : Needs c (do
    if ← Declaration.starts then localDeclaration
    else
      let node ← Expression.parse .expression
      let _ ← expect .semicolon
      return some node) := by
  constructor
  · intro s s'
    refine Declaration.starts_mirrors.bind fun starts s s' => ?_
    refine .ite (fun _ => localDeclaration_mirrors) fun _ => ?_
    refine ((Expression.parse_needs _).mirrors s s').bind fun node s s' => ?_
    exact .expect fun _ => .pure
  · intro s s' hcut
    exact .after (Declaration.starts_atCut hcut) ((Expression.parse_needs _).refuses s s' hcut).bind

theorem rule_needs (u : Unit) : Needs c (rule self u) := by
  constructor
  · intro s s'
    refine .current (fun hreads => ?_) fun hcut => plain_needs.mirrors s s' hcut.twins
    split
    · exact .map (scopedBlock_mirrors hself)
    · exact .advance hreads .pure
    · exact .map (ifStatement_mirrors hself)
    · exact .map (forStatement_mirrors hself)
    · exact .map (whileStatement_mirrors hself)
    · exact .map (doStatement_mirrors hself)
    · exact .map (returnStatement_mirrors hreads)
    · exact .map (branch_mirrors hreads _)
    · exact .map (branch_mirrors hreads _)
    · exact .map (branch_mirrors hreads _)
    · refine .advance hreads ?_
      exact (Directive.parse_mirrors hreads.mem _).bind fun _ s s' => .pure
    · exact plain_needs.mirrors s s'
  · intro s s' hcut
    unfold rule
    rw [run_current, run_current, hcut.front, hcut.front']
    exact plain_needs.refuses s s' hcut

end

theorem parse_needs : Needs c parse := .knot (fun _ hself => rule_needs hself) ()

theorem functionBody_mirrors : functionBody.Mirrors c s s' := block_mirrors fun _ => parse_needs

end Statement

/-! ## The top level -/

namespace Shader

theorem paramStep_mirrors (params : List Param) : (paramStep params).Mirrors c s s' := by
  refine .isAt fun atEnd _ => .ite (fun _ => .pure) fun _ => ?_
  refine .optional (fun _ => .expects) fun s s' => ?_
  refine Declaration.qualifiers_mirrors.bind fun _ s s' => ?_
  refine (Declaration.specifier_needs.mirrors s s').bind fun shape s s' => ?_
  -- with or without a name the rest is the same
  have hrest : ∀ name line s s', Mirrors c (do
      let shape ← Declaration.arraySuffix shape
      return Turn.again (β := List Param) ({ name, shape, line } :: params)) s s' :=
    fun name line s s' => (Declaration.arraySuffix_mirrors shape).bind fun shape s s' => .pure
  refine .ite (fun _ => .fail_bind) fun _ => .current (fun hreads => ?_) fun hcut => ?_
  · split
    · exact .advance hreads (.bind .pure fun name => hrest name _)
    · exact .bind .pure fun name => hrest name _
  · exact hrest none c.place.line s s' hcut.twins

theorem params_mirrors : params.Mirrors c s s' := by
  refine .expect fun _ => .skipWord fun s s' => ?_
  refine .bind (.loop fun params _ _ => paramStep_mirrors params) fun params s s' => ?_
  exact .expect fun _ => .pure

theorem declareFunction_mirrors (htoken : token ∈ c.readable) (name : String) (result : Shape)
    (shapes : List Shape) : (declareFunction token name result shapes).Mirrors c s s' := by
  refine .get (fun _ => rfl) ?_
  split
  · exact .check htoken .pure
  · exact .bind (.modify fun _ _ => rfl) fun _ s s' => .pure

theorem declareParam_mirrors (param : Param) : (declareParam param).Mirrors c s s' := by
  unfold declareParam
  split
  · exact .pure
  · exact Mirrors.declare.bind fun _ s s' => Mirrors.addNode.bind fun node s s' => .pure

theorem function_mirrors (result : Shape) : (function result).Mirrors c s s' := by
  refine .expectName fun name hname => .check hname.mem (.get (fun _ => rfl) ?_)
  refine .check hname.mem (params_mirrors.bind fun params s s' => ?_)
  refine (declareFunction_mirrors hname.mem name result _).bind fun decl s s' => ?_
  refine (Mirrors.accept _).bind fun isDeclared s s' => .ite (fun _ => .pure) fun _ => ?_
  refine .check hname.mem (.bind (.modify fun _ _ => rfl) fun _ s s' => .inScope fun s s' => ?_)
  refine .bind (.mapM (fun param s s' => declareParam_mirrors param) params) fun symbols s s' => ?_
  refine Mirrors.addNode.bind fun list s s' => ?_
  refine Statement.functionBody_mirrors.bind fun body s s' => ?_
  exact Mirrors.addNode.bind fun node s s' => .pure

theorem externalDeclaration_needs : Needs c externalDeclaration := by
  refine Declaration.qualifiers_needs fun q => ?_
  apply Needs.lookahead .semicolon
  · intro token next hother
    split
    · next name hname hsemicolon => exact absurd hsemicolon (hother name hname)
    · rfl
  · refine Declaration.specifier_needs.bind fun shape s s' => ?_
    refine (Mirrors.accept _).bind fun isEmpty s s' => .ite (fun _ => .pure) fun _ => ?_
    apply Mirrors.lookahead .leftParen
    · intro token next hother
      split
      · next name hname hparen => exact absurd hparen (hother name hname)
      · rfl
    · exact Declaration.declarators_mirrors q shape true
    · intro next _ _ _ hvariables
      split
      · exact function_mirrors shape
      · exact hvariables
  · intro s s' next _ hreads hnext htyped
    split
    · refine .get (fun _ => rfl) (.ite (fun _ => .advance hreads ?_) fun _ => htyped)
      exact .advance hnext .pure
    · exact htyped

theorem item_needs : Needs c item := by
  constructor
  · intro s s'
    refine .current (fun hreads => ?_) fun hcut => externalDeclaration_needs.mirrors s s' hcut.twins
    split
    · refine .advance hreads ?_
      exact (Directive.parse_mirrors hreads.mem _).bind fun _ s s' => .pure
    · exact .advance hreads .pure
    · refine .advance hreads (Declaration.precision_mirrors.bind fun _ s s' => ?_)
      refine (Declaration.specifier_needs.mirrors s s').bind fun _ s s' => ?_
      exact .expect fun _ => .pure
    · exact externalDeclaration_needs.mirrors s s'
  · intro s s' hcut
    unfold item
    rw [run_current, run_current, hcut.front, hcut.front']
    exact externalDeclaration_needs.refuses s s' hcut

end Shader

namespace Cut

/-- What is reported about a list that is cut off: what the readable tokens give cause to complain
of, or else the token that cannot be read. -/
def Reported {α : Type} (c : Cut) (run run' : Except ParseError α) : Prop :=
  (∃ e, c.Early e ∧ run = .error e ∧ run' = .error e) ∨
    ((∀ e, run = .error e → c.Late e) ∧ run' = .error c.complaint)

theorem Outcome.reported {α : Type} {run run' : Except ParseError (α × ParserState)}
    (h : c.Outcome run run') (hfails : ∀ x, run' ≠ .ok x) : c.Reported run run' := by
  cases h with
  | ok => exact absurd rfl (hfails _)
  | early he => exact Or.inl ⟨_, he, rfl, rfl⟩
  | late he =>
    refine Or.inr ⟨fun e h => ?_, rfl⟩
    cases h
    exact he

/-- A result that is there does not turn into a complaint. -/
theorem Reported.bind {α β : Type} {run run' : Except ParseError α} {f f' : α → Except ParseError β}
    (h : c.Reported run run') (hf : ∀ a e, f a ≠ .error e) :
    c.Reported (run >>= f) (run' >>= f') := by
  rcases h with ⟨e, he, rfl, rfl⟩ | ⟨hlate, rfl⟩
  · exact Or.inl ⟨e, he, rfl, rfl⟩
  · refine Or.inr ⟨fun e h => ?_, rfl⟩
    cases run with
    | error late =>
      cases h
      exact hlate _ rfl
    | ok a => exact absurd h (hf a e)

end Cut

namespace Shader

/-- At the cut a shader ends, or it has an item that cannot be read. -/
theorem items_reported (turns : Nat) (items : List NodeId) (h : c.Twins s s') :
    c.Reported (loopWithin itemStep turns items s) (loopWithin itemStep turns items s') := by
  induction turns generalizing items s s' with
  | zero => exact (Mirrors.fail h).reported nofun
  | succ turns ih =>
    rw [loopWithin_itemStep, loopWithin_itemStep]
    rcases h.front_cases with hreads | hcut
    · have hmore : s.front.lexeme ≠ .endOfInput := by
        intro hend
        have hlexeme := hreads.lexeme
        rw [hend] at hlexeme
        cases hlexeme
      rw [hreads.front, if_neg hmore, if_neg hmore]
      generalize hrun : item s = run
      generalize hrun' : item s' = run'
      have houtcome : c.Outcome run run' := hrun ▸ hrun' ▸ item_needs.mirrors s s' h
      cases houtcome with
      | ok htwins => exact ih _ htwins
      | early he => exact Or.inl ⟨_, he, rfl, rfl⟩
      | late he => exact (Cut.Outcome.late he).reported nofun
    · obtain ⟨e, -, -, hrun'⟩ := item_needs.refuses s s' hcut
      have hstop : c.stop.lexeme = .endOfInput := rfl
      have hbad : c.bad.lexeme ≠ .endOfInput := nofun
      rw [hcut.front, hcut.front', if_pos hstop, if_neg hbad, hrun']
      refine Or.inr ⟨fun e h => ?_, rfl⟩
      cases h

theorem shader_reported (h : c.Twins s s') : c.Reported (shader s) (shader s') := by
  have hitems : c.Reported (loop itemStep [] s) (loop itemStep [] s') := by
    unfold loop
    rw [h.length_rest]
    exact items_reported _ [] h
  refine hitems.bind fun x e hrest => ?_
  cases hrest

end Shader

/-- A cut is reported as such, unless there is cause to complain before it. -/
theorem Tree.ofTokens_reported (c : Cut) :
    c.Reported (Tree.ofTokens (c.readable ++ [c.stop]))
      (Tree.ofTokens (c.readable ++ [c.bad])) := by
  have hstart : c.Twins { rest := c.readable ++ [c.stop] } { rest := c.readable ++ [c.bad] } :=
    ⟨⟨c.readable, List.suffix_rfl, rfl, rfl⟩, rfl⟩
  refine (Shader.shader_reported hstart).bind fun x e hrest => ?_
  cases hrest

end ShaderCost
