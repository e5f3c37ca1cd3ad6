import ShaderCost.Proofs.Grammar.ExpressionLayout

/-! # Layout of shaders

Directives, declarations, statements and the top level agree with themselves on tokens that differ
in places. So token lists with the same lexemes give trees that differ only in lines, or the same
complaint (`Tree.ofTokens_alike`).
-/

namespace ShaderCost

open ShaderCost.Parser

/-! ## Directives -/

namespace Directive

variable {token token' : Token}

theorem define_agree (h : token'.lexeme = token.lexeme) (words : List Bytes) :
    Agree Eq (define token words) (define token' words) := by
  unfold define
  split
  · exact .failAt h _
  · refine .check h fun _ => ?_
    split
    · exact .failAt h _
    · split
      · exact .failAt h _
      · exact .failAt h _
      · exact .modify fun s s' hs => { hs with macros := by rw [hs.macros] }

theorem parse_agree (h : token'.lexeme = token.lexeme) (text : Bytes) :
    Agree Eq (parse token text) (parse token' text) := by
  unfold parse
  split
  · exact .pure rfl
  · refine .ite (fun _ => .pure rfl) fun _ => .ite (fun _ => define_agree h _) fun _ => ?_
    exact .ite (fun _ => .failAt h _) fun _ => .failAt h _

end Directive

/-! ## Declarations -/

namespace Declaration

theorem parenthesesStep_agree (depth depth' : Nat) (hdepth : depth = depth') :
    Agree (Agree.AfterTurn Eq Eq) (parenthesesStep depth) (parenthesesStep depth') := by
  subst hdepth
  refine Agree.advance.bind fun token token' h => ?_
  rw [h]
  split
  · exact .pure rfl
  · exact .ite (fun _ => .pure rfl) fun _ => .pure rfl
  · exact .fail _
  · exact .pure rfl

theorem skipParentheses_agree : Agree Eq skipParentheses skipParentheses :=
  (Agree.expectLexeme _).bind fun _ _ _ => .loop parenthesesStep_agree rfl

theorem qualifierStep_agree (q q' : Qualifiers) (hq : q = q') :
    Agree (Agree.AfterTurn Eq Eq) (qualifierStep q) (qualifierStep q') := by
  subst hq
  refine Agree.current.bind fun token token' h => ?_
  rw [h]
  split
  · exact Agree.advance.bind fun _ _ _ => .pure rfl
  · exact Agree.advance.bind fun _ _ _ => .pure rfl
  · exact Agree.advance.bind fun _ _ _ => .pure rfl
  · exact Agree.advance.bind fun _ _ _ => skipParentheses_agree.seq fun _ => .pure rfl
  · exact .ite (fun _ => Agree.advance.bind fun _ _ _ => .pure rfl) fun _ => .pure rfl
  · exact .pure rfl

theorem qualifiers_agree : Agree Eq qualifiers qualifiers := .loop qualifierStep_agree rfl

theorem precision_agree : Agree Eq precision precision := by
  refine Agree.current.bind fun token token' h => ?_
  rw [h]
  split
  · exact Agree.advance.bind fun _ _ _ => .pure rfl
  · exact Agree.advance.bind fun _ _ _ => .pure rfl
  · exact Agree.advance.bind fun _ _ _ => .pure rfl
  · exact .fail _

theorem arraySuffix_agree (shape : Shape) : Agree Eq (arraySuffix shape) (arraySuffix shape) := by
  refine (Agree.accept _).seq fun isArray => .ite (fun _ => .pure rfl) fun _ => ?_
  refine .ite (fun _ => .fail_bind) fun _ => Agree.current.bind fun token token' h => ?_
  refine Expression.parseConditional_agree.seq fun size => ?_
  refine (Agree.nodeAt size).bind fun n n' hn => ?_
  rw [Node.constant?_eq hn]
  cases n.constant?.bind Constant.integer? with
  | none => exact .failAt h _
  | some length =>
    exact .check h fun _ => (Agree.expectLexeme _).bind fun _ _ _ => .pure rfl

theorem fieldStep_agree (shape : Shape) (fields fields' : List Field) (hfields : fields = fields') :
    Agree (Agree.AfterTurn Eq Eq) (fieldStep shape fields) (fieldStep shape fields') := by
  subst hfields
  refine Agree.expectName.bind ?_
  rintro ⟨token, _⟩ ⟨token', name⟩ ⟨h, rfl⟩
  refine (arraySuffix_agree shape).seq fun fieldShape => .check h fun _ => ?_
  exact (Agree.accept _).seq fun more => .ite (fun _ => .pure rfl) fun _ => .pure rfl

section

variable {specifier specifier' : Parser Shape} (hspecifier : Agree Eq specifier specifier')

include hspecifier

theorem memberStep_agree (fields fields' : List Field) (hfields : fields = fields') :
    Agree (Agree.AfterTurn Eq Eq) (memberStep specifier fields)
      (memberStep specifier' fields') := by
  subst hfields
  refine (Agree.accept _).seq fun closed => .ite (fun _ => .pure rfl) fun _ => ?_
  refine qualifiers_agree.seq fun _ => hspecifier.seq fun shape => ?_
  refine .seq (.loop (fieldStep_agree shape) rfl) fun fields => ?_
  exact (Agree.expectLexeme _).bind fun _ _ _ => .pure rfl

theorem structSpecifier_agree :
    Agree Eq (structSpecifier specifier) (structSpecifier specifier') := by
  refine (Agree.expectLexeme _).bind fun _ _ _ => Agree.expectName.bind ?_
  rintro ⟨token, _⟩ ⟨token', name⟩ ⟨h, rfl⟩
  refine Agree.get.bind fun s s' hs => ?_
  rw [hs.isTypeName]
  refine .check h fun _ => (Agree.expectLexeme _).bind fun _ _ _ => ?_
  refine .seq (.loop (memberStep_agree hspecifier) rfl) fun fields => ?_
  exact .seq (.modify fun s s' hs => { hs with structs := by rw [hs.structs] }) fun _ => .pure rfl

end

theorem specifier_agree : Agree Eq specifier specifier := by
  refine .knot (fun self self' hself _ => ?_) ()
  refine Agree.current.bind fun token token' h => ?_
  rw [h]
  split
  · exact structSpecifier_agree (hself ())
  · refine Agree.advance.bind fun _ _ _ => Agree.get.bind fun s s' hs => ?_
    rw [hs.type?]
    split
    · exact .pure rfl
    · exact .failAt h _
  · exact .fail _

theorem starts_agree : Agree Eq starts starts := by
  refine Agree.current.bind fun token token' h => ?_
  rw [h]
  split
  · exact .pure rfl
  · refine Agree.following.bind fun second second' hsecond => ?_
    rw [hsecond]
    split
    · exact Agree.get.bind fun s s' hs => .pure (hs.isTypeName _).symm
    · exact .pure rfl
  · exact .pure rfl

theorem initializer_agree (q : Qualifiers) (shape : Shape) {token token' : Token}
    (h : token'.lexeme = token.lexeme) (name : String) :
    Agree Eq (initializer q shape token name) (initializer q shape token' name) := by
  unfold initializer
  refine .check h fun _ => (Expression.parse_agree _).seq fun initial => ?_
  refine (Agree.nodeAt initial).bind fun n n' hn => ?_
  have hfolded : foldedValue? q shape n' = foldedValue? q shape n := by
    rw [foldedValue?, Node.constant?_eq hn, foldedValue?]
  simp only [Node.shape_eq hn, hfolded]
  refine .check h fun _ => ?_
  split
  · exact .pure rfl
  · refine .seq (.addNode rfl) fun target => ?_
    exact (Agree.addBinary _ _ _ _ _ _).seq fun assign => .pure rfl

theorem declaratorStep_agree (q : Qualifiers) (shape : Shape) (isGlobal : Bool)
    (assigns assigns' : List NodeId) (hassigns : assigns = assigns') :
    Agree (Agree.AfterTurn Eq Eq) (declaratorStep q shape isGlobal assigns)
      (declaratorStep q shape isGlobal assigns') := by
  subst hassigns
  refine Agree.expectName.bind ?_
  rintro ⟨token, _⟩ ⟨token', name⟩ ⟨h, rfl⟩
  refine Agree.get.bind fun s s' hs => ?_
  rw [hs.isTypeName, hs.scope]
  refine .check h fun _ => (arraySuffix_agree shape).seq fun itemShape => ?_
  refine (Agree.accept _).seq fun isInitialized => ?_
  extract_lets rest rest'
  -- with or without an initialiser the rest is the same
  have hrest : ∀ x, Agree (Agree.AfterTurn Eq Eq) (rest x) (rest' x) := by
    rintro ⟨value, assign⟩
    refine (Agree.declare _).seq fun _ => ?_
    extract_lets assigns₁ next
    have hnext : Agree (Agree.AfterTurn Eq Eq) (next ()) (next ()) :=
      (Agree.accept _).seq fun more => .ite (fun _ => .pure rfl) fun _ => .pure rfl
    refine .ite (fun _ => .seq (.addNode rfl) fun global => ?_) fun _ => hnext
    exact .seq (.modify fun s s' hs => { hs with globals := by rw [hs.globals] }) fun _ => hnext
  refine .ite (fun _ => (initializer_agree q itemShape h name).seq hrest) fun _ => ?_
  exact .ite (fun _ => .failAt_bind h _) fun _ => .seq (.pure rfl) hrest

theorem declarators_agree (q : Qualifiers) (shape : Shape) (isGlobal : Bool) :
    Agree Eq (declarators q shape isGlobal) (declarators q shape isGlobal) := by
  unfold declarators
  refine .ite (fun _ => .fail_bind) fun _ => ?_
  refine .seq (.loop (declaratorStep_agree q shape isGlobal) rfl) fun assigns => ?_
  refine (Agree.expectLexeme _).bind fun _ _ _ => ?_
  split
  · exact .pure rfl
  · exact .pure rfl
  · refine (Agree.nodeAt _).bind fun n n' hn => ?_
    exact .seq (.addNode rfl) fun node => .pure rfl

end Declaration

/-! ## Statements -/

namespace Statement

section

variable {self self' : Unit → Parser (Option NodeId)}
variable (hself : ∀ rule, Agree Eq (self rule) (self' rule))

include hself

theorem blockStep_agree (items items' : List NodeId) (hitems : items = items') :
    Agree (Agree.AfterTurn Eq Eq) (blockStep self items) (blockStep self' items') := by
  subst hitems
  refine Agree.current.bind fun token token' h => ?_
  rw [h]
  split
  · exact .pure rfl
  · exact .fail _
  · refine (hself ()).seq fun item => ?_
    cases item with
    | some item => exact .pure rfl
    | none => exact .pure rfl

theorem block_agree : Agree Eq (block self) (block self') := by
  refine (Agree.expectLexeme _).bind fun opening opening' h => ?_
  refine .seq (.loop (blockStep_agree hself) rfl) fun items => ?_
  exact (Agree.expectLexeme _).bind fun _ _ _ => .addSequence _ _ _ _

theorem scopedBlock_agree : Agree Eq (scopedBlock self) (scopedBlock self') := by
  refine (Agree.expectLexeme _).bind fun opening opening' h => .inScope ?_
  refine .seq (.loop (blockStep_agree hself) rfl) fun items => ?_
  exact (Agree.expectLexeme _).bind fun _ _ _ => .addSequence _ _ _ _

theorem body_agree : Agree Eq (body self) (body self') := by
  refine Agree.current.bind fun token token' h => (Agree.inScope (hself ())).seq fun item => ?_
  cases item with
  | some item => exact .pure rfl
  | none => exact .addSequence _ _ _ _

omit hself in
theorem booleanExpression_agree : Agree Eq booleanExpression booleanExpression := by
  refine Agree.current.bind fun token token' h => (Expression.parse_agree _).seq fun condition => ?_
  exact (Agree.shapeAt condition).seq fun shape => .check h fun _ => .pure rfl

omit hself in
theorem condition_agree : Agree Eq condition condition := by
  refine (Agree.expectLexeme _).bind fun _ _ _ => booleanExpression_agree.seq fun node => ?_
  exact (Agree.expectLexeme _).bind fun _ _ _ => .pure rfl

theorem ifStatement_agree : Agree Eq (ifStatement self) (ifStatement self') := by
  refine (Agree.expectLexeme _).bind fun token token' h => condition_agree.seq fun test => ?_
  refine (body_agree hself).seq fun yes => Agree.current.bind fun next next' hnext => ?_
  rw [hnext]
  refine .ite (fun _ => ?_) fun _ => .seq (.pure rfl) fun no => .addNode rfl
  refine Agree.advance.bind fun _ _ _ => (body_agree hself).seq fun no => ?_
  exact .seq (.pure rfl) fun no => .addNode rfl

omit hself in
theorem forInitializer_agree : Agree Eq forInitializer forInitializer := by
  refine (Agree.accept _).seq fun isEmpty => .ite (fun _ => .pure rfl) fun _ => ?_
  refine Declaration.starts_agree.seq fun starts => .ite (fun _ => ?_) fun _ => ?_
  · refine Declaration.qualifiers_agree.seq fun q => Declaration.specifier_agree.seq fun shape => ?_
    exact Declaration.declarators_agree q shape false
  · refine (Expression.parse_agree _).seq fun node => ?_
    exact (Agree.expectLexeme _).bind fun _ _ _ => .pure rfl

theorem forStatement_agree : Agree Eq (forStatement self) (forStatement self') := by
  refine (Agree.expectLexeme _).bind fun token token' h => ?_
  refine (Agree.expectLexeme _).bind fun _ _ _ => .inScope ?_
  refine forInitializer_agree.seq fun initial => (Agree.isAt _).seq fun noTest => ?_
  refine .choose (R := Eq) (.pure rfl) (.map booleanExpression_agree) ?_
  rintro test _ rfl
  refine (Agree.expectLexeme _).bind fun _ _ _ => (Agree.isAt _).seq fun noTerminal => ?_
  refine .choose (R := Eq) (.pure rfl) (.map (Expression.parse_agree _)) ?_
  rintro terminal _ rfl
  refine (Agree.expectLexeme _).bind fun _ _ _ => (body_agree hself).seq fun inner => ?_
  refine .seq (.addNode rfl) fun node => ?_
  split
  · exact .pure rfl
  · exact .addSequence _ _ _ _

theorem whileStatement_agree : Agree Eq (whileStatement self) (whileStatement self') := by
  refine (Agree.expectLexeme _).bind fun token token' h => condition_agree.seq fun test => ?_
  exact (body_agree hself).seq fun inner => .addNode rfl

theorem doStatement_agree : Agree Eq (doStatement self) (doStatement self') := by
  refine (Agree.expectLexeme _).bind fun token token' h => (body_agree hself).seq fun inner => ?_
  refine (Agree.expectLexeme _).bind fun _ _ _ => condition_agree.seq fun test => ?_
  exact (Agree.expectLexeme _).bind fun _ _ _ => .addNode rfl

omit hself in
theorem returnStatement_agree : Agree Eq returnStatement returnStatement := by
  refine Agree.advance.bind fun token token' h => (Agree.isAt _).seq fun isEmpty => ?_
  extract_lets rest rest'
  have hrest : ∀ value, Agree Eq (rest value) (rest' value) := fun value =>
    (Agree.expectLexeme _).bind fun _ _ _ => .addNode rfl
  refine .ite (fun _ => .seq (.pure rfl) hrest) fun _ => ?_
  exact (Expression.parse_agree _).seq fun node => .seq (.pure rfl) hrest

omit hself in
theorem branch_agree (op : Operator) : Agree Eq (branch op) (branch op) :=
  Agree.advance.bind fun _ _ _ => (Agree.expectLexeme _).bind fun _ _ _ => .addNode rfl

omit hself in
theorem localDeclaration_agree : Agree Eq localDeclaration localDeclaration := by
  refine Declaration.qualifiers_agree.seq fun q => Declaration.specifier_agree.seq fun shape => ?_
  refine (Agree.accept _).seq fun isEmpty => .ite (fun _ => .pure rfl) fun _ => ?_
  exact Declaration.declarators_agree q shape false

theorem rule_agree (u : Unit) : Agree Eq (rule self u) (rule self' u) := by
  refine Agree.current.bind fun token token' h => ?_
  rw [h]
  split
  · exact .map (scopedBlock_agree hself)
  · exact Agree.advance.bind fun _ _ _ => .pure rfl
  · exact .map (ifStatement_agree hself)
  · exact .map (forStatement_agree hself)
  · exact .map (whileStatement_agree hself)
  · exact .map (doStatement_agree hself)
  · exact .map returnStatement_agree
  · exact .map (branch_agree _)
  · exact .map (branch_agree _)
  · exact .map (branch_agree _)
  · refine Agree.advance.bind fun token token' h => ?_
    exact (Directive.parse_agree h _).seq fun _ => .pure rfl
  · refine Declaration.starts_agree.seq fun starts => ?_
    refine .ite (fun _ => localDeclaration_agree) fun _ => ?_
    refine (Expression.parse_agree _).seq fun node => ?_
    exact (Agree.expectLexeme _).bind fun _ _ _ => .pure rfl

end

theorem parse_agree : Agree Eq parse parse := .knot (fun _ _ hself => rule_agree hself) ()

theorem functionBody_agree : Agree Eq functionBody functionBody :=
  block_agree fun _ => parse_agree

end Statement

/-! ## The top level -/

namespace Shader

/-- A parameter without its place. -/
def Param.unplaced (param : Param) : Param := { param with line := 0 }

/-- Parameters that differ only in places. -/
def ParamsAlike (params params' : List Param) : Prop :=
  params'.map Param.unplaced = params.map Param.unplaced

theorem ParamsAlike.isEmpty {params params' : List Param} (h : ParamsAlike params params') :
    params'.isEmpty = params.isEmpty := by
  simpa using congrArg List.isEmpty h

theorem ParamsAlike.shapes {params params' : List Param} (h : ParamsAlike params params') :
    params'.map Param.shape = params.map Param.shape := by
  have hshapes := congrArg (List.map Param.shape) h
  rw [List.map_map, List.map_map] at hshapes
  exact hshapes

theorem paramStep_agree (params params' : List Param) (hparams : ParamsAlike params params') :
    Agree (Agree.AfterTurn ParamsAlike ParamsAlike) (paramStep params) (paramStep params') := by
  unfold paramStep
  rw [hparams.isEmpty]
  refine (Agree.isAt _).seq fun atEnd => .ite (fun _ => .pure ?_) fun _ => ?_
  · simpa [ParamsAlike, Agree.AfterTurn] using hparams
  refine .optional (Agree.expectLexeme _) ?_
  refine Declaration.qualifiers_agree.seq fun _ => Declaration.specifier_agree.seq fun shape => ?_
  refine .ite (fun _ => .fail_bind) fun _ => Agree.current.bind fun token token' h => ?_
  extract_lets rest rest'
  -- with or without a name the rest is the same
  have hrest : ∀ name,
      Agree (Agree.AfterTurn ParamsAlike ParamsAlike) (rest name) (rest' name) := by
    refine fun name => (Declaration.arraySuffix_agree shape).seq fun shape => .pure ?_
    exact congrArg (List.cons _) hparams
  rw [h]
  split
  · exact Agree.advance.bind fun _ _ _ => .seq (.pure rfl) hrest
  · exact .seq (.pure rfl) hrest

theorem params_agree : Agree ParamsAlike params params := by
  refine (Agree.expectLexeme _).bind fun _ _ _ => Agree.current.bind fun front front' hfront => ?_
  refine Agree.following.bind fun second second' hsecond => ?_
  rw [hfront, hsecond]
  refine .optional Agree.advance ?_
  refine .bind (.loop paramStep_agree rfl) fun params params' hparams => ?_
  exact (Agree.expectLexeme _).bind fun _ _ _ => .pure hparams

theorem declareFunction_agree {token token' : Token} (h : token'.lexeme = token.lexeme)
    (name : String) (result : Shape) (shapes : List Shape) :
    Agree Eq (declareFunction token name result shapes)
      (declareFunction token' name result shapes) := by
  refine Agree.get.bind fun s s' hs => ?_
  rw [hs.overloads]
  split
  · exact .check h fun _ => .pure rfl
  · exact .seq (.modify fun s s' hs => { hs with functions := by rw [hs.functions] }) fun _ =>
      .pure rfl

theorem markDefined_agree (decl : FunctionDecl) : Agree Eq (markDefined decl) (markDefined decl) :=
  .modify fun s s' hs => { hs with functions := by rw [hs.functions] }

theorem declareParam_agree {param param' : Param} (h : param'.unplaced = param.unplaced) :
    Agree Eq (declareParam param) (declareParam param') := by
  have hname : param'.name = param.name := (congrArg Param.name h :)
  have hshape : param'.shape = param.shape := (congrArg Param.shape h :)
  unfold declareParam
  rw [hname, hshape]
  split
  · exact .pure rfl
  · exact (Agree.declare _).seq fun _ => .seq (.addNode rfl) fun node => .pure rfl

theorem declareParams_agree {params params' : List Param} (h : ParamsAlike params params') :
    Agree Eq (params.mapM declareParam) (params'.mapM declareParam) := by
  induction params generalizing params' with
  | nil =>
    cases params' with
    | nil => exact .pure rfl
    | cons _ _ => nomatch h
  | cons param params ih =>
    cases params' with
    | nil => nomatch h
    | cons param' params' =>
      obtain ⟨hparam, hparams⟩ := List.cons.inj h
      rw [List.mapM_cons, List.mapM_cons]
      exact (declareParam_agree hparam).seq fun symbol => (ih hparams).seq fun symbols => .pure rfl

theorem function_agree (result : Shape) : Agree Eq (function result) (function result) := by
  refine Agree.expectName.bind ?_
  rintro ⟨token, _⟩ ⟨token', name⟩ ⟨h, rfl⟩
  refine .check h fun _ => Agree.get.bind fun s s' hs => ?_
  rw [hs.isTypeName]
  refine .check h fun _ => params_agree.bind fun params params' hparams => ?_
  simp only [hparams.shapes]
  refine (declareFunction_agree h _ _ _).seq fun decl => (Agree.accept _).seq fun isDeclared => ?_
  refine .ite (fun _ => .pure rfl) fun _ => .check h fun _ => ?_
  refine (markDefined_agree decl).seq fun _ => ?_
  refine .inScope ((declareParams_agree hparams).seq fun symbols => ?_)
  refine (Agree.addSequence _ _ _ _).seq fun list => Statement.functionBody_agree.seq fun body => ?_
  exact .seq (.addNode rfl) fun node => .pure rfl

theorem externalDeclaration_agree : Agree Eq externalDeclaration externalDeclaration := by
  refine Declaration.qualifiers_agree.seq fun q => Agree.current.bind fun front front' hfront => ?_
  refine Agree.following.bind fun second second' hsecond => ?_
  rw [hfront, hsecond]
  extract_lets rest
  have hrest : Agree Eq (rest ()) (rest ()) := by
    refine Declaration.specifier_agree.seq fun shape => (Agree.accept _).seq fun isEmpty => ?_
    refine .ite (fun _ => .pure rfl) fun _ => Agree.current.bind fun front front' hfront => ?_
    refine Agree.following.bind fun second second' hsecond => ?_
    rw [hfront, hsecond]
    split
    · exact function_agree shape
    · exact Declaration.declarators_agree q shape true
  split
  · refine Agree.get.bind fun s s' hs => ?_
    rw [hs.isTypeName]
    refine .ite (fun _ => ?_) fun _ => hrest
    exact Agree.advance.bind fun _ _ _ => Agree.advance.bind fun _ _ _ => .pure rfl
  · exact hrest

theorem itemStep_agree (items items' : List NodeId) (hitems : items = items') :
    Agree (Agree.AfterTurn Eq Eq) (itemStep items) (itemStep items') := by
  subst hitems
  refine Agree.current.bind fun token token' h => ?_
  rw [h]
  split
  · exact .pure rfl
  · refine Agree.advance.bind fun token token' h => ?_
    exact (Directive.parse_agree h _).seq fun _ => .pure rfl
  · exact Agree.advance.bind fun _ _ _ => .pure rfl
  · refine Agree.advance.bind fun _ _ _ => Declaration.precision_agree.seq fun _ => ?_
    refine Declaration.specifier_agree.seq fun _ => ?_
    exact (Agree.expectLexeme _).bind fun _ _ _ => .pure rfl
  · refine externalDeclaration_agree.seq fun item => ?_
    cases item with
    | some item => exact .pure rfl
    | none => exact .pure rfl

theorem shader_agree : Agree Eq shader shader := by
  refine .seq (.loop itemStep_agree rfl) fun items => Agree.get.bind fun s s' hs => ?_
  rw [hs.globals]
  exact .seq (.addNode rfl) fun globals => .addSequence _ _ _ _

end Shader

/-- A tree without the places of its nodes. -/
def Tree.unplaced (t : Tree) : Tree := { t with nodes := t.nodes.map Node.unplaced }

/-- Token lists with the same lexemes give trees that differ only in lines, or the same
complaint. -/
theorem Tree.ofTokens_alike {tokens tokens' : List Token}
    (h : tokens'.map Token.lexeme = tokens.map Token.lexeme) :
    match Tree.ofTokens tokens, Tree.ofTokens tokens' with
    | .ok t, .ok t' => t'.unplaced = t.unplaced
    | .error e, .error e' => e'.complaint = e.complaint
    | _, _ => False := by
  have hstart : ParserState.Alike { rest := tokens } { rest := tokens' } :=
    ⟨h, rfl, rfl, rfl, rfl, rfl, rfl, rfl⟩
  have hrun := Shader.shader_agree hstart
  unfold Tree.ofTokens
  change OutcomeAlike Eq (Shader.shader.run _) (Shader.shader.run _) at hrun
  generalize Shader.shader.run { rest := tokens } = outcome at hrun
  generalize Shader.shader.run { rest := tokens' } = outcome' at hrun
  cases hrun with
  | @ok root _ s s' hroot hs =>
    subst hroot
    change Tree.unplaced { nodes := s'.nodes, root := some root } = _
    unfold Tree.unplaced
    rw [hs.nodes]
  | error h => exact h

end ShaderCost
