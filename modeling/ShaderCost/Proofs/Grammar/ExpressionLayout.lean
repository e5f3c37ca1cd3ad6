import ShaderCost.Proofs.Grammar.Layout

/-! # Layout of expressions

Every rule for expressions agrees with itself on tokens that differ in places (`parse_agree`). The
lemmas follow the grammar rule by rule.
-/

namespace ShaderCost.Expression

open ShaderCost.Parser

variable {token token' : Token}

/-! ## Targets of assignments -/

theorem accessBase?_unplaced (nodes : Array Node) (depth : Nat) (id : NodeId) :
    (accessBase? nodes depth id).map Node.unplaced =
      accessBase? (nodes.map Node.unplaced) depth id := by
  induction depth generalizing id with
  | zero => rfl
  | succ depth ih =>
    have haccess : ∀ n : Node, isAccess n.unplaced = isAccess n := fun _ => rfl
    have hleft : ∀ n : Node, n.unplaced.left? = n.left? := fun _ => rfl
    unfold accessBase?
    rw [Array.getElem?_map]
    cases nodes[id]? with
    | none => rfl
    | some n =>
      simp only [Option.map_some, haccess, hleft]
      split
      · cases n.left? with
        | none => rfl
        | some left => exact ih left
      · rfl

theorem checkTarget_agree (id : NodeId) (h : token'.lexeme = token.lexeme) (op : Symbol) :
    Agree Eq (checkTarget id token op) (checkTarget id token' op) := by
  refine Agree.get.bind fun s s' hs => ?_
  have hbase? : (accessBase? s'.nodes (id + 1) id).map Node.unplaced =
      (accessBase? s.nodes (id + 1) id).map Node.unplaced := by
    rw [accessBase?_unplaced, accessBase?_unplaced, hs.nodes]
  refine (Agree.found hbase?).bind fun base base' hbase => ?_
  simp only [Node.kind_eq hbase, Node.name_eq hbase, hs.lookup?]
  refine .ite (fun _ => ?_) fun _ => .failAt h _
  split
  · exact .ite (fun _ => .failAt h _) fun _ => .pure rfl
  · exact .pure rfl

/-! ## Selectors and subscripts -/

theorem selector_agree (base : NodeId) (h : token'.lexeme = token.lexeme) (name : String) :
    Agree Eq (selector base token name) (selector base token' name) := by
  refine (Agree.shapeAt base).seq fun shape => .ite (fun _ => ?_) fun _ =>
    .ite (fun _ => .failAt h _) fun _ => ?_
  · refine Agree.get.bind fun s s' hs => ?_
    rw [hs.struct?]
    refine (Agree.found_self _).seq fun decl => ?_
    split
    · exact .failAt h _
    · exact (Agree.addConstant _ _ _).seq fun place => .addBinary _ _ _ _ _ _
  · split
    · exact .failAt h _
    · exact (Agree.addConstant _ _ _).seq fun place => .addBinary _ _ _ _ _ _
    · refine (Agree.mapM (fun component => Agree.addConstant _ _ _) _).seq fun places => ?_
      exact .seq (.addNode rfl) fun selected => .addBinary _ _ _ _ _ _

section

variable {self self' : Rule → Parser NodeId} (hself : ∀ rule, Agree Eq (self rule) (self' rule))

include hself

theorem subscript_agree (base : NodeId) (h : token'.lexeme = token.lexeme) :
    Agree Eq (subscript self base token) (subscript self' base token') := by
  refine (Agree.shapeAt base).seq fun shape => .check h fun _ => ?_
  refine (hself _).seq fun index => (Agree.nodeAt index).bind fun n n' hn => ?_
  simp only [Node.shape_eq hn, Node.constant?_eq hn]
  refine .check h fun _ => ?_
  split
  · exact .addBinary _ _ _ _ _ _
  · exact .check h fun _ => .addBinary _ _ _ _ _ _

/-! ## Calls -/

theorem argumentStep_agree (args args' : List NodeId) (hargs : args = args') :
    Agree (Agree.AfterTurn Eq Eq) (argumentStep self args) (argumentStep self' args') := by
  subst hargs
  refine (Agree.isAt _).seq fun atEnd => .ite (fun _ => .pure rfl) fun _ => ?_
  exact .optional (Agree.expectLexeme _) ((hself _).seq fun arg => .pure rfl)

theorem arguments_agree : Agree Eq (arguments self) (arguments self') := by
  refine (Agree.expectLexeme _).bind fun _ _ _ => Agree.current.bind fun front front' hfront => ?_
  refine Agree.following.bind fun second second' hsecond => ?_
  rw [hfront, hsecond]
  refine .optional Agree.advance (.seq (.loop (argumentStep_agree hself) rfl) fun args => ?_)
  exact (Agree.expectLexeme _).bind fun _ _ _ => .pure rfl

omit hself in
theorem constructorFields_agree (target : Shape) (name : String) :
    Agree Eq (constructorFields target name) (constructorFields target name) := by
  refine .ite (fun _ => Agree.get.bind fun s s' hs => ?_) fun _ => .pure rfl
  rw [hs.struct?]
  exact (Agree.found_self _).seq fun decl => .pure rfl

theorem call_agree (h : token'.lexeme = token.lexeme) (name : String) :
    Agree Eq (call self token name) (call self' token' name) := by
  refine (arguments_agree hself).seq fun args => ?_
  refine (Agree.mapM Agree.shapeAt args).seq fun shapes => Agree.get.bind fun s s' hs => ?_
  simp only [hs.type?, hs.overloads, hs.lookup?]
  split
  · refine (constructorFields_agree _ name).seq fun fields => ?_
    split
    · exact .failAt h _
    · exact .addNode rfl
  · split
    · exact .check h fun _ => (Agree.found_self _).seq fun shape => .addNode rfl
    · refine .ite (fun _ => ?_) fun _ => ?_
      · exact .ite (fun _ => .failAt_bind h _) fun _ => .failAt_bind h _
      · split
        · exact .failAt h _
        · exact .addNode rfl

/-! ## Operands -/

omit hself in
theorem named_agree (h : token'.lexeme = token.lexeme) (name : String) :
    Agree Eq (named token name) (named token' name) := by
  refine Agree.get.bind fun s s' hs => ?_
  simp only [hs.expansion?, hs.lookup?]
  split
  · exact .addConstant _ _ _
  · split
    · exact .failAt h _
    · split
      · exact .addConstant _ _ _
      · exact .addNode rfl

omit hself in
theorem literal_agree (h : token'.lexeme = token.lexeme) (text : String) :
    Agree Eq (literal token text) (literal token' text) := by
  unfold literal
  rw [h]
  split
  · exact .addConstant _ _ _
  · exact .failAt h _
  · exact .failAt h _

theorem primary_agree : Agree Eq (primary self) (primary self') := by
  refine Agree.current.bind fun token token' h => ?_
  rw [h]
  split
  · exact Agree.advance.bind fun _ _ _ => literal_agree h _
  · exact Agree.advance.bind fun _ _ _ => literal_agree h _
  · exact Agree.advance.bind fun _ _ _ => literal_agree h _
  · exact Agree.advance.bind fun _ _ _ => literal_agree h _
  · refine Agree.advance.bind fun _ _ _ => (hself _).seq fun inner => ?_
    exact (Agree.expectLexeme _).bind fun _ _ _ => .pure rfl
  · refine Agree.advance.bind fun _ _ _ => (Agree.isAt _).seq fun isCall => ?_
    exact .ite (fun _ => call_agree hself h _) fun _ => named_agree h _
  · exact .fail _

omit hself in
theorem step_agree (op : Operator) (mark : Symbol) (operand : NodeId) {start start' : Token}
    (hstart : start'.lexeme = start.lexeme) (h : token'.lexeme = token.lexeme) :
    Agree Eq (step op mark operand start token) (step op mark operand start' token') := by
  refine (checkTarget_agree operand hstart mark).seq fun _ => ?_
  exact (Agree.shapeAt operand).seq fun shape => .check h fun _ => .addUnary _ _ _ _ _

theorem suffix_agree {start start' : Token} (hstart : start'.lexeme = start.lexeme)
    (operand operand' : NodeId) (hoperand : operand = operand') :
    Agree (Agree.AfterTurn Eq Eq) (suffix self start operand) (suffix self' start' operand') := by
  subst hoperand
  refine Agree.current.bind fun token token' h => ?_
  rw [h]
  split
  · refine Agree.advance.bind fun _ _ _ => (subscript_agree hself operand h).seq fun node => ?_
    exact (Agree.expectLexeme _).bind fun _ _ _ => .pure rfl
  · refine Agree.advance.bind fun _ _ _ => Agree.expectName.bind ?_
    rintro ⟨nameToken, _⟩ ⟨nameToken', name⟩ ⟨hname, rfl⟩
    exact (selector_agree operand hname name).seq fun node => .pure rfl
  · refine Agree.advance.bind fun _ _ _ => ?_
    exact (step_agree _ _ operand hstart h).seq fun node => .pure rfl
  · refine Agree.advance.bind fun _ _ _ => ?_
    exact (step_agree _ _ operand hstart h).seq fun node => .pure rfl
  · exact .pure rfl

theorem suffixed_agree : Agree Eq (suffixed self) (suffixed self') := by
  refine Agree.current.bind fun start start' hstart => (primary_agree hself).seq fun operand => ?_
  exact .loop (suffix_agree hself hstart) rfl

theorem unary_agree : Agree Eq (unary self) (unary self') := by
  refine Agree.current.bind fun token token' h => ?_
  rw [h]
  split
  · refine Agree.advance.bind fun _ _ _ => (hself _).seq fun operand => ?_
    exact (Agree.shapeAt operand).seq fun shape => .check h fun _ => .pure rfl
  · refine Agree.advance.bind fun _ _ _ => (hself _).seq fun operand => ?_
    refine (Agree.nodeAt operand).bind fun n n' hn => ?_
    simp only [Node.shape_eq hn, Node.constant?_eq hn]
    refine .check h fun _ => ?_
    split
    · exact .addNode rfl
    · exact .addUnary _ _ _ _ _
  · refine Agree.advance.bind fun _ _ _ => (hself _).seq fun operand => ?_
    exact (Agree.shapeAt operand).seq fun shape => .check h fun _ => .addUnary _ _ _ _ _
  · refine Agree.advance.bind fun _ _ _ => (hself _).seq fun operand => ?_
    exact (Agree.shapeAt operand).seq fun shape => .check h fun _ => .addUnary _ _ _ _ _
  · refine Agree.advance.bind fun _ _ _ => Agree.current.bind fun start start' hstart => ?_
    exact (hself _).seq fun operand => step_agree _ _ operand hstart h
  · refine Agree.advance.bind fun _ _ _ => Agree.current.bind fun start start' hstart => ?_
    exact (hself _).seq fun operand => step_agree _ _ operand hstart h
  · exact suffixed_agree hself

/-! ## Operators -/

theorem binaryStep_agree (least : Nat) (left left' : NodeId) (hleft : left = left') :
    Agree (Agree.AfterTurn Eq Eq) (binaryStep self least left) (binaryStep self' least left') := by
  subst hleft
  refine Agree.current.bind fun token token' h => ?_
  have hbinary : binaryAt? token' = binaryAt? token := by rw [binaryAt?, h, binaryAt?]
  rw [hbinary]
  split
  · exact .pure rfl
  · refine .ite (fun _ => .pure rfl) fun _ => ?_
    refine Agree.advance.bind fun _ _ _ => (hself _).seq fun right => ?_
    refine (Agree.shapeAt left).seq fun leftShape => (Agree.shapeAt right).seq fun rightShape => ?_
    split
    · exact .failAt h _
    · exact (Agree.addBinary _ _ _ _ _ _).seq fun node => .pure rfl

theorem binary_agree (least : Nat) : Agree Eq (binary self least) (binary self' least) :=
  (unary_agree hself).seq fun _ => .loop (binaryStep_agree hself least) rfl

theorem conditional_agree : Agree Eq (conditional self) (conditional self') := by
  refine (binary_agree hself 1).seq fun condition => (Agree.isAt _).seq fun isChoice => ?_
  refine .ite (fun _ => .pure rfl) fun _ => Agree.advance.bind fun token token' h => ?_
  refine (Agree.shapeAt condition).seq fun shape => .check h fun _ => (hself _).seq fun yes => ?_
  refine (Agree.expectLexeme _).bind fun colon colon' hcolon => (hself _).seq fun no => ?_
  refine (Agree.shapeAt yes).seq fun yesShape => (Agree.shapeAt no).seq fun noShape => ?_
  split
  · exact .failAt hcolon _
  · exact .addNode rfl

theorem assignment_agree : Agree Eq (assignment self) (assignment self') := by
  refine Agree.current.bind fun start start' hstart => (conditional_agree hself).seq fun left => ?_
  refine Agree.current.bind fun mark mark' hmark => ?_
  have hassignment : assignmentAt? mark' = assignmentAt? mark := by
    rw [assignmentAt?, hmark, assignmentAt?]
  rw [hassignment]
  split
  · exact .pure rfl
  · refine Agree.advance.bind fun token token' h => ?_
    refine (checkTarget_agree left hstart _).seq fun _ => (hself _).seq fun right => ?_
    refine (Agree.shapeAt left).seq fun leftShape => (Agree.shapeAt right).seq fun rightShape => ?_
    split
    · exact .check h fun _ => .addBinary _ _ _ _ _ _
    · split
      · exact .failAt_bind h _
      · exact .check h fun _ => .addBinary _ _ _ _ _ _

theorem commaStep_agree (left left' : NodeId) (hleft : left = left') :
    Agree (Agree.AfterTurn Eq Eq) (commaStep self left) (commaStep self' left') := by
  subst hleft
  refine (Agree.isAt _).seq fun isComma => .ite (fun _ => .pure rfl) fun _ => ?_
  refine Agree.advance.bind fun token token' h => (hself _).seq fun right => ?_
  refine (Agree.shapeAt right).seq fun shape => ?_
  exact (Agree.addBinary _ _ _ _ _ _).seq fun node => .pure rfl

theorem expression_agree : Agree Eq (expression self) (expression self') :=
  (assignment_agree hself).seq fun _ => .loop (commaStep_agree hself) rfl

/-! ## The grammar -/

theorem rules_agree (rule : Rule) : Agree Eq (rules self rule) (rules self' rule) := by
  cases rule with
  | expression => exact expression_agree hself
  | assignment => exact assignment_agree hself
  | unary => exact unary_agree hself
  | binary least => exact binary_agree hself least

end

theorem parse_agree (rule : Rule) : Agree Eq (parse rule) (parse rule) :=
  .knot (fun _ _ hself => rules_agree hself) rule

theorem parseConditional_agree : Agree Eq parseConditional parseConditional :=
  conditional_agree parse_agree

end ShaderCost.Expression
