import ShaderCost.Proofs.Grammar.Exchange

/-! # Expressions with a literal in the place of a name

An expression is where a name can be an operand. The literal makes the node that the name makes when
it stands for the same value (`primary_atUse`). What is read before and behind them does not tell
them apart: the tokens that are kept for complaints serve by their place only.
-/

namespace ShaderCost.Expression

open ShaderCost.Parser

variable {x : Exchange} {token : Token}

/-! ## Complaints at an operand -/

theorem checkTarget_operand (h : x.Operand token) (id : NodeId) (op : Symbol) :
    checkTarget id token op = checkTarget id x.use op := by
  cases h <;> rfl

theorem step_operand (h : x.Operand token) (op : Operator) (mark : Symbol) (operand : NodeId)
    (sign : Token) : step op mark operand token sign = step op mark operand x.use sign := by
  unfold step
  rw [checkTarget_operand h]

theorem suffix_operand (h : x.Operand token) (self : Rule → Parser NodeId) :
    suffix self token = suffix self x.use := by
  funext operand
  unfold suffix
  simp only [step_operand h]

/-! ## Targets of assignments -/

theorem checkTarget_tracks (id : NodeId) (op : Symbol) :
    Tracks x (checkTarget id token op) (checkTarget id token op) := by
  refine .get (fun _ _ => rfl) fun s => Tracks.found.bind fun base => ?_
  refine .ite (fun _ => ?_) fun _ => .failAt
  split
  · exact .ite (fun _ => .failAt) fun _ => .pure
  · exact .pure

/-! ## Selectors and subscripts -/

theorem selector_tracks (base : NodeId) (name : String) :
    Tracks x (selector base token name) (selector base token name) := by
  refine Tracks.shapeAt.bind fun shape => .ite (fun _ => ?_) fun _ => ?_
  · refine .get (fun _ _ => rfl) fun s => Tracks.found.bind fun decl => ?_
    split
    · exact .failAt
    · exact Tracks.addNode.bind fun place => .addNode
  · refine .ite (fun _ => .failAt) fun _ => ?_
    split
    · exact .failAt
    · exact Tracks.addNode.bind fun place => .addNode
    · refine .bind (.mapM (fun component => .addNode) _) fun places => ?_
      exact Tracks.addNode.bind fun selected => .addNode

section

variable {self self' : Rule → Parser NodeId} (hself : ∀ rule, Tracks x (self rule) (self' rule))

include hself

theorem subscript_tracks (base : NodeId) :
    Tracks x (subscript self base token) (subscript self' base token) := by
  refine Tracks.shapeAt.bind fun shape => .check ?_
  refine (hself _).bind fun index => Tracks.nodeAt.bind fun place => .check ?_
  split
  · exact .addNode
  · exact .check .addNode

/-! ## Calls -/

theorem argumentStep_tracks (args : List NodeId) :
    Tracks x (argumentStep self args) (argumentStep self' args) := by
  refine .isAt fun atEnd => .ite (fun _ => .pure) fun _ => ?_
  exact .optional (Takes.expectLexeme _).tracks ((hself _).bind fun arg => .pure)

theorem arguments_tracks : Tracks x (arguments self) (arguments self') := by
  refine .expect fun _ => .skipWord ?_
  exact .bind (.loop fun args => argumentStep_tracks hself args) fun args => .expect fun _ => .pure

omit hself in
theorem constructorFields_tracks (target : Shape) (name : String) :
    Tracks x (constructorFields target name) (constructorFields target name) := by
  refine .ite (fun _ => .get (fun _ _ => rfl) fun s => ?_) fun _ => .pure
  exact Tracks.found.bind fun decl => .pure

theorem call_tracks (name : String) : Tracks x (call self token name) (call self' token name) := by
  refine (arguments_tracks hself).bind fun args => ?_
  refine .bind (.mapM (fun arg => .shapeAt) args) fun shapes => .get (fun _ _ => rfl) fun s => ?_
  split
  · refine (constructorFields_tracks _ name).bind fun fields => ?_
    split
    · exact .failAt
    · exact .addNode
  · split
    · exact .check (Tracks.found.bind fun shape => .addNode)
    · refine .ite (fun _ => ?_) fun _ => ?_
      · exact .ite (fun _ => .failAt_bind) fun _ => .failAt_bind
      · split
        · exact .failAt
        · exact .addNode

/-! ## Operands -/

omit hself in
theorem named_tracks (name : String) : Tracks x (named token name) (named token name) := by
  refine .get (fun _ _ => rfl) fun s => ?_
  split
  · exact .addNode
  · split
    · exact .failAt
    · split
      · exact .addNode
      · exact .addNode

omit hself in
theorem named_of_expansion {s : ParserState} {name : String} {value : Constant}
    (h : s.expansion? name = some value) :
    named token name s = addConstant value token.line s := by
  unfold named
  rw [run_get, h]

omit hself in
theorem literal_tracks (text : String) : Tracks x (literal token text) (literal token text) := by
  unfold literal
  split
  · exact .addNode
  · exact .failAt
  · exact .failAt

omit hself in
/-- A literal makes a node of its value. -/
theorem primary_of_value [Naming] {s : ParserState} {value : Constant}
    (h : Literal.value s.front.lexeme = .ok value) :
    primary self s = addConstant value s.front.line s.next := by
  have hrun : ∀ text, (advance >>= fun _ => literal s.front text) s =
      addConstant value s.front.line s.next := by
    intro text
    rw [run_advance]
    · unfold literal
      rw [h]
    · intro error hbad
      rw [hbad] at h
      cases h
  unfold primary
  rw [run_current]
  cases hlexeme : s.front.lexeme with
  | int text => exact hrun text
  | uint text => exact hrun text
  | float text => exact hrun text
  | bool b => exact hrun _
  | _ =>
    rw [hlexeme] at h
    cases h

omit hself in
/-- A name is called if a parenthesis follows it. -/
theorem primary_of_name [Naming] {s : ParserState} {text : String}
    (h : s.front.lexeme = .name text) :
    primary self s =
      if s.next.front.lexeme = .symbol .leftParen then call self s.front text s.next
      else Naming.read s.front text s.next := by
  unfold primary
  rw [run_current]
  simp only [h]
  rw [run_advance_of_name h, run_isAt]
  simp only [beq_iff_eq]
  split <;> rfl

/-- At the exchange a call consumes the name, and an operand stands for the value of the literal. -/
theorem primary_atUse {s s' : ParserState} (h : x.AtUse s s') :
    x.Outcome (primary self s) (@primary x.naming self' s) (primary self s') := by
  have hfront := Exchange.front_of_rest h.rest
  have hname : s.front.lexeme = .name x.name := by
    rw [hfront]
    rfl
  rw [primary_of_name hname, @primary_of_name _ x.naming _ _ hname]
  split
  · exact ((call_tracks hself x.name).behind s.next (Exchange.length_next h.rest).le).outcome _
  · have hhalted : x.naming.read s.front x.name s.next =
        .error (x.report ⟨s.front, x.name, s.next⟩) := if_pos (Exchange.length_next h.rest)
    rw [hhalted]
    refine .stopped fun hvalue => ?_
    have hliteral : Literal.value s'.front.lexeme = .ok x.value := by
      rw [h.front', x.literal_value]
    rw [primary_of_value hliteral, h.next, h.front', x.literal_line]
    have hline : s.front.line = x.place.line := by
      rw [hfront]
      rfl
    rw [← hline]
    exact named_of_expansion hvalue

theorem primary_tracks : Tracks x (primary self) (@primary x.naming self') := by
  refine .current_operand (fun token hother => ?_) (fun token text hname => ?_)
    fun s s' => primary_atUse hself
  · split
    · exact .advance fun _ => literal_tracks _
    · exact .advance fun _ => literal_tracks _
    · exact .advance fun _ => literal_tracks _
    · exact .advance fun _ => literal_tracks _
    · exact .advance fun _ => (hself _).bind fun inner => .expect fun _ => .pure
    · next text hname => exact absurd hname (hother text)
    · exact .fail
  · -- away from the exchange, names are read as the language has it
    simp only [hname]
    refine ⟨advance >>= fun _ => isAt .leftParen >>= fun isCall =>
      if isCall = true then call self' token text else named token text, ?_, ?_⟩
    · exact .advance fun _ => .isAt fun _ =>
        .ite (fun _ => call_tracks hself text) fun _ => named_tracks text
    · intro s hfront hlength
      have hread : s.front.lexeme = .name text := by rw [hfront, hname]
      rw [run_advance_of_name hread, run_advance_of_name hread]
      cases hcall : s.next.front.lexeme == .symbol .leftParen with
      | true => rw [run_isAt, run_isAt, hcall]; rfl
      | false => rw [run_isAt, run_isAt, hcall]; exact if_neg hlength

omit hself in
theorem step_tracks (op : Operator) (mark : Symbol) (operand : NodeId) (start : Token) :
    Tracks x (step op mark operand start token) (step op mark operand start token) := by
  refine (checkTarget_tracks operand mark).bind fun _ => ?_
  exact Tracks.shapeAt.bind fun shape => .check .addNode

theorem suffix_tracks (start : Token) (operand : NodeId) :
    Tracks x (suffix self start operand) (suffix self' start operand) := by
  refine .current_same (fun token => ?_) ?_
  · split
    · exact .advance fun _ => (subscript_tracks hself operand).bind fun node =>
        .expect fun _ => .pure
    · exact .advance fun _ => Takes.expectName.tracks.bind fun name =>
        (selector_tracks operand name.2).bind fun node => .pure
    · exact .advance fun _ => (step_tracks _ _ operand start).bind fun node => .pure
    · exact .advance fun _ => (step_tracks _ _ operand start).bind fun node => .pure
    · exact .pure
  · rintro _ ⟨⟩ <;> rfl

theorem suffixed_tracks : Tracks x (suffixed self) (@suffixed x.naming self') := by
  refine .current_same (fun start => ?_) fun token h => ?_
  · exact (primary_tracks hself).bind fun operand => .loop (suffix_tracks hself start)
  · simp only [suffix_operand h]

theorem unary_tracks : Tracks x (unary self) (@unary x.naming self') := by
  -- the start of an operand behind a step is kept for complaints about it
  have hstep : ∀ op mark sign, Tracks x
      (current >>= fun start => self .unary >>= fun id => step op mark id start sign)
      (current >>= fun start => self' .unary >>= fun id => step op mark id start sign) := by
    intro op mark sign
    refine .current_same (fun start => ?_) fun _ h => ?_
    · exact (hself _).bind fun operand => step_tracks op mark operand start
    · simp only [step_operand h]
  refine .current_same (fun token => ?_) ?_
  · split
    · refine .advance fun _ => (hself _).bind fun operand => ?_
      exact Tracks.shapeAt.bind fun shape => .check .pure
    · refine .advance fun _ => (hself _).bind fun operand => Tracks.nodeAt.bind fun n => .check ?_
      split
      · exact .addNode
      · exact .addNode
    · refine .advance fun _ => (hself _).bind fun operand => ?_
      exact Tracks.shapeAt.bind fun shape => .check .addNode
    · refine .advance fun _ => (hself _).bind fun operand => ?_
      exact Tracks.shapeAt.bind fun shape => .check .addNode
    · exact .advance fun _ => hstep _ _ _
    · exact .advance fun _ => hstep _ _ _
    · exact suffixed_tracks hself
  · rintro _ ⟨⟩ <;> rfl

/-! ## Operators -/

theorem binaryStep_tracks (least : Nat) (left : NodeId) :
    Tracks x (binaryStep self least left) (binaryStep self' least left) := by
  refine .current_same (fun token => ?_) ?_
  · split
    · exact .pure
    · refine .ite (fun _ => .pure) fun _ => .advance fun _ => (hself _).bind fun right => ?_
      refine Tracks.shapeAt.bind fun leftShape => Tracks.shapeAt.bind fun rightShape => ?_
      split
      · exact .failAt
      · exact Tracks.addNode.bind fun node => .pure
  · rintro _ ⟨⟩ <;> rfl

theorem binary_tracks (least : Nat) : Tracks x (binary self least) (@binary x.naming self' least) :=
  (unary_tracks hself).bind fun _ => .loop (binaryStep_tracks hself least)

theorem conditional_tracks : Tracks x (conditional self) (@conditional x.naming self') := by
  refine (binary_tracks hself 1).bind fun condition => .isAt fun isChoice => ?_
  refine .ite (fun _ => .pure) fun _ => .advance fun _ => Tracks.shapeAt.bind fun shape => .check ?_
  refine (hself _).bind fun yes => .expect fun colon => (hself _).bind fun no => ?_
  refine Tracks.shapeAt.bind fun yesShape => Tracks.shapeAt.bind fun noShape => ?_
  split
  · exact .failAt
  · exact .addNode

theorem assignment_tracks : Tracks x (assignment self) (@assignment x.naming self') := by
  refine .current_same (fun start => (conditional_tracks hself).bind fun left => ?_) fun _ h => ?_
  · refine .current_same (fun token => ?_) ?_
    · split
      · exact .pure
      · refine .advance fun _ => (checkTarget_tracks left _).bind fun _ => (hself _).bind ?_
        intro right
        refine Tracks.shapeAt.bind fun leftShape => Tracks.shapeAt.bind fun rightShape => ?_
        split
        · exact .check .addNode
        · split
          · exact .failAt_bind
          · exact .check .addNode
    · rintro _ ⟨⟩ <;> rfl
  · simp only [checkTarget_operand h]

theorem commaStep_tracks (left : NodeId) :
    Tracks x (commaStep self left) (commaStep self' left) := by
  refine .isAt fun isComma => .ite (fun _ => .pure) fun _ => .advance fun _ => ?_
  refine (hself _).bind fun right => Tracks.shapeAt.bind fun shape => ?_
  exact Tracks.addNode.bind fun node => .pure

theorem expression_tracks : Tracks x (expression self) (@expression x.naming self') :=
  (assignment_tracks hself).bind fun _ => .loop (commaStep_tracks hself)

/-! ## The grammar -/

theorem rules_tracks (rule : Rule) : Tracks x (rules self rule) (@rules x.naming self' rule) := by
  cases rule with
  | expression => exact expression_tracks hself
  | assignment => exact assignment_tracks hself
  | unary => exact unary_tracks hself
  | binary least => exact binary_tracks hself least

end

theorem parse_tracks (rule : Rule) : Tracks x (parse rule) (@parse x.naming rule) :=
  .knot (fun _ _ hself => rules_tracks hself) rule

theorem parseConditional_tracks : Tracks x parseConditional (@parseConditional x.naming) :=
  conditional_tracks parse_tracks

end ShaderCost.Expression
