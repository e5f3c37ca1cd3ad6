import ShaderCost.Proofs.Grammar.Cuts

/-! # Expressions that are cut off

An expression needs a token, and reading it goes the same way up to a cut (`parse_needs`). The
lemmas follow the grammar rule by rule; a rule that looks at the token in front has one case more,
for the cut.
-/

namespace ShaderCost.Expression

open ShaderCost.Parser

variable {c : Cut} {s s' : ParserState} {token : Token}

/-! ## Targets of assignments -/

theorem checkTarget_mirrors (htoken : token ∈ c.readable) (id : NodeId) (op : Symbol) :
    (checkTarget id token op).Mirrors c s s' := by
  refine .get (fun _ => rfl) (Mirrors.found.bind fun base s₁ s₁' => ?_)
  refine .ite (fun _ => ?_) fun _ => .failAt htoken
  split
  · exact .ite (fun _ => .failAt htoken) fun _ => .pure
  · exact .pure

/-! ## Selectors and subscripts -/

theorem selector_mirrors (htoken : token ∈ c.readable) (base : NodeId) (name : String) :
    (selector base token name).Mirrors c s s' := by
  refine Mirrors.shapeAt.bind fun shape s s' => .ite (fun _ => ?_) fun _ => ?_
  · refine .get (fun _ => rfl) (Mirrors.found.bind fun decl s s' => ?_)
    split
    · exact .failAt htoken
    · exact Mirrors.addNode.bind fun place s s' => .addNode
  · refine .ite (fun _ => .failAt htoken) fun _ => ?_
    split
    · exact .failAt htoken
    · exact Mirrors.addNode.bind fun place s s' => .addNode
    · refine .bind (.mapM (fun component s s' => .addNode) _) fun places s s' => ?_
      exact Mirrors.addNode.bind fun selected s s' => .addNode

section

variable {self : Rule → Parser NodeId} (hself : ∀ rule, Needs c (self rule))

include hself

theorem subscript_mirrors (htoken : token ∈ c.readable) (base : NodeId) :
    (subscript self base token).Mirrors c s s' := by
  refine Mirrors.shapeAt.bind fun shape s s' => .check htoken ?_
  refine ((hself _).mirrors s s').bind fun index s s' => Mirrors.nodeAt.bind fun place s s' => ?_
  refine .check htoken ?_
  split
  · exact .addNode
  · exact .check htoken .addNode

/-! ## Calls -/

theorem argumentStep_mirrors (args : List NodeId) :
    (argumentStep self args).Mirrors c s s' := by
  refine .isAt fun atEnd _ => .ite (fun _ => .pure) fun _ => ?_
  refine .optional (fun _ => .expects) fun s s' => ?_
  exact ((hself _).mirrors s s').bind fun arg s s' => .pure

theorem arguments_mirrors : (arguments self).Mirrors c s s' := by
  refine .expect fun _ => .skipWord fun s s' => ?_
  refine .bind (.loop fun args s s' => argumentStep_mirrors hself args) fun args s s' => ?_
  exact .expect fun _ => .pure

omit hself in
theorem constructorFields_mirrors (target : Shape) (name : String) :
    (constructorFields target name).Mirrors c s s' := by
  refine .ite (fun _ => .get (fun _ => rfl) ?_) fun _ => .pure
  exact Mirrors.found.bind fun decl s s' => .pure

theorem call_mirrors (htoken : token ∈ c.readable) (name : String) :
    (call self token name).Mirrors c s s' := by
  refine (arguments_mirrors hself).bind fun args s s' => ?_
  refine .bind (.mapM (fun arg s s' => .shapeAt) args) fun shapes s s' => ?_
  refine .get (fun _ => rfl) ?_
  split
  · refine (constructorFields_mirrors _ name).bind fun fields s s' => ?_
    split
    · exact .failAt htoken
    · exact .addNode
  · split
    · exact .check htoken (Mirrors.found.bind fun shape s s' => .addNode)
    · refine .ite (fun _ => ?_) fun _ => ?_
      · exact .ite (fun _ => .failAt_bind htoken) fun _ => .failAt_bind htoken
      · split
        · exact .failAt htoken
        · exact .addNode

/-! ## Operands -/

omit hself in
theorem named_mirrors (htoken : token ∈ c.readable) (name : String) :
    (named token name).Mirrors c s s' := by
  refine .get (fun _ => rfl) ?_
  split
  · exact .addNode
  · split
    · exact .failAt htoken
    · split
      · exact .addNode
      · exact .addNode

omit hself in
theorem literal_mirrors (htoken : token ∈ c.readable) (text : String) :
    (literal token text).Mirrors c s s' := by
  unfold literal
  split
  · exact .addNode
  · exact .failAt htoken
  · exact .failAt htoken

theorem primary_needs : Needs c (primary self) := by
  constructor
  · intro s s'
    refine .current (fun hreads => ?_) fun hcut => (hcut.fail _ _).outcome
    have htoken := hreads.mem
    split
    · exact .advance hreads (literal_mirrors htoken _)
    · exact .advance hreads (literal_mirrors htoken _)
    · exact .advance hreads (literal_mirrors htoken _)
    · exact .advance hreads (literal_mirrors htoken _)
    · refine .advance hreads (((hself _).mirrors _ _).bind fun inner s s' => ?_)
      exact .expect fun _ => .pure
    · refine .advance hreads (.isAt fun isCall _ => .ite (fun _ => ?_) fun _ => ?_)
      · exact call_mirrors hself htoken _
      · exact named_mirrors htoken _
    · exact .fail
  · intro s s' hcut
    unfold primary
    rw [run_current, run_current, hcut.front, hcut.front']
    exact hcut.fail _ _

omit hself in
theorem step_mirrors (op : Operator) (mark : Symbol) (operand : NodeId) {start : Token}
    (hstart : start ∈ c.readable) (htoken : token ∈ c.readable) :
    (step op mark operand start token).Mirrors c s s' := by
  refine (checkTarget_mirrors hstart operand mark).bind fun _ s s' => ?_
  exact Mirrors.shapeAt.bind fun shape s s' => .check htoken .addNode

theorem suffix_mirrors {start : Token} (hstart : start ∈ c.readable) (operand : NodeId) :
    (suffix self start operand).Mirrors c s s' := by
  refine .current (fun hreads => ?_) fun hcut => .ok hcut.twins
  have htoken := hreads.mem
  split
  · refine .advance hreads ((subscript_mirrors hself htoken operand).bind fun node s s' => ?_)
    exact .expect fun _ => .pure
  · refine .advance hreads (.expectName fun name hname => ?_)
    exact (selector_mirrors hname.mem operand name).bind fun node s s' => .pure
  · refine .advance hreads ?_
    exact (step_mirrors _ _ operand hstart htoken).bind fun node s s' => .pure
  · refine .advance hreads ?_
    exact (step_mirrors _ _ operand hstart htoken).bind fun node s s' => .pure
  · exact .pure

theorem suffixed_needs : Needs c (suffixed self) := by
  constructor
  · intro s s'
    refine .current (fun hreads => ?_) fun hcut => ?_
    · refine ((primary_needs hself).mirrors s s').bind fun operand s s' => ?_
      exact .loop fun operand s s' => suffix_mirrors hself hreads.mem operand
    · exact ((primary_needs hself).refuses s s' hcut).bind.outcome
  · intro s s' hcut
    exact ((primary_needs hself).refuses s s' hcut).bind

theorem unary_needs : Needs c (unary self) := by
  constructor
  · intro s s'
    refine .current (fun hreads => ?_) fun hcut => (suffixed_needs hself).mirrors s s' hcut.twins
    have htoken := hreads.mem
    split
    · refine .advance hreads (((hself _).mirrors _ _).bind fun operand s s' => ?_)
      exact Mirrors.shapeAt.bind fun shape s s' => .check htoken .pure
    · refine .advance hreads (((hself _).mirrors _ _).bind fun operand s s' => ?_)
      refine Mirrors.nodeAt.bind fun n s s' => .check htoken ?_
      split
      · exact .addNode
      · exact .addNode
    · refine .advance hreads (((hself _).mirrors _ _).bind fun operand s s' => ?_)
      exact Mirrors.shapeAt.bind fun shape s s' => .check htoken .addNode
    · refine .advance hreads (((hself _).mirrors _ _).bind fun operand s s' => ?_)
      exact Mirrors.shapeAt.bind fun shape s s' => .check htoken .addNode
    · refine .advance hreads (.current (fun hstart => ?_) fun hcut => ?_)
      · exact ((hself _).mirrors _ _).bind fun operand s s' =>
          step_mirrors _ _ operand hstart.mem htoken
      · exact ((hself _).refuses _ _ hcut).bind.outcome
    · refine .advance hreads (.current (fun hstart => ?_) fun hcut => ?_)
      · exact ((hself _).mirrors _ _).bind fun operand s s' =>
          step_mirrors _ _ operand hstart.mem htoken
      · exact ((hself _).refuses _ _ hcut).bind.outcome
    · exact (suffixed_needs hself).mirrors s s'
  · intro s s' hcut
    unfold unary
    rw [run_current, run_current, hcut.front, hcut.front']
    exact (suffixed_needs hself).refuses s s' hcut

/-! ## Operators -/

theorem binaryStep_mirrors (least : Nat) (left : NodeId) :
    (binaryStep self least left).Mirrors c s s' := by
  refine .current (fun hreads => ?_) fun hcut => .ok hcut.twins
  split
  · exact .pure
  · refine .ite (fun _ => .pure) fun _ => .advance hreads ?_
    refine ((hself _).mirrors _ _).bind fun right s s' => ?_
    refine Mirrors.shapeAt.bind fun leftShape s s' => Mirrors.shapeAt.bind fun rightShape s s' => ?_
    split
    · exact .failAt hreads.mem
    · exact Mirrors.addNode.bind fun node s s' => .pure

theorem binary_needs (least : Nat) : Needs c (binary self least) :=
  (unary_needs hself).bind fun _ _ _ => .loop fun left _ _ => binaryStep_mirrors hself least left

theorem conditional_needs : Needs c (conditional self) := by
  refine (binary_needs hself 1).bind fun condition s s' => .isAt fun isChoice hchoice => ?_
  refine .ite (fun _ => .pure) fun hno => ?_
  have hreads : c.Reads s s' := hchoice (by simpa using hno)
  refine .advance hreads (Mirrors.shapeAt.bind fun shape s s' => .check hreads.mem ?_)
  refine ((hself _).mirrors _ _).bind fun yes s s' => .expect fun hcolon => ?_
  refine ((hself _).mirrors _ _).bind fun no s s' => ?_
  refine Mirrors.shapeAt.bind fun yesShape s s' => Mirrors.shapeAt.bind fun noShape s s' => ?_
  split
  · exact .failAt hcolon.mem
  · exact .addNode

theorem assignment_needs : Needs c (assignment self) := by
  constructor
  · intro s s'
    refine .current (fun hstart => ?_) fun hcut => ?_
    · refine ((conditional_needs hself).mirrors _ _).bind fun left s s' => ?_
      refine .current (fun hreads => ?_) fun hcut => .ok hcut.twins
      split
      · exact .pure
      · have htoken := hreads.mem
        refine .advance hreads ?_
        refine (checkTarget_mirrors hstart.mem left _).bind fun _ s s' => ?_
        refine ((hself _).mirrors _ _).bind fun right s s' => ?_
        refine Mirrors.shapeAt.bind fun leftShape s s' => ?_
        refine Mirrors.shapeAt.bind fun rightShape s s' => ?_
        split
        · exact .check htoken .addNode
        · split
          · exact .failAt_bind htoken
          · exact .check htoken .addNode
    · exact ((conditional_needs hself).refuses s s' hcut).bind.outcome
  · intro s s' hcut
    unfold assignment
    rw [run_current, run_current]
    exact ((conditional_needs hself).refuses s s' hcut).bind

theorem commaStep_mirrors (left : NodeId) : (commaStep self left).Mirrors c s s' := by
  refine .isAt fun isComma hcomma => .ite (fun _ => .pure) fun hno => ?_
  have hreads : c.Reads s s' := hcomma (by simpa using hno)
  refine .advance hreads (((hself _).mirrors _ _).bind fun right s s' => ?_)
  refine Mirrors.shapeAt.bind fun shape s s' => ?_
  exact Mirrors.addNode.bind fun node s s' => .pure

theorem expression_needs : Needs c (expression self) :=
  (assignment_needs hself).bind fun _ _ _ => .loop fun left _ _ => commaStep_mirrors hself left

/-! ## The grammar -/

theorem rules_needs (rule : Rule) : Needs c (rules self rule) := by
  cases rule with
  | expression => exact expression_needs hself
  | assignment => exact assignment_needs hself
  | unary => exact unary_needs hself
  | binary least => exact binary_needs hself least

end

theorem parse_needs (rule : Rule) : Needs c (parse rule) :=
  .knot (fun _ hself => rules_needs hself) rule

theorem parseConditional_needs : Needs c parseConditional :=
  conditional_needs parse_needs

end ShaderCost.Expression
