import ShaderCost.Grammar.Expression
import ShaderCost.Proofs.Grammar.Ownership

/-! # Ownership in expressions

Every rule of the grammar of expressions makes one node and hands it out; what it has read before,
it puts below that node, but for literals that it folds (`parse_yields`).
-/

namespace ShaderCost.Expression

open ShaderCost.Parser

variable {self : Rule → Parser NodeId} {held : List NodeId}

theorem checkTarget_keeps (id : NodeId) (token : Token) (op : Symbol) :
    (checkTarget id token op).Keeps := by
  intro held
  refine Keeps.get.bind fun s => (found_keeps _).bind fun base => .ite ?_ (.failAt _ _)
  split
  · exact .ite (.failAt _ _) (Keeps.pure _ _)
  · exact Keeps.pure _ _

/-! ## Selectors and subscripts -/

theorem selector_builds (base : NodeId) (token : Token) (name : String) :
    (selector base token name).Builds (base :: held) fun id => id :: held := by
  refine (shapeAt_keeps base).bind fun shape => .ite ?_ (.ite (.failAt _ _) ?_)
  · refine Keeps.get.bind fun s => (found_keeps _).bind fun decl => ?_
    split
    · exact .failAt _ _
    · exact (addConstant_yields _ _).bind fun place => addBinary_builds
  · split
    · exact .failAt _ _
    · exact (addConstant_yields _ _).bind fun place => addBinary_builds
    · refine Builds.bind (.mapM (fun place => [place])
        (fun component held => addConstant_yields _ _ held) _) fun places => ?_
      rw [List.flatMap_singleton']
      refine Builds.bind (.addNode nofun (List.Perm.refl _)) fun selected => ?_
      exact addBinary_builds

theorem subscript_builds (hself : ∀ rule, (self rule).Yields) (base : NodeId) (token : Token) :
    (subscript self base token).Builds (base :: held) fun id => id :: held := by
  refine (shapeAt_keeps base).bind fun shape => .check ?_
  refine (hself _).bind fun index => ?_
  refine (nodeAt_keeps index).bind fun place => .check ?_
  split
  · exact addBinary_builds
  · exact .check addBinary_builds

/-! ## Calls -/

/-- The arguments so far are at hand. -/
theorem argumentStep_builds (hself : ∀ rule, (self rule).Yields) (args : List NodeId) :
    (argumentStep self args).Builds (args ++ held) (heldAfter (· ++ held) (· ++ held)) := by
  refine (isAt_keeps _).bind fun closing => .ite ?_ (.optional (expect_keeps _) ?_)
  · exact .pure ((List.reverse_perm args).append_right held)
  · exact (hself _).bind fun arg => .pure (List.Perm.refl _)

theorem arguments_builds (hself : ∀ rule, (self rule).Yields) :
    (arguments self).Builds held fun args => args ++ held := by
  refine (expect_keeps _).bind fun _ => ?_
  refine current_keeps.bind fun token => ?_
  refine following_keeps.bind fun next => .optional advance_keeps ?_
  refine Builds.bind (.loop (· ++ held) (· ++ held) (argumentStep_builds hself)) fun args => ?_
  exact (expect_keeps _).bind fun _ => .pure (List.Perm.refl _)

theorem constructorFields_keeps (target : Shape) (name : String) :
    (constructorFields target name).Keeps := by
  intro held
  refine .ite (Keeps.get.bind fun s => ?_) (Keeps.pure _ _)
  exact (found_keeps _).bind fun decl => Keeps.pure _ _

theorem call_yields (hself : ∀ rule, (self rule).Yields) (token : Token) (name : String) :
    (call self token name).Yields := by
  intro held
  refine (arguments_builds hself).bind fun args => ?_
  refine (Keeps.mapM shapeAt_keeps args).bind fun shapes => ?_
  refine Keeps.get.bind fun s => ?_
  split
  · refine (constructorFields_keeps _ _).bind fun fields => ?_
    split
    · exact .failAt _ _
    · exact .addNode nofun (List.Perm.refl _)
  · split
    · -- with one operand or with several, the node has the arguments below it
      refine .check ((found_keeps _).bind fun shape => ?_)
      cases args.length == 1 <;> exact .addNode nofun (List.Perm.refl _)
    · refine .ite (.check .failAt_bind) ?_
      simp only
      split
      · exact .failAt _ _
      · exact .addNode nofun (List.Perm.refl _)

/-! ## Operands -/

theorem named_yields (token : Token) (name : String) : (named token name).Yields := by
  intro held
  refine Keeps.get.bind fun s => ?_
  split
  · exact addConstant_yields _ _ held
  · split
    · exact .failAt _ _
    · split
      · exact addConstant_yields _ _ held
      · exact .addNode nofun (List.Perm.refl _)

theorem literal_yields (token : Token) (text : String) : (literal token text).Yields := by
  intro held
  unfold literal
  split
  · exact addConstant_yields _ _ held
  · exact .failAt _ _
  · exact .failAt _ _

theorem primary_yields (hself : ∀ rule, (self rule).Yields) : (primary self).Yields := by
  intro held
  refine current_keeps.bind fun token => ?_
  split
  · exact advance_keeps.bind fun _ => literal_yields _ _ held
  · exact advance_keeps.bind fun _ => literal_yields _ _ held
  · exact advance_keeps.bind fun _ => literal_yields _ _ held
  · exact advance_keeps.bind fun _ => literal_yields _ _ held
  · refine advance_keeps.bind fun _ => ?_
    refine (hself _).bind fun inner => ?_
    exact (expect_keeps _).bind fun _ => .pure (List.Perm.refl _)
  · refine advance_keeps.bind fun _ => ?_
    refine (isAt_keeps _).bind fun applied => .ite ?_ ?_
    · exact call_yields hself _ _ held
    · exact named_yields _ _ held
  · exact .fail _

theorem step_builds (op : Operator) (mark : Symbol) (operand : NodeId) (start token : Token) :
    (step op mark operand start token).Builds (operand :: held) fun id => id :: held := by
  refine (checkTarget_keeps _ _ _).bind fun _ => ?_
  exact (shapeAt_keeps _).bind fun shape => .check addUnary_builds

theorem suffix_builds (hself : ∀ rule, (self rule).Yields) (start : Token) (operand : NodeId) :
    (suffix self start operand).Builds (operand :: held)
      (heldAfter (fun id => id :: held) fun id => id :: held) := by
  have hagain : ∀ node : NodeId, (pure (.again node) : Parser (Turn NodeId NodeId)).Builds
      (node :: held) (heldAfter (fun id => id :: held) fun id => id :: held) := fun node =>
    .pure (List.Perm.refl _)
  refine current_keeps.bind fun token => ?_
  split
  · refine advance_keeps.bind fun _ => ?_
    refine (subscript_builds hself _ _).bind fun node => ?_
    exact (expect_keeps _).bind fun _ => hagain node
  · refine advance_keeps.bind fun _ => ?_
    refine expectName_keeps.bind fun _ => ?_
    exact (selector_builds _ _ _).bind hagain
  · refine advance_keeps.bind fun _ => ?_
    exact (step_builds _ _ _ _ _).bind hagain
  · refine advance_keeps.bind fun _ => ?_
    exact (step_builds _ _ _ _ _).bind hagain
  · exact .pure (List.Perm.refl _)

theorem suffixed_yields (hself : ∀ rule, (self rule).Yields) : (suffixed self).Yields := by
  intro held
  refine current_keeps.bind fun start => ?_
  refine (primary_yields hself).bind fun operand => ?_
  exact .loop (fun id => id :: held) _ (suffix_builds hself start)

theorem unary_yields (hself : ∀ rule, (self rule).Yields) : (unary self).Yields := by
  intro held
  refine current_keeps.bind fun token => ?_
  split
  · refine advance_keeps.bind fun _ => ?_
    refine (hself _).bind fun operand => ?_
    exact (shapeAt_keeps _).bind fun shape => .check (.pure (List.Perm.refl _))
  · refine advance_keeps.bind fun _ => ?_
    refine (hself _).bind fun operand => ?_
    refine .nodeAt fun n => ?_
    cases hvalue : n.constant? with
    | some value =>
      -- the literal makes way for the one with the other sign
      exact Or.inr ⟨rfl, .check (.addNode nofun (List.Perm.refl _))⟩
    | none => exact Or.inl (.check addUnary_builds)
  · refine advance_keeps.bind fun _ => ?_
    refine (hself _).bind fun operand => ?_
    exact (shapeAt_keeps _).bind fun shape => .check addUnary_builds
  · refine advance_keeps.bind fun _ => ?_
    refine (hself _).bind fun operand => ?_
    exact (shapeAt_keeps _).bind fun shape => .check addUnary_builds
  · refine advance_keeps.bind fun _ => ?_
    refine current_keeps.bind fun start => ?_
    exact (hself _).bind fun operand => step_builds _ _ _ _ _
  · refine advance_keeps.bind fun _ => ?_
    refine current_keeps.bind fun start => ?_
    exact (hself _).bind fun operand => step_builds _ _ _ _ _
  · exact suffixed_yields hself held

/-! ## Operators -/

theorem binaryStep_builds (hself : ∀ rule, (self rule).Yields) (least : Nat) (left : NodeId) :
    (binaryStep self least left).Builds (left :: held)
      (heldAfter (fun id => id :: held) fun id => id :: held) := by
  refine current_keeps.bind fun token => ?_
  split
  · exact .pure (List.Perm.refl _)
  · refine .ite (.pure (List.Perm.refl _)) ?_
    refine advance_keeps.bind fun _ => ?_
    refine (hself _).bind fun right => ?_
    refine (shapeAt_keeps _).bind fun leftShape => ?_
    refine (shapeAt_keeps _).bind fun rightShape => ?_
    split
    · exact .failAt _ _
    · exact addBinary_builds.bind fun node => .pure (List.Perm.refl _)

theorem binary_yields (hself : ∀ rule, (self rule).Yields) (least : Nat) :
    (binary self least).Yields := by
  intro held
  refine (unary_yields hself).bind fun left => ?_
  exact .loop (fun id => id :: held) _ (binaryStep_builds hself least)

theorem conditional_yields (hself : ∀ rule, (self rule).Yields) : (conditional self).Yields := by
  intro held
  refine (binary_yields hself 1).bind fun condition => ?_
  refine (isAt_keeps _).bind fun question => .ite (.pure (List.Perm.refl _)) ?_
  refine advance_keeps.bind fun token => ?_
  refine (shapeAt_keeps _).bind fun shape => .check ?_
  refine (hself _).bind fun yes => ?_
  refine (expect_keeps _).bind fun colon => ?_
  refine (hself _).bind fun no => ?_
  refine (shapeAt_keeps _).bind fun yesShape => ?_
  refine (shapeAt_keeps _).bind fun noShape => ?_
  split
  · exact .failAt _ _
  · exact .addNode nofun ((List.reverse_perm [condition, yes, no]).append_right held)

theorem assignment_yields (hself : ∀ rule, (self rule).Yields) : (assignment self).Yields := by
  intro held
  refine current_keeps.bind fun start => ?_
  refine (conditional_yields hself).bind fun left => ?_
  refine current_keeps.bind fun token => ?_
  split
  · exact .pure (List.Perm.refl _)
  · refine advance_keeps.bind fun token => ?_
    refine (checkTarget_keeps _ _ _).bind fun _ => ?_
    refine (hself _).bind fun right => ?_
    refine (shapeAt_keeps _).bind fun leftShape => ?_
    refine (shapeAt_keeps _).bind fun rightShape => ?_
    simp only
    split
    · exact .check addBinary_builds
    · split
      · exact .failAt_bind
      · exact .check addBinary_builds

theorem commaStep_builds (hself : ∀ rule, (self rule).Yields) (left : NodeId) :
    (commaStep self left).Builds (left :: held)
      (heldAfter (fun id => id :: held) fun id => id :: held) := by
  refine (isAt_keeps _).bind fun comma => .ite (.pure (List.Perm.refl _)) ?_
  refine advance_keeps.bind fun token => ?_
  refine (hself _).bind fun right => ?_
  refine (shapeAt_keeps _).bind fun shape => ?_
  exact addBinary_builds.bind fun node => .pure (List.Perm.refl _)

theorem expression_yields (hself : ∀ rule, (self rule).Yields) : (expression self).Yields := by
  intro held
  refine (assignment_yields hself).bind fun first => ?_
  exact .loop (fun id => id :: held) _ (commaStep_builds hself)

/-! ## The grammar -/

theorem rules_yields (hself : ∀ rule, (self rule).Yields) (rule : Rule) :
    (rules self rule).Yields := by
  cases rule with
  | expression => exact expression_yields hself
  | assignment => exact assignment_yields hself
  | unary => exact unary_yields hself
  | binary least => exact binary_yields hself least

theorem parse_yields (rule : Rule) : (parse rule).Yields :=
  Builds.knot (fun _ hself => rules_yields hself) rule

theorem parseConditional_yields : parseConditional.Yields := conditional_yields parse_yields

end ShaderCost.Expression
