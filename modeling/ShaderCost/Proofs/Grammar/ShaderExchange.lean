import ShaderCost.Proofs.Grammar.ExpressionExchange

/-! # Shaders with a literal in the place of a name

Outside of expressions a name is a type, or it is declared: then the rule consumes it where it is
(`Takes`). Statements are told from declarations by the two tokens in front, and here the lists can
part: behind the name of a type, a name is declared and a literal is not. What is declared consumes
the name (`declaration_bypasses`), so this is no way to come to it as an operand.
-/

namespace ShaderCost

open ShaderCost.Parser

variable {x : Exchange} {s s' : ParserState} {token : Token}

/-! ## Directives -/

namespace Directive

theorem define_tracks (words : List Bytes) :
    Tracks x (define token words) (define token words) := by
  unfold define
  split
  · exact .failAt
  · refine .check ?_
    split
    · exact .failAt
    · split
      · exact .failAt
      · exact .failAt
      · exact .modify fun _ _ => rfl

theorem parse_tracks (text : Bytes) : Tracks x (parse token text) (parse token text) := by
  unfold parse
  split
  · exact .pure
  · refine .ite (fun _ => .pure) fun _ => .ite (fun _ => define_tracks _) fun _ => ?_
    exact .ite (fun _ => .failAt) fun _ => .failAt

end Directive

/-! ## Declarations -/

namespace Declaration

theorem parenthesesStep_tracks (depth : Nat) :
    Tracks x (parenthesesStep depth) (parenthesesStep depth) := by
  refine .advance fun token => ?_
  split
  · exact .pure
  · exact .ite (fun _ => .pure) fun _ => .pure
  · exact .fail
  · exact .pure

theorem skipParentheses_tracks : Tracks x skipParentheses skipParentheses :=
  .expect fun _ => .loop parenthesesStep_tracks

theorem qualifierStep_tracks (q : Qualifiers) : Tracks x (qualifierStep q) (qualifierStep q) := by
  refine .current_same (fun token => ?_) ?_
  · split
    · exact .advance fun _ => .pure
    · exact .advance fun _ => .pure
    · exact .advance fun _ => .pure
    · exact .advance fun _ => skipParentheses_tracks.bind fun _ => .pure
    · exact .ite (fun _ => .advance fun _ => .pure) fun _ => .pure
    · exact .pure
  · rintro _ ⟨⟩ <;> rfl

theorem qualifiers_tracks : Tracks x qualifiers qualifiers := .loop qualifierStep_tracks

/-- A name is no qualifier. -/
theorem qualifiers_of_name {name : String} (h : s.front.lexeme = .name name) :
    qualifiers s = .ok ({}, s) := by
  unfold qualifiers loop loopWithin qualifierStep
  rw [bind_assoc, run_current]
  simp only [h]
  rfl

theorem arraySuffix_tracks (shape : Shape) :
    Tracks x (arraySuffix shape) (@arraySuffix x.naming shape) := by
  refine (Tracks.accept _).bind fun isArray => .ite (fun _ => .pure) fun _ => ?_
  refine .ite (fun _ => .fail_bind) fun _ => .current_same (fun token => ?_) ?_
  · refine Expression.parseConditional_tracks.bind fun size => Tracks.nodeAt.bind fun n => ?_
    split
    · exact .failAt
    · exact .check (.expect fun _ => .pure)
  · rintro _ ⟨⟩ <;> rfl

theorem fieldStep_takes (shape : Shape) (fields : List Field) :
    Takes x (fieldStep shape fields) (@fieldStep x.naming shape fields) := by
  refine Takes.expectName.bind fun name => (arraySuffix_tracks shape).bind fun fieldShape => ?_
  refine .check ((Tracks.accept _).bind fun more => ?_)
  exact .ite (fun _ => .pure) fun _ => .pure

theorem memberStep_tracks {specifier specifier' : Parser Shape}
    (hspecifier : Tracks x specifier specifier') (fields : List Field) :
    Tracks x (memberStep specifier fields) (@memberStep x.naming specifier' fields) := by
  refine (Tracks.accept _).bind fun closed => .ite (fun _ => .pure) fun _ => ?_
  refine qualifiers_tracks.bind fun _ => hspecifier.bind fun shape => ?_
  refine .bind (.loop fun fields => (fieldStep_takes shape fields).tracks) fun fields => ?_
  exact .expect fun _ => .pure

theorem structSpecifier_takes {specifier specifier' : Parser Shape}
    (hspecifier : Tracks x specifier specifier') :
    Takes x (structSpecifier specifier) (@structSpecifier x.naming specifier') := by
  refine (Takes.expectLexeme _).bind fun _ => Takes.expectName.tracks.bind fun name => ?_
  refine .get (fun _ _ => rfl) fun s => .check (.expect fun _ => ?_)
  refine .bind (.loop (memberStep_tracks hspecifier)) fun fields => ?_
  exact .bind (.modify fun _ _ => rfl) fun _ => .pure

theorem specifier_takes : Takes x specifier (@specifier x.naming) := by
  refine .knot (fun self self' hself _ => .current fun token => ?_) ()
  split
  · exact structSpecifier_takes (hself ())
  · refine Takes.advance.bind fun _ => .get (fun _ _ => rfl) fun s => ?_
    split
    · exact .pure
    · exact .failAt
  · exact .fail

/-! ## Where a declaration begins -/

/-- What begins is told by the token in front, and by the one behind it if that is a name. -/
theorem starts_alike (hfront : s'.front = s.front)
    (hnext : ∀ name, s.front.lexeme = .name name → s'.next.front = s.next.front)
    (hsame : s' = { s with rest := s'.rest }) :
    ∃ b, starts s = .ok (b, s) ∧ starts s' = .ok (b, s') := by
  have htype : s'.isTypeName = s.isTypeName := by
    rw [hsame]
    rfl
  unfold starts
  rw [run_current, run_current, hfront]
  cases hlexeme : s.front.lexeme with
  | keyword word => exact ⟨startsWith word, rfl, rfl⟩
  | name name =>
    simp only
    rw [run_following, run_following, hnext name hlexeme]
    cases s.next.front.lexeme with
    | name second =>
      refine ⟨s.isTypeName name, rfl, ?_⟩
      rw [← htype]
      rfl
    | _ => exact ⟨false, rfl, rfl⟩
  | _ => exact ⟨false, rfl, rfl⟩

/-- No declaration begins with a literal. -/
theorem starts_of_literal (h : s.front = x.literal) : starts s = .ok (false, s) := by
  have hoperand := x.operand_literal
  have hname := x.literal_ne_name
  rw [← h] at hoperand hname
  unfold starts
  rw [run_current]
  generalize s.front = token at hoperand hname
  cases hoperand with
  | name text => exact absurd rfl (hname text)
  | _ => rfl

/-- A literal behind a name declares nothing. -/
theorem starts_of_name_literal {name : String} (hfront : s.front.lexeme = .name name)
    (hnext : s.next.front = x.literal) : starts s = .ok (false, s) := by
  unfold starts
  rw [run_current]
  simp only [hfront]
  rw [run_following]
  cases hlexeme : s.next.front.lexeme with
  | name second => exact absurd (hnext ▸ hlexeme) (x.literal_ne_name second)
  | _ => rfl

/-- The lists part only where a name is in front and the exchange is among the first two tokens. -/
theorem starts_twins (h : x.Twins s s') :
    ∃ b b', starts s = .ok (b, s) ∧ starts s' = .ok (b', s') ∧
      (b = b' ∨ b' = false ∧ (∃ name, s.front.lexeme = .name name) ∧
        (s.rest = x.use :: x.after ∨ s.next.rest = x.use :: x.after)) := by
  obtain ⟨b, hb, -⟩ := starts_alike (s := s) rfl (fun _ _ => rfl) rfl
  rcases h.front_cases with hreads | hat
  · rcases hreads.next.front_cases with hnext | hat
    · obtain ⟨b, hb, hb'⟩ := starts_alike hreads.front (fun _ _ => hnext.front) h.same
      exact ⟨b, b, hb, hb', Or.inl rfl⟩
    -- two names in a row may declare the second one, a name and a literal do not
    · by_cases hname : ∃ name, s.front.lexeme = .name name
      · obtain ⟨name, hname⟩ := hname
        have hb' := starts_of_name_literal (hreads.front ▸ hname) hat.front'
        exact ⟨b, false, hb, hb', Or.inr ⟨rfl, ⟨name, hname⟩, Or.inr hat.rest⟩⟩
      · have hno : ∀ name, s.front.lexeme = .name name → s'.next.front = s.next.front :=
          fun name h => absurd ⟨name, h⟩ hname
        obtain ⟨b, hb, hb'⟩ := starts_alike hreads.front hno h.same
        exact ⟨b, b, hb, hb', Or.inl rfl⟩
  · have hname : s.front.lexeme = .name x.name := by
      rw [Exchange.front_of_rest hat.rest]
      rfl
    exact ⟨b, false, hb, starts_of_literal hat.front', Or.inr ⟨rfl, ⟨_, hname⟩, Or.inl hat.rest⟩⟩

/-- A declaration begins: where the lists part, it must consume the name. -/
theorem starts_tracks {α : Type} {p p' q q' : Parser α} (hp : Tracks x p p') (hq : Tracks x q q')
    (hbypasses : ∀ s name, s.front.lexeme = .name name →
      s.rest = x.use :: x.after ∨ s.next.rest = x.use :: x.after → Bypasses x p p' s) :
    Tracks x (starts >>= fun isDeclaration => if isDeclaration = true then p else q)
      (starts >>= fun isDeclaration => if isDeclaration = true then p' else q') where
  behind s hs := by
    obtain ⟨b, hb, -⟩ := starts_alike (s := s) rfl (fun _ _ => rfl) rfl
    have htracks : Tracks x (if b = true then p else q) (if b = true then p' else q') :=
      .ite (fun _ => hp) fun _ => hq
    exact (htracks.behind s hs).of_eq (bind_of_ok hb _) (bind_of_ok hb _)
  along s s' h := by
    obtain ⟨b, b', hb, hb', hcases⟩ := starts_twins h
    rw [bind_of_ok hb, bind_of_ok hb, bind_of_ok hb']
    rcases hcases with rfl | ⟨rfl, ⟨name, hname⟩, hnear⟩
    · split
      · exact hp.along s s' h
      · exact hq.along s s' h
    · split
      · exact (hbypasses s name hname hnear).outcome _
      · exact hq.along s s' h

/-! ## Declarators -/

/-- A name stands for a type, or there is a complaint about it. -/
theorem specifier_of_name [Expression.Naming] {name : String} (h : s.front.lexeme = .name name) :
    specifier s = (s.type? name).elim (failAt s.front (.unknownType name) s.next)
      fun shape => .ok (shape, s.next) := by
  unfold specifier knot knotWithin specifierRule
  rw [run_current]
  simp only [h]
  rw [run_advance_of_name h, run_get]
  change _ = (s.next.type? name).elim _ _
  cases s.next.type? name with
  | none => rfl
  | some shape => rfl

/-- Behind the name of a type, what is declared consumes a name. -/
theorem declaration_bypasses {α : Type} {f f' : Qualifiers → Shape → Parser α}
    (hf : ∀ q shape, Takes x (f q shape) (f' q shape)) {name : String}
    (hname : s.front.lexeme = .name name)
    (hnear : s.rest = x.use :: x.after ∨ s.next.rest = x.use :: x.after) :
    Bypasses x (qualifiers >>= fun q => specifier >>= f q)
      (qualifiers >>= fun q => @specifier x.naming >>= f' q) s := by
  have hbypasses : Bypasses x (specifier >>= f {}) (@specifier x.naming >>= f' {}) s := by
    rcases hnear with hat | hnext
    · exact (specifier_takes.takes s hat).bind_tracks fun shape => (hf {} shape).tracks
    · have hrun : ∀ naming, @specifier naming s = _ := fun _ => specifier_of_name hname
      cases htype : s.type? name with
      | none =>
        simp only [htype] at hrun
        exact .fails (bind_of_error (hrun _) _) (bind_of_error (hrun _) _)
      | some shape =>
        simp only [htype] at hrun
        refine ((hf {} shape).takes s.next hnext).of_eq ?_ ?_
        · exact bind_of_ok (hrun _) _
        · exact bind_of_ok (hrun _) _
  have hqualifiers := qualifiers_of_name hname
  exact hbypasses.of_eq (bind_of_ok hqualifiers _) (bind_of_ok hqualifiers _)

theorem initializer_tracks (q : Qualifiers) (shape : Shape) (name : String) :
    Tracks x (initializer q shape token name) (@initializer x.naming q shape token name) := by
  unfold initializer
  refine .check ((Expression.parse_tracks _).bind fun initial => Tracks.nodeAt.bind fun n => ?_)
  refine .check ?_
  split
  · exact .pure
  · exact Tracks.addNode.bind fun target => Tracks.addNode.bind fun assign => .pure

theorem declaratorStep_takes (q : Qualifiers) (shape : Shape) (isGlobal : Bool)
    (assigns : List NodeId) : Takes x (declaratorStep q shape isGlobal assigns)
      (@declaratorStep x.naming q shape isGlobal assigns) := by
  refine Takes.expectName.bind fun name => .get (fun _ _ => rfl) fun s => .check ?_
  refine (arraySuffix_tracks shape).bind fun itemShape => ?_
  refine (Tracks.accept _).bind fun isInitialized => ?_
  extract_lets rest
  -- with or without an initialiser the rest is the same
  have hrest : ∀ result, Tracks x (rest result) (rest result) := by
    rintro ⟨value, assign⟩
    refine Tracks.declare.bind fun _ => ?_
    extract_lets assigns₁ next
    have hnext : Tracks x (next ()) (next ()) :=
      (Tracks.accept _).bind fun more => .ite (fun _ => .pure) fun _ => .pure
    refine .ite (fun _ => Tracks.addNode.bind fun global => ?_) fun _ => hnext
    exact .bind (.modify fun _ _ => rfl) fun _ => hnext
  refine .ite (fun _ => (initializer_tracks q itemShape name.2).bind hrest) fun _ => ?_
  exact .ite (fun _ => .failAt_bind) fun _ => .bind .pure hrest

theorem declarators_takes (q : Qualifiers) (shape : Shape) (isGlobal : Bool) :
    Takes x (declarators q shape isGlobal) (@declarators x.naming q shape isGlobal) := by
  unfold declarators
  refine .ite (fun _ => .fail_bind) fun _ => ?_
  refine .bind (.loop (declaratorStep_takes q shape isGlobal)) fun assigns => .expect fun _ => ?_
  split
  · exact .pure
  · exact .pure
  · exact Tracks.nodeAt.bind fun n => Tracks.addNode.bind fun node => .pure

end Declaration

/-! ## Statements -/

namespace Statement

section

variable {self self' : Unit → Parser (Option NodeId)}
  (hself : ∀ rule, Tracks x (self rule) (self' rule))

include hself

theorem blockStep_tracks (items : List NodeId) :
    Tracks x (blockStep self items) (blockStep self' items) := by
  refine .current_same (fun token => ?_) ?_
  · split
    · exact .pure
    · exact .fail
    · refine (hself ()).bind fun item => ?_
      cases item with
      | some item => exact .pure
      | none => exact .pure
  · rintro _ ⟨⟩ <;> rfl

theorem scopedBlock_tracks : Tracks x (scopedBlock self) (scopedBlock self') := by
  refine .expect fun _ => .inScope (.bind (.loop (blockStep_tracks hself)) fun items => ?_)
  exact .expect fun _ => .addNode

theorem body_tracks : Tracks x (body self) (body self') := by
  refine .current_same (fun token => .bind (.inScope (hself ())) fun item => ?_) ?_
  · cases item with
    | some item => exact .pure
    | none => exact .addNode
  · rintro _ ⟨⟩ <;> rfl

omit hself in
theorem booleanExpression_tracks : Tracks x booleanExpression (@booleanExpression x.naming) := by
  refine .current_same (fun token => ?_) ?_
  · refine (Expression.parse_tracks _).bind fun condition => ?_
    exact Tracks.shapeAt.bind fun shape => .check .pure
  · rintro _ ⟨⟩ <;> rfl

omit hself in
theorem condition_tracks : Tracks x condition (@condition x.naming) :=
  .expect fun _ => booleanExpression_tracks.bind fun _ => .expect fun _ => .pure

theorem ifStatement_tracks : Tracks x (ifStatement self) (@ifStatement x.naming self') := by
  refine .expectKeyword fun _ => condition_tracks.bind fun test => ?_
  refine (body_tracks hself).bind fun yes => .current_same (fun token => ?_) ?_
  · refine .ite (fun _ => .advance fun _ => ?_) fun _ => .bind .pure fun no => .addNode
    exact (body_tracks hself).bind fun no => .bind .pure fun no => .addNode
  · rintro _ ⟨⟩ <;> rfl

omit hself in
theorem forInitializer_tracks : Tracks x forInitializer (@forInitializer x.naming) := by
  refine (Tracks.accept _).bind fun isEmpty => .ite (fun _ => .pure) fun _ => ?_
  refine Declaration.starts_tracks ?_ ?_ fun s name => ?_
  · refine Declaration.qualifiers_tracks.bind fun q => ?_
    refine Declaration.specifier_takes.tracks.bind fun shape => ?_
    exact (Declaration.declarators_takes q shape false).tracks
  · exact (Expression.parse_tracks _).bind fun node => .expect fun _ => .pure
  · apply Declaration.declaration_bypasses
    exact fun q shape => Declaration.declarators_takes q shape false

theorem forStatement_tracks : Tracks x (forStatement self) (@forStatement x.naming self') := by
  refine .expectKeyword fun _ => .expect fun _ => .inScope ?_
  refine forInitializer_tracks.bind fun initial => .isAt fun noTest => ?_
  refine .choose .pure (.map booleanExpression_tracks) fun test => .expect fun _ => ?_
  refine .isAt fun noTerminal => .choose .pure (.map (Expression.parse_tracks _)) fun terminal => ?_
  refine .expect fun _ => (body_tracks hself).bind fun inner => Tracks.addNode.bind fun node => ?_
  split
  · exact .pure
  · exact .addNode

theorem whileStatement_tracks :
    Tracks x (whileStatement self) (@whileStatement x.naming self') := by
  refine .expectKeyword fun _ => condition_tracks.bind fun test => ?_
  exact (body_tracks hself).bind fun inner => .addNode

theorem doStatement_tracks : Tracks x (doStatement self) (@doStatement x.naming self') := by
  refine .expectKeyword fun _ => (body_tracks hself).bind fun inner => ?_
  refine .expectKeyword fun _ => condition_tracks.bind fun test => ?_
  exact .expect fun _ => .addNode

omit hself in
theorem returnStatement_tracks : Tracks x returnStatement (@returnStatement x.naming) := by
  refine .advance fun token => .isAt fun isEmpty => ?_
  extract_lets rest
  have hrest : ∀ value, Tracks x (rest value) (rest value) := fun value =>
    .expect fun _ => .addNode
  refine .ite (fun _ => .bind .pure hrest) fun _ => ?_
  exact (Expression.parse_tracks _).bind fun node => .bind .pure hrest

omit hself in
theorem branch_tracks (op : Operator) : Tracks x (branch op) (branch op) :=
  .advance fun _ => .expect fun _ => .addNode

omit hself in
/-- What stands behind the type of a local declaration. -/
theorem localDeclaration_takes (q : Declaration.Qualifiers) (shape : Shape) :
    Takes x
      (accept .semicolon >>= fun isEmpty =>
        if isEmpty = true then pure none else Declaration.declarators q shape false)
      (accept .semicolon >>= fun isEmpty =>
        if isEmpty = true then pure none else @Declaration.declarators x.naming q shape false) :=
  .accept .pure (Declaration.declarators_takes q shape false)

theorem rule_tracks (u : Unit) : Tracks x (rule self u) (@rule x.naming self' u) := by
  refine .current_same (fun token => ?_) ?_
  · split
    · exact .map (scopedBlock_tracks hself)
    · exact .advance fun _ => .pure
    · exact .map (ifStatement_tracks hself)
    · exact .map (forStatement_tracks hself)
    · exact .map (whileStatement_tracks hself)
    · exact .map (doStatement_tracks hself)
    · exact .map returnStatement_tracks
    · exact .map (branch_tracks _)
    · exact .map (branch_tracks _)
    · exact .map (branch_tracks _)
    · exact .advance fun _ => (Directive.parse_tracks _).bind fun _ => .pure
    · refine Declaration.starts_tracks ?_ ?_ fun s name => ?_
      · refine Declaration.qualifiers_tracks.bind fun q => ?_
        refine Declaration.specifier_takes.tracks.bind fun shape => ?_
        exact (localDeclaration_takes q shape).tracks
      · exact (Expression.parse_tracks _).bind fun node => .expect fun _ => .pure
      · exact Declaration.declaration_bypasses localDeclaration_takes
  · rintro _ ⟨⟩ <;> rfl

end

theorem parse_tracks : Tracks x parse (@parse x.naming) :=
  .knot (fun _ _ hself => rule_tracks hself) ()

end Statement

/-! ## The top level -/

namespace Shader

end Shader

end ShaderCost
