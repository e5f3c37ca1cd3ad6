import ShaderCost.Proofs.Grammar.ShaderEndings
import ShaderCost.Proofs.Token.Positions

/-! # Reading ends with a tree or a complaint

Every shader is read to its end or refused, for neither allowance of the parser runs out and
whatever a rule looks up is there (`reading_total`). What keeps the allowances from running out is
stated for each loop and each rule of the grammar: in every state that reading can come to, also at
the end of the input and at an unreadable token, it consumes a token or refuses (`RulesProgress`).

A refusal stands at a token of the shader, but for the one about open parentheses, which stands
nowhere (`refusal_positions`).
-/

namespace ShaderCost

/-- A complaint about the shader: no allowance has run out, and nothing was looked up in vain. -/
def ParseError.IsProper (e : ParseError) : Prop :=
  e.complaint ≠ .exhausted ∧ e.complaint ≠ .lost

namespace Parser

variable {α β : Type}

/-- A run from `s` consumes a token or refuses the shader. -/
def Progresses (p : Parser α) (s : ParserState) : Prop :=
  match p s with
  | .error e => e.IsProper
  | .ok (_, s') => s'.rest.length < s.rest.length

/-- A turn of a loop from `s` consumes a token, stops the loop or refuses the shader. -/
def TurnProgresses (step : Parser (Turn α β)) (s : ParserState) : Prop :=
  match step s with
  | .error e => e.IsProper
  | .ok (.again _, s') => s'.rest.length < s.rest.length
  | .ok (.stop _, s') => s'.rest.length ≤ s.rest.length

end Parser

theorem Refusal.isProper {ts : List Token} {e : ParseError} (h : Refusal ts e) : e.IsProper := by
  cases h with
  | atToken _ hordinary => constructor <;> rintro rfl <;> cases hordinary
  | unterminated => constructor <;> nofun

namespace Parser.Ends

variable {α β : Type} {ts : List Token} {s : ParserState}

theorem progresses {p : Parser α} (h : p.Ends ts s fun _ => s.rest.length) (hs : Reading ts s) :
    p.Progresses s := by
  have hend := h hs
  unfold Progresses
  cases hrun : p s with
  | error e =>
    rw [hrun] at hend
    exact hend.isProper
  | ok x =>
    rw [hrun] at hend
    exact hend.2.2

theorem turnProgresses {step : Parser (Turn α β)} (h : step.Ends ts s (turnBound s.rest.length))
    (hs : Reading ts s) : step.TurnProgresses s := by
  have hend := h hs
  unfold TurnProgresses
  cases hrun : step s with
  | error e =>
    rw [hrun] at hend
    exact hend.isProper
  | ok x =>
    obtain ⟨turn, s'⟩ := x
    rw [hrun] at hend
    cases turn with
    | again a => exact hend.2.2
    | stop b => exact Nat.le_of_lt_succ hend.2.2

end Parser.Ends

open Declaration Expression Shader in
/-- Every rule of the grammar and every turn of its loops consumes a token of `ts` or refuses. What
a turn is given is what the turns before it have read. -/
structure RulesProgress (ts : List Token) (s : ParserState) : Prop where
  -- rules that are called again
  expression : ∀ rule, (Expression.parse rule).Progresses s
  statement : Statement.parse.Progresses s
  type : specifier.Progresses s
  declaration : externalDeclaration.Progresses s
  -- loops
  items : ∀ items, (itemStep items).TurnProgresses s
  qualifiers : ∀ q, (qualifierStep q).TurnProgresses s
  parentheses : ∀ depth, (parenthesesStep depth).TurnProgresses s
  members : ∀ fields, FieldsTyped fields s → (memberStep specifier fields).TurnProgresses s
  fields : ∀ shape fields, s.IsType shape → (fieldStep shape fields).TurnProgresses s
  params : ∀ params, (paramStep params).TurnProgresses s
  block : ∀ items, (Statement.blockStep (fun _ => Statement.parse) items).TurnProgresses s
  declarators : ∀ q shape isGlobal assigns, s.IsType shape →
    (declaratorStep q shape isGlobal assigns).TurnProgresses s
  arguments : ∀ args, (argumentStep Expression.parse args).TurnProgresses s
  suffixes : ∀ start ∈ ts, ∀ operand, s.Has operand →
    (suffix Expression.parse start operand).TurnProgresses s
  operators : ∀ least left, s.Has left →
    (binaryStep Expression.parse least left).TurnProgresses s
  commas : ∀ left, (commaStep Expression.parse left).TurnProgresses s

theorem Reading.rulesProgress {ts : List Token} {s : ParserState} (hs : Reading ts s) :
    RulesProgress ts s := by
  have hle := Nat.le_refl s.rest.length
  have hlt := Nat.lt_succ_self s.rest.length
  have hself := Expression.parse_descends ts (s.rest.length + 1)
  have hsame := Expression.parse_descends ts s.rest.length
  constructor
  case expression => exact fun rule => (Expression.parse_ends rule hle).progresses hs
  case statement => exact (Statement.parse_ends hle).progresses hs
  case type => exact (Declaration.specifier_ends hle).progresses hs
  case declaration => exact (Shader.externalDeclaration_ends hle).progresses hs
  case items => exact fun items => (Shader.itemStep_ends items).turnProgresses hs
  case qualifiers => exact fun q => (Declaration.qualifierStep_ends q).turnProgresses hs
  case parentheses => exact fun depth => (Declaration.parenthesesStep_ends depth).turnProgresses hs
  case members =>
    intro fields hfields
    exact (Declaration.memberStep_ends (Declaration.specifier_descends ts _) hlt
      hfields).turnProgresses hs
  case fields =>
    intro shape fields hshape
    exact (Declaration.fieldStep_ends hshape fields).turnProgresses hs
  case params => exact fun params => (Shader.paramStep_ends params).turnProgresses hs
  case block =>
    intro items
    exact (Statement.blockStep_ends (Statement.parse_descends ts _) hlt items).turnProgresses hs
  case declarators =>
    intro q shape isGlobal assigns hshape
    exact (Declaration.declaratorStep_ends q hshape isGlobal assigns).turnProgresses hs
  case arguments =>
    intro args
    exact (Expression.argumentStep_ends hself hlt args).turnProgresses hs
  case suffixes =>
    intro start hstart operand hoperand
    exact (Expression.suffix_ends hsame hstart hoperand).turnProgresses hs
  case operators =>
    intro least left hleft
    exact (Expression.binaryStep_ends hsame least hleft).turnProgresses hs
  case commas => exact fun left => (Expression.commaStep_ends hsame left).turnProgresses hs

/-! ## Whole shaders -/

theorem tokenize_ended (source : Bytes) : Ended (tokenize source) := tokenize_ending source

theorem Shader.shader_ending (source : Bytes) : Parser.Ending (tokenize source)
    { rest := tokenize source } (fun _ => (tokenize source).length + 1)
    (shader { rest := tokenize source }) :=
  shader_ends Expression.has_nil (Nat.lt_succ_self _) (.start (tokenize_ended source))

theorem Tree.refusal_of_error {source : Bytes} {e : ParseError}
    (h : Tree.ofSource source = .error e) : Refusal (tokenize source) e := by
  have hend := Shader.shader_ending source
  unfold Tree.ofSource Tree.ofTokens at h
  cases hrun : Shader.shader { rest := tokenize source } with
  | error e' =>
    rw [StateT.run, hrun] at h
    rw [hrun] at hend
    cases h
    exact hend
  | ok x =>
    rw [StateT.run, hrun] at h
    cases h

/-- The state in which reading ends. -/
theorem Tree.ofSource_steps {source : Bytes} {t : Tree} (h : Tree.ofSource source = .ok t) :
    ∃ s : ParserState, Steps { rest := tokenize source } s ∧ s.Sourced (tokenize source) ∧
      t.nodes = s.nodes := by
  have hend := Shader.shader_ending source
  obtain ⟨root, s, hrun, rfl, hsteps⟩ := Tree.ofTokens_steps h
  rw [StateT.run] at hrun
  rw [hrun] at hend
  exact ⟨s, hsteps, hend.1 (.start _ _), rfl⟩

/-- The operations of a shader stand on lines of its tokens. -/
theorem Tree.lined_of_ok {source : Bytes} {t : Tree} (h : Tree.ofSource source = .ok t)
    {id : NodeId} (hid : id < t.size) : (t.node id).Lined (tokenize source) := by
  obtain ⟨s, -, hsourced, hnodes⟩ := Tree.ofSource_steps h
  unfold Tree.size at hid
  unfold Tree.node
  rw [hnodes] at hid ⊢
  exact hsourced.1 id hid

/-- A shader is read to its end, or refused with a complaint about it. The reason is that, wherever
reading has come to, every rule and every turn of a loop consumes a token or refuses. -/
theorem reading_total (source : Bytes) :
    ((∃ t, Tree.ofSource source = .ok t) ∨
      ∃ e, Tree.ofSource source = .error e ∧ e.IsProper) ∧
    ∀ s, Steps { rest := tokenize source } s → s.rest ≠ [] → RulesProgress (tokenize source) s := by
  constructor
  · cases hrun : Tree.ofSource source with
    | error e => exact Or.inr ⟨e, rfl, (Tree.refusal_of_error hrun).isProper⟩
    | ok t => exact Or.inl ⟨t, rfl⟩
  · intro s hsteps hmore
    exact Reading.rulesProgress ⟨tokenize_ended source, hsteps, hmore⟩

/-- Parentheses that the input leaves open. -/
def unclosedLayout : Bytes := Bytes.ofString "layout("

/-- Also where only the end of the input is left, every rule refuses and every loop stops. -/
theorem reading_total_unclosedLayout :
    (∃ e, Tree.ofSource unclosedLayout = .error e ∧ e.IsProper) ∧
    ∃ s, Steps { rest := tokenize unclosedLayout } s ∧ s.rest.map Token.lexeme = [.endOfInput] ∧
      RulesProgress (tokenize unclosedLayout) s := by
  have hrefused : (Tree.ofSource unclosedLayout).isOk = false := by decide +kernel
  let start : ParserState := { rest := tokenize unclosedLayout }
  have hend : start.next.next.rest.map Token.lexeme = [.endOfInput] := by decide +kernel
  have hsteps : Steps start start.next.next := .tail (.single .consume) .consume
  obtain ⟨hread, hprogress⟩ := reading_total unclosedLayout
  constructor
  · rcases hread with ⟨t, ht⟩ | hrefusal
    · rw [ht] at hrefused
      cases hrefused
    · exact hrefusal
  · refine ⟨start.next.next, hsteps, hend, hprogress _ hsteps fun hnil => ?_⟩
    rw [hnil] at hend
    cases hend

/-- A complaint stands at a token. Only parentheses that the input leaves open are complained about
behind the last token, where there is no line and no column. -/
theorem refusal_positions {source : Bytes} {e : ParseError} (h : Tree.ofSource source = .error e) :
    (e.complaint ≠ .unterminatedParenthesis →
      1 ≤ e.line ∧ 1 ≤ e.column ∧
        ∃ token ∈ tokenize source, e.line = token.line ∧ e.column = token.column) ∧
    (e.complaint = .unterminatedParenthesis → e.line = 0 ∧ e.column = 0) := by
  cases Tree.refusal_of_error h with
  | @atToken token complaint htoken hordinary =>
    have hplaced := tokenize_placed source token htoken
    refine ⟨fun _ => ⟨?_, ?_, token, htoken, rfl, rfl⟩, ?_⟩
    · change 1 ≤ token.line
      rw [hplaced.line]
      exact Nat.le_add_left 1 _
    · change 1 ≤ token.column
      rw [hplaced.column]
      exact Nat.le_add_left 1 _
    · rintro rfl
      cases hordinary
  | unterminated => exact ⟨fun hne => absurd rfl hne, fun _ => ⟨rfl, rfl⟩⟩

/-- A name without a declaration, behind a line break. -/
def undeclaredTarget : Bytes := Bytes.ofString "void main() \x7b\n  x = 1;\n\x7d"

theorem refusal_positions_undeclaredTarget :
    Tree.ofSource undeclaredTarget =
      .error { complaint := .undeclared "x", line := 2, column := 3 } ∧
    ∃ token ∈ tokenize undeclaredTarget, 2 = token.line ∧ 3 = token.column := by
  have hrefused : Tree.ofSource undeclaredTarget =
      .error { complaint := .undeclared "x", line := 2, column := 3 } := by decide +kernel
  exact ⟨hrefused, ((refusal_positions hrefused).1 nofun).2.2⟩

/-- The complaint about open parentheses is at the place of no token. -/
theorem refusal_nowhere_unclosedLayout :
    Tree.ofSource unclosedLayout =
      .error { complaint := .unterminatedParenthesis, line := 0, column := 0 } ∧
    ∀ token ∈ tokenize unclosedLayout, token.line ≠ 0 ∧ token.column ≠ 0 := by
  decide +kernel

end ShaderCost
