import ShaderCost.Proofs.Grammar.Endings

/-! # What the tokens behind a place say

Two things hang on tokens that were read before: which macros there are, and whether the qualifiers
in front of a type forbid to write what it declares. `scan` finds both in the tokens alone, from
left to right. A directive counts unless it stands in the parentheses of a layout, and qualifiers
count as long as nothing but qualifiers has come since.

The rules agree with it. What `qualifiers` reads is what a scan adds up (`Qualified`), and a
directive that is read enters what its text defines (`Directive.parse_eq_ok`), so the table of
macros is known from the tokens wherever a reading has come (`Scanned`). A variable that is found
there has its declarator or its parameter among those tokens (`Origin`).
-/

namespace ShaderCost

open ShaderCost.Parser

/-! ## Scans -/

/-- What is known of some tokens, read from left to right. -/
structure Scan where
  /-- The open parentheses of a layout, none yet behind its keyword; `none` outside of one. -/
  layout : Option Nat := none
  /-- The texts of the directives, the latest first. -/
  directives : List Bytes := []
  /-- The last tokens are qualifiers, and one of them forbids to write. -/
  qualified : Bool := false

namespace Scan

/-- One more token in a layout. -/
def inside (depth : Nat) : Lexeme → Option Nat
  | .symbol .leftParen => some (depth + 1)
  | .symbol .rightParen => if depth ≤ 1 then none else some (depth - 1)
  | _ => some depth

/-- One more token outside of layouts. -/
def outside (c : Scan) : Lexeme → Scan
  | .keyword .layout => { c with layout := some 0 }
  | .keyword .const | .keyword .uniform | .keyword .attribute => { c with qualified := true }
  | .keyword word => if Declaration.isPlainQualifier word then c else { c with qualified := false }
  | .directive text => { c with directives := text :: c.directives, qualified := false }
  | _ => { c with qualified := false }

def read (c : Scan) (token : Token) : Scan :=
  c.layout.elim (c.outside token.lexeme) fun depth =>
    { c with layout := inside depth token.lexeme }

end Scan

def scan (tokens : List Token) : Scan := tokens.foldl Scan.read {}

/-- No directive, no qualifier and not the end. -/
def Lexeme.isPlain : Lexeme → Bool
  | .keyword word => !Declaration.startsWith word || word == .struct
  | .directive _ | .endOfInput => false
  | _ => true

namespace Scan

theorem read_outside {c : Scan} (h : c.layout = none) (token : Token) :
    c.read token = c.outside token.lexeme := by
  rw [read, h, Option.elim]

theorem read_inside {c : Scan} {depth : Nat} (h : c.layout = some depth) (token : Token) :
    c.read token = { c with layout := inside depth token.lexeme } := by
  rw [read, h, Option.elim]

theorem outside_of_isPlain {lexeme : Lexeme} (h : lexeme.isPlain = true) (c : Scan) :
    c.outside lexeme = { c with qualified := false } := by
  cases lexeme with
  | keyword word => cases word <;> first | rfl | cases h
  | directive text => cases h
  | _ => rfl

theorem outside_of_isPlainQualifier {word : Keyword}
    (h : Declaration.isPlainQualifier word = true) (c : Scan) : c.outside (.keyword word) = c := by
  cases word <;> first | rfl | cases h

end Scan

namespace ParserState

variable {start base s s' : ParserState}

/-- Past the last token there is nothing but the end. -/
theorem rest_of_front (h : s.front.lexeme ≠ .endOfInput) : s.rest = s.front :: s.next.rest := by
  cases hrest : s.rest with
  | nil =>
    rw [front, hrest] at h
    exact absurd rfl h
  | cons token rest =>
    unfold front next
    rw [hrest]
    rfl

theorem next_suffix (s : ParserState) : s.next.rest <:+ s.rest := List.tail_suffix s.rest

/-- What a scan of the tokens from `base` to `s` finds. -/
def scanned (base s : ParserState) : Scan :=
  scan (base.rest.take (base.rest.length - s.rest.length))

theorem scanned_of_append {passed : List Token} (h : base.rest = passed ++ s.rest) :
    base.scanned s = scan passed := by
  unfold scanned
  rw [h]
  simp

@[simp]
theorem scanned_self (s : ParserState) : s.scanned s = {} :=
  scanned_of_append (List.nil_append s.rest).symm

/-- The tokens from `base` to `s` do not end in qualifiers that forbid to write. -/
def Clear (base s : ParserState) : Prop := (base.scanned s).qualified = false

theorem Clear.refl (s : ParserState) : s.Clear s := by simp [Clear]

/-- From `start` to `s` tokens are passed over, and scans of them go like this. -/
def Passed (start : ParserState) (R : Scan → Scan → Prop) (s : ParserState) : Prop :=
  ∃ passed rest, start.rest = passed ++ rest ∧ s = { start with rest } ∧
    ∀ c, R c (passed.foldl Scan.read c)

theorem passed_front (h : s.front.lexeme ≠ .endOfInput) :
    s.Passed (fun c c' => c' = c.read s.front) s.next :=
  ⟨[s.front], s.next.rest, rest_of_front h, rfl, fun _ => rfl⟩

theorem Passed.trans {R R' R'' : Scan → Scan → Prop} (h : start.Passed R s) (h' : s.Passed R' s')
    (hR : ∀ {c c' c''}, R c c' → R' c' c'' → R'' c c'') : start.Passed R'' s' := by
  obtain ⟨passed, rest, hrest, rfl, hscan⟩ := h
  obtain ⟨passed', rest', hrest', rfl, hscan'⟩ := h'
  refine ⟨passed ++ passed', rest', ?_, rfl, fun c => ?_⟩
  · rw [hrest, List.append_assoc, ← hrest']
  · rw [List.foldl_append]
    exact hR (hscan c) (hscan' _)

/-- A scan goes on where it was. -/
theorem Passed.scanned {R : Scan → Scan → Prop} (h : s.Passed R s') (hs : s.rest <:+ base.rest) :
    s'.rest <:+ base.rest ∧ R (base.scanned s) (base.scanned s') := by
  obtain ⟨passed, rest, hrest, rfl, hscan⟩ := h
  obtain ⟨before, hbefore⟩ := hs
  have hwhole : base.rest = (before ++ passed) ++ rest := by
    rw [← hbefore, hrest, List.append_assoc]
  have hscanned : base.scanned { s with rest } = scan (before ++ passed) := scanned_of_append hwhole
  refine ⟨⟨_, hwhole.symm⟩, ?_⟩
  rw [hscanned, scanned_of_append hbefore.symm, scan, scan, List.foldl_append]
  exact hscan _

end ParserState

/-! ## Qualifiers -/

namespace Declaration

variable {start s s' : ParserState} {q q' : Qualifiers}

/-- From `start` to `s` stand qualifiers, and `q` forbids to write exactly if one of them does. -/
def Qualified (start : ParserState) (q : Qualifiers) (s : ParserState) : Prop :=
  start.Passed (fun c c' => c.layout = none →
    c' = { c with qualified := c.qualified || (q.isConst || q.isUniform) }) s

theorem Qualified.refl (s : ParserState) : Qualified s {} s :=
  ⟨[], s.rest, rfl, rfl, fun c _ => by simp⟩

theorem Qualified.word (h : Qualified start q s) {word : Keyword} (isProtected : Bool)
    (hfront : s.front.lexeme = .keyword word)
    (hword : ∀ c : Scan, c.outside (.keyword word) =
      { c with qualified := c.qualified || isProtected })
    (hq : (q'.isConst || q'.isUniform) = (q.isConst || q.isUniform || isProtected)) :
    Qualified start q' s.next := by
  refine h.trans (ParserState.passed_front (by simp [hfront])) fun {c c' c''} hc hread hlayout => ?_
  have hlayout' : c'.layout = none := by rw [hc hlayout, hlayout]
  rw [hread, Scan.read_outside hlayout', hfront, hword, hc hlayout, hq]
  simp only [Bool.or_assoc]

/-- So many parentheses are open from `start` to `s`. -/
def Within (start : ParserState) (layout : Option Nat) (s : ParserState) : Prop :=
  start.Passed (fun c c' => c.layout = some 0 → c' = { c with layout }) s

theorem Within.next {layout : Option Nat} {depth : Nat} (h : Within start (some depth) s)
    (hfront : s.front.lexeme ≠ .endOfInput) (hread : Scan.inside depth s.front.lexeme = layout) :
    Within start layout s.next := by
  refine h.trans (ParserState.passed_front hfront) fun {c c' c''} hc hc'' hlayout => ?_
  have hlayout' : c'.layout = some depth := by rw [hc hlayout]
  rw [hc'', Scan.read_inside hlayout', hc hlayout, hread]

theorem parenthesesStep_within {depth : Nat} (h : Within start (some depth) s) :
    (parenthesesStep depth).Does s
      (Does.AfterTurn (fun depth => Within start (some depth)) fun _ => Within start none) := by
  refine .advance ?_
  split
  · next hfront => exact .pure (h.next (by simp [hfront]) (by rw [hfront]; rfl))
  · next hfront =>
    have hclosed : Within start (if depth ≤ 1 then none else some (depth - 1)) s.next :=
      h.next (by simp [hfront]) (by rw [hfront]; rfl)
    split
    · next hlast =>
      rw [if_pos hlast] at hclosed
      exact .pure hclosed
    · next hmore =>
      rw [if_neg hmore] at hclosed
      exact .pure hclosed
  · exact .fail _
  · next hopen hclose hend =>
    refine .pure (h.next hend ?_)
    unfold Scan.inside
    split
    · next hfront => exact absurd hfront hopen
    · next hfront => exact absurd hfront hclose
    · rfl

theorem skipParentheses_within (s : ParserState) :
    skipParentheses.Does s fun _ => Within s none := by
  refine .expectLexeme_front fun hfront => .loop (fun depth => Within s (some depth))
    (fun _ _ => parenthesesStep_within) ?_
  have hstart : Within s (some 0) s := ⟨[], s.rest, rfl, rfl, fun c hc => by rw [← hc]; rfl⟩
  exact hstart.next (by simp [hfront]) (by rw [hfront]; rfl)

theorem qualifierStep_qualified (h : Qualified start q s) :
    (qualifierStep q).Does s (Does.AfterTurn (Qualified start) (Qualified start)) := by
  refine .current ?_
  split
  case h_1 hfront =>
    exact .advance (.pure (h.word true hfront (fun c => by simp [Scan.outside]) (by simp)))
  case h_2 hfront =>
    exact .advance (.pure (h.word true hfront (fun c => by simp [Scan.outside]) (by simp)))
  case h_3 hfront =>
    exact .advance (.pure (h.word true hfront (fun c => by simp [Scan.outside]) (by simp)))
  case h_4 hfront =>
    -- whatever stands in the parentheses, the qualifiers go on behind them
    refine .advance ((skipParentheses_within _).bind fun _ s' _ hs' => .pure ?_)
    have hpiece : s.Passed (fun c c' => c.layout = none → c' = c) s' := by
      refine (ParserState.passed_front (by simp [hfront])).trans hs' fun hread hc hlayout => ?_
      rw [Scan.read_outside hlayout, hfront, Scan.outside] at hread
      rw [hc (by rw [hread]), hread, ← hlayout]
    change Qualified start q s'
    refine h.trans hpiece fun hc hc' hlayout => ?_
    rw [hc' (by rw [hc hlayout, hlayout]), hc hlayout]
  case h_5 word _ _ _ _ hfront =>
    refine .ite (fun hplain => .advance (.pure (h.word false hfront ?_ ?_))) fun _ => .pure h
    · intro c
      rw [Scan.outside_of_isPlainQualifier hplain, Bool.or_false]
    · rw [Bool.or_false]
  case h_6 => exact .pure h

theorem qualifiers_qualified (s : ParserState) : qualifiers.Does s (Qualified s) :=
  .loop (Qualified s) (fun _ _ => qualifierStep_qualified) (.refl s)

theorem precision_qualified (s : ParserState) : precision.Does s fun _ => Qualified s {} := by
  have hnext : ∀ {word}, isPlainQualifier word = true → s.front.lexeme = .keyword word →
      Qualified s {} s.next := by
    intro word hword hfront
    refine (Qualified.refl s).word false hfront (fun c => ?_) rfl
    rw [Scan.outside_of_isPlainQualifier hword, Bool.or_false]
  refine .current ?_
  split
  · next hfront => exact .advance (.pure (hnext rfl hfront))
  · next hfront => exact .advance (.pure (hnext rfl hfront))
  · next hfront => exact .advance (.pure (hnext rfl hfront))
  · exact .fail _

end Declaration

/-! ## Directives -/

namespace Directive

/-- The entry that the words behind `define` make. -/
def define? (words : List Bytes) : Option MacroDef := do
  let name ← words.head?
  let literal ← literalOf? (tokenize (Bytes.join [Byte.space] words.tail))
  let value ← (Literal.value literal.1).toOption
  return ⟨name, if literal.2 then value.negate else value⟩

/-- The entry that a directive makes in the table of macros. -/
def defined? (text : Bytes) : Option MacroDef :=
  if text.words.head? = some (Bytes.ofString "define") then define? text.words.tail else none

theorem define_eq_ok {token : Token} {words : List Bytes} {s s' : ParserState}
    (h : define token words s = .ok ((), s')) :
    ∃ entry, define? words = some entry ∧ s' = { s with macros := entry :: s.macros } := by
  cases words with
  | nil => cases h
  | cons name body =>
    unfold define at h
    dsimp only at h
    by_cases hcall : name.contains (Byte.ofChar '(') = true
    · rw [if_pos hcall] at h
      cases h
    rw [if_neg hcall] at h
    cases hliteral : literalOf? (tokenize (Bytes.join [Byte.space] body)) with
    | none =>
      simp only [hliteral] at h
      cases h
    | some literal =>
      simp only [hliteral] at h
      cases hvalue : Literal.value literal.1 with
      | error fault =>
        simp only [hvalue] at h
        cases fault <;> cases h
      | ok value =>
        simp only [hvalue] at h
        cases h
        refine ⟨_, ?_, rfl⟩
        simp [define?, hliteral, hvalue, Except.toOption]

/-- A directive that is read enters what it defines, and nothing else. -/
theorem parse_eq_ok {token : Token} {text : Bytes} {s s' : ParserState}
    (h : parse token text s = .ok ((), s')) :
    s' = { s with macros := (defined? text).toList ++ s.macros } ∧
      (text.words.head? = some (Bytes.ofString "define") → (defined? text).isSome = true) := by
  unfold parse at h
  cases hwords : text.words with
  | nil =>
    rw [hwords] at h
    cases h
    simp [defined?, hwords]
  | cons word rest =>
    rw [hwords] at h
    simp only at h
    by_cases hdefine : word = Bytes.ofString "define"
    · subst hdefine
      have hignored : ¬ ignored.contains (Bytes.ofString "define") = true := by decide +kernel
      rw [if_neg hignored, if_pos (beq_self_eq_true _)] at h
      obtain ⟨entry, hentry, rfl⟩ := define_eq_ok h
      simp [defined?, hwords, hentry]
    · have hnone : defined? text = none := by simp [defined?, hwords, hdefine]
      rw [hnone]
      refine ⟨?_, by simp [hdefine]⟩
      split at h
      · cases h
        rfl
      · rw [if_neg (by simpa using hdefine)] at h
        split at h <;> cases h

end Directive

/-! ## Readings -/

namespace ParserState

/-- A reading has come from `base` to `s`, and its table of macros is the one that the tokens
between them make. -/
structure Scanned (base s : ParserState) : Prop where
  rest : s.rest <:+ base.rest
  outside : (base.scanned s).layout = none
  macros : s.macros = (base.scanned s).directives.filterMap Directive.defined? ++ base.macros
  accepted : ∀ text ∈ (base.scanned s).directives,
    text.words.head? = some (Bytes.ofString "define") → (Directive.defined? text).isSome = true

namespace Scanned

variable {base s s' : ParserState}

theorem refl (s : ParserState) : s.Scanned s := by
  refine ⟨List.suffix_rfl, ?_, ?_, ?_⟩ <;> simp

/-- Neither tokens nor macros change. -/
theorem of_eq (h : base.Scanned s) (hrest : s'.rest = s.rest) (hmacros : s'.macros = s.macros) :
    base.Scanned s' := by
  have hscanned : base.scanned s' = base.scanned s := by
    unfold scanned
    rw [hrest]
  refine ⟨hrest ▸ h.rest, ?_, ?_, ?_⟩ <;> rw [hscanned]
  · exact h.outside
  · exact hmacros.trans h.macros
  · exact h.accepted

/-- Tokens are consumed that make no difference to the macros. -/
theorem later (h : base.Scanned s) (hrest : s'.rest <:+ base.rest) {isProtected : Bool}
    (hscanned : base.scanned s' = { base.scanned s with qualified := isProtected })
    (hmacros : s'.macros = s.macros) : base.Scanned s' := by
  refine ⟨hrest, ?_, ?_, ?_⟩ <;> rw [hscanned]
  · exact h.outside
  · exact hmacros.trans h.macros
  · exact h.accepted

/-- The token in front is read outside of layouts. -/
theorem front (h : base.Scanned s) (hfront : s.front.lexeme ≠ .endOfInput) :
    s.next.rest <:+ base.rest ∧ base.scanned s.next = (base.scanned s).outside s.front.lexeme := by
  obtain ⟨hrest, hscanned⟩ := (passed_front hfront).scanned h.rest
  exact ⟨hrest, hscanned.trans (Scan.read_outside h.outside _)⟩

theorem next (h : base.Scanned s) (hplain : s.front.lexeme.isPlain = true) :
    base.Scanned s.next ∧ base.Clear s.next := by
  obtain ⟨hrest, hscanned⟩ := h.front fun hend => by rw [hend] at hplain; cases hplain
  rw [Scan.outside_of_isPlain hplain] at hscanned
  refine ⟨h.later hrest hscanned rfl, ?_⟩
  rw [Clear, hscanned]

theorem qualifiers {q : Declaration.Qualifiers} (h : base.Scanned s)
    (hq : Declaration.Qualified s q s') :
    base.Scanned s' ∧
      (base.scanned s').qualified = ((base.scanned s).qualified || (q.isConst || q.isUniform)) := by
  obtain ⟨hrest, hscanned⟩ := ParserState.Passed.scanned hq h.rest
  obtain ⟨-, rest, -, rfl, -⟩ := hq
  refine ⟨h.later hrest (hscanned h.outside) rfl, ?_⟩
  rw [hscanned h.outside]

theorem directive (h : base.Scanned s) {token : Token} {text : Bytes}
    (hfront : s.front.lexeme = .directive text)
    (hrun : Directive.parse token text s.next = .ok ((), s')) :
    base.Scanned s' ∧ base.Clear s' := by
  obtain ⟨hs', haccepted⟩ := Directive.parse_eq_ok hrun
  obtain ⟨hrest, hscanned⟩ := h.front (by simp [hfront])
  have hscanned : base.scanned s' = (base.scanned s).outside (.directive text) := by
    rw [hs', ← hfront]
    exact hscanned
  rw [Scan.outside] at hscanned
  refine ⟨⟨?_, ?_, ?_, ?_⟩, ?_⟩
  · rw [hs']
    exact hrest
  · rw [hscanned]
    exact h.outside
  · rw [hscanned, List.filterMap_cons, hs']
    change (Directive.defined? text).toList ++ s.macros = _
    rw [h.macros]
    cases Directive.defined? text <;> rfl
  · rw [hscanned]
    exact List.forall_mem_cons.2 ⟨haccepted, h.accepted⟩
  · rw [Clear, hscanned]

end Scanned

end ParserState

/-! ## Where variables come from -/

namespace Declaration

/-- The declarator in front of `s` is one of this variable. -/
structure IsDeclarator (q : Qualifiers) (type : Shape) (s : ParserState) (v : Variable) : Prop where
  name : s.front.lexeme = .name v.name
  shape : ∃ s', arraySuffix type s.next = .ok (v.shape, s')
  readOnly : v.readOnly = (q.isConst || q.isUniform)

/-- The declarators from `start` to `s` are those of these variables, the latest first. Each enters
its variable. -/
inductive Declarators (q : Qualifiers) (type : Shape) (start : ParserState) :
    List Variable → ParserState → Prop where
  | none : Declarators q type start [] start
  | more {vs : List Variable} {s s' : ParserState} {v : Variable} {isGlobal : Bool}
      {assigns : List NodeId} {turn : Turn (List NodeId) (List NodeId)}
      (h : Declarators q type start vs s) (hv : IsDeclarator q type s v)
      (hrun : declaratorStep q type isGlobal assigns s = .ok (turn, s'))
      (hscope : s'.scope = v :: s.scope) : Declarators q type start (v :: vs) s'

theorem Declarators.scope {q : Qualifiers} {type : Shape} {s s' : ParserState} {vs : List Variable}
    (h : Declarators q type s vs s') : s'.scope = vs ++ s.scope := by
  induction h with
  | none => rfl
  | more _ _ _ hscope ih => rw [hscope, ih, List.cons_append]

/-- The declaration in front of `s` enters the variables of its declarators, and nothing else. -/
def Enters (s s' : ParserState) : Prop :=
  ∃ q t type d vs e, qualifiers s = .ok (q, t) ∧ specifier t = .ok (type, d) ∧
    Declarators q type d vs e ∧ e.front.lexeme = .symbol .semicolon ∧ s'.scope = vs ++ s.scope

/-- The type in front of `s` stands behind qualifiers that forbid to write as `q` does. -/
def Specifies (base : ParserState) (q : Qualifiers) (type : Shape) (s : ParserState) : Prop :=
  ∃ t, base.Scanned t ∧ (base.scanned t).qualified = (q.isConst || q.isUniform) ∧
    specifier t = .ok (type, s)

/-- From `base` to `s` there is a declarator of the variable, in a declaration that forbids to write
or does not. -/
def Introduces (base s : ParserState) (isProtected : Bool) (v : Variable) : Prop :=
  ∃ q type start vs t, Specifies base q type start ∧ (q.isConst || q.isUniform) = isProtected ∧
    Declarators q type start vs t ∧ IsDeclarator q type t v ∧ s.rest <:+ t.next.rest

end Declaration

namespace Shader

/-- The variable of a parameter, if it has a name. -/
def Param.entered? (param : Param) : Option Variable :=
  param.name.map ({ name := ·, shape := param.shape })

/-- The variables of parameters, the latest first. -/
def paramScope (params : List Param) : Scope := (params.filterMap Param.entered?).reverse

/-- The parameter from `s` to `s'`. -/
def IsParam (s : ParserState) (param : Param) (s' : ParserState) : Prop :=
  ∃ q t type u, Declaration.qualifiers s = .ok (q, t) ∧ Declaration.specifier t = .ok (type, u) ∧
    ((∃ name, u.front.lexeme = .name name ∧ param.name = some name ∧
      Declaration.arraySuffix type u.next = .ok (param.shape, s')) ∨
    (∀ name, u.front.lexeme ≠ .name name) ∧ param.name = none ∧
      Declaration.arraySuffix type u = .ok (param.shape, s'))

/-- The parameters from `start` to `s`, with commas between them, the latest first. -/
inductive Parameters (start : ParserState) : List Param → ParserState → Prop where
  | none : Parameters start [] start
  | more {params : List Param} {param : Param} {s t s' : ParserState}
      (h : Parameters start params s)
      (ht : params ≠ [] ∧ s.front.lexeme = .symbol .comma ∧ t = s.next ∨ params = [] ∧ t = s)
      (hparam : IsParam t param s') : Parameters start (param :: params) s'

/-- The list of parameters from `s` to `s'`, in parentheses; `void` may stand for an empty one. -/
def ParamList (s : ParserState) (params : List Param) (s' : ParserState) : Prop :=
  ∃ t u, s.front.lexeme = .symbol .leftParen ∧
    (s.next.front.lexeme = .name "void" ∧ t = s.next.next ∨ t = s.next) ∧
    Parameters t params.reverse u ∧ u.front.lexeme = .symbol .rightParen ∧ s' = u.next

/-- From `base` to `s` there are parameters of a function, and the variable is one of them. -/
def Introduces (base s : ParserState) (v : Variable) : Prop :=
  ∃ t ps s', base.Scanned t ∧ params t = .ok (ps, s') ∧ v ∈ paramScope ps ∧ s.rest <:+ s'.rest

end Shader

/-- A variable that was declared from `base` to `s`. -/
def ParserState.Origin (base s : ParserState) (v : Variable) : Prop :=
  Declaration.Introduces base s v.readOnly v ∨ Shader.Introduces base s v

theorem ParserState.Origin.later {base s s' : ParserState} {v : Variable} (h : base.Origin s v)
    (hs : s'.rest <:+ s.rest) : base.Origin s' v := by
  obtain ⟨q, type, start, vs, t, htype, hq, hvs, hv, ht⟩ | ⟨t, ps, s₁, ht, hps, hv, hs₁⟩ := h
  · exact .inl ⟨q, type, start, vs, t, htype, hq, hvs, hv, hs.trans ht⟩
  · exact .inr ⟨t, ps, s₁, ht, hps, hv, hs.trans hs₁⟩

end ShaderCost
