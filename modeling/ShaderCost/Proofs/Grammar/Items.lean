import ShaderCost.Proofs.Grammar.Endings
import ShaderCost.Proofs.Grammar.Shader

/-! # Items

The top level of a shader is a sequence of items, and only here functions are declared and defined.
An item that is no function keeps to the moves below the top level. One that is a function begins
with its header, which leaves nothing at hand; then the function is declared, and what follows is
the semicolon of a prototype or the body of a definition (`Item`). Which of them it is can be told
in front: an item is a function where a header can be read (`Shader.header`), and only there
(`Shader.item_completes`).

Reading goes from item to item (`Items`), and every node belongs to the item during which it was
made (`Items.locate`). What holds at the beginning and is kept by items holds at the end of a
shader, and for this reason the arena is a tree (`Tree.ofTokens_isTree`).
-/

namespace ShaderCost

open ShaderCost.Parser

/-! ## What an item does -/

/-- A run below the top level, which ends with the nodes `held` at hand. -/
structure Runs (s s' : ParserState) (held : List NodeId) : Prop where
  steps : Steps s s'
  moves : Moves (s, []) (s', held)

/-- A header is read and its function declared as `decl`. -/
inductive Heads (s : ParserState) (header decl : FunctionDecl) (s' : ParserState) : Prop where
  | intro {s₁ : ParserState} (hrun : Runs s s₁ [])
      (hheading : header = Shader.heading header.name header.params header.result)
      (htyped : ∀ shape ∈ header.params, s₁.IsType shape)
      (hdeclares : Shader.Declares s₁ header decl s')

/-- The function of a header is defined: its body is read from `s₁` to `s₂`, then its node made. -/
structure Definition (s : ParserState) (header : FunctionDecl) (s₁ s₂ : ParserState) (n : Node) :
    Prop where
  head : ∃ decl, Heads s header decl s₁ ∧ decl.isDefined = false
  body : ∃ list body, Runs (s₁.withBody header.name header.signature) s₂ [body, list] ∧
    n.children = [list, body]
  kind : n.kind = .function
  name : n.name = header.name
  signature : n.signature = header.signature

/-- What an item with the given header does, and the node it leaves. -/
inductive Item (s : ParserState) : Option FunctionDecl → Option NodeId → ParserState → Prop where
  | plain {x : Option NodeId} {s' : ParserState} (h : Runs s s' x.toList) : Item s none x s'
  | prototype {header decl : FunctionDecl} {s₁ s' : ParserState} (hhead : Heads s header decl s₁)
      (hend : Runs s₁ s' []) : Item s (some header) none s'
  | definition {header : FunctionDecl} {s₁ s₂ : ParserState} {n : Node}
      (h : Definition s header s₁ s₂ n) :
      Item s (some header) (some s₂.nodes.size) (s₂.push n).closed

theorem Runs.parser {α : Type} {p : Parser α} {Q : α → ParserState → Prop}
    {start s s' : ParserState} {held : List NodeId} {held' : α → List NodeId} {a : α}
    (h : Runs start s held) (hdoes : p.Does s Q) (hbuilds : p.Builds held held')
    (hrun : p s = .ok (a, s')) : Runs start s' (held' a) ∧ Q a s' := by
  obtain ⟨hsteps, hQ⟩ := hdoes hrun
  exact ⟨⟨h.steps.trans hsteps, h.moves.trans (hbuilds hrun)⟩, hQ⟩

namespace Parser

/-- What a parser finds, unless it complains. -/
def result? {α : Type} (p : Parser α) (s : ParserState) : Option α := (p s).toOption.map (·.1)

theorem result?_bind {α β : Type} {p : Parser α} {f : α → Parser β} {s s' : ParserState} {a : α}
    (h : p s = .ok (a, s')) : (p >>= f).result? s = (f a).result? s' := by
  unfold result?
  rw [bind_of_ok h]

theorem result?_bind_of_none {α β : Type} {p : Parser α} {f : α → Parser β} {s : ParserState}
    (h : p.result? s = none) : (p >>= f).result? s = none := by
  unfold result? at h ⊢
  change (p s >>= fun x => f x.1 x.2).toOption.map _ = _
  cases hrun : p s with
  | error e => rfl
  | ok x =>
    rw [hrun] at h
    cases h

theorem run_accept {α : Type} (mark : Symbol) (f : Bool → Parser α) (s : ParserState) :
    (accept mark >>= f) s =
      if s.front.lexeme = .symbol mark then f true s.next else f false s := by
  unfold accept
  rw [bind_assoc, run_current]
  by_cases hfront : s.front.lexeme = .symbol mark
  · have hreadable : ∀ error, s.front.lexeme ≠ .bad error := by
      rw [hfront]
      exact fun _ => nofun
    rw [if_pos hfront, if_pos (beq_iff_eq.2 hfront), bind_assoc, run_advance _ hreadable]
    rfl
  · have hbeq : ¬ (s.front.lexeme == .symbol mark) = true := fun h => hfront (beq_iff_eq.1 h)
    rw [if_neg hfront, if_neg hbeq]
    rfl

/-- From `s` the parser `p` completes the item that began at `start`, of which nothing is at hand,
and `head` its header. -/
def Completes (p : Parser (Option NodeId)) (head : Parser FunctionDecl) (start s : ParserState) :
    Prop :=
  Runs start s [] → ∀ ⦃x : Option NodeId⦄ ⦃s' : ParserState⦄, p s = .ok (x, s') →
    Item start (head.result? s) x s'

namespace Completes

variable {α : Type} {start s : ParserState} {f : α → Parser (Option NodeId)}
  {g : α → Parser FunctionDecl} {p q : Parser (Option NodeId)} {head : Parser FunctionDecl}

theorem bind {q : Parser α} {Q : α → ParserState → Prop} (hdoes : q.Does s Q) (hkeeps : q.Keeps)
    (hf : ∀ a s', Steps s s' → Q a s' → (f a).Completes (g a) start s') :
    (q >>= f).Completes (q >>= g) start s := by
  intro hstart x s' hrun
  obtain ⟨a, s₁, hq, hrest⟩ := bind_eq_ok hrun
  obtain ⟨hstart, hQ⟩ := hstart.parser hdoes (hkeeps []) hq
  rw [result?_bind hq]
  exact hf a s₁ (hdoes hq).1 hQ hstart hrest

/-- What leaves a node or none, where there is no header. -/
theorem plain {Q : Option NodeId → ParserState → Prop} (hhead : head.result? s = none)
    (hdoes : p.Does s Q) (hyields : p.YieldsSome) : p.Completes head start s := by
  intro hstart x s' hrun
  have hrest : Runs start s' (x.toList ++ []) := (hstart.parser hdoes (hyields []) hrun).1
  rw [List.append_nil] at hrest
  rw [hhead]
  exact .plain hrest

theorem ite {c : Prop} [Decidable c] (hp : c → p.Completes head start s)
    (hq : ¬ c → q.Completes head start s) : (if c then p else q).Completes head start s := by
  split
  · next hc => exact hp hc
  · next hc => exact hq hc

/-- A check that complains or does nothing. -/
theorem check {c : Prop} [Decidable c] {token : Token} {complaint : Complaint}
    {next : Unit → Parser (Option NodeId)} (h : (next ()).Completes head start s) :
    (if c then failAt token complaint >>= next else next ()).Completes head start s := by
  split
  · intro _ x s' hrun
    cases hrun
  · exact h

theorem get {f : ParserState → Parser (Option NodeId)} (h : (f s).Completes head start s) :
    ((MonadState.get : Parser ParserState) >>= f).Completes head start s := h

theorem current {f : Token → Parser (Option NodeId)} (h : (f s.front).Completes head start s) :
    (Parser.current >>= f).Completes head start s := h

theorem following {f : Token → Parser (Option NodeId)}
    (h : (f s.next.front).Completes head start s) :
    (Parser.following >>= f).Completes head start s := by
  intro hstart x s' hrun
  rw [run_following] at hrun
  exact h hstart hrun

/-- An item that ends with the mark in front has no header. -/
theorem acceptNone {mark : Symbol} (hhead : s.front.lexeme = .symbol mark → head.result? s = none)
    (hp : p.Completes head start s) :
    (accept mark >>= fun b => if b then pure none else p).Completes head start s := by
  intro hstart x s' hrun
  rw [run_accept] at hrun
  split at hrun
  · next hmark =>
    cases hrun
    rw [hhead hmark]
    exact .plain ⟨hstart.steps.tail .consume, hstart.moves.tail (.keep rfl rfl rfl)⟩
  · exact hp hstart hrun

end Completes

end Parser

namespace Shader

variable {start s s' : ParserState}

/-! ## Headers -/

/-- The header of a function behind its result: a name, and parameters in parentheses. -/
def functionHeader (result : Shape) : Parser FunctionDecl := do
  let (_, name) ← expectName
  let params ← params
  return heading name (params.map (·.shape)) result

/-- The header of a function. -/
def header : Parser FunctionDecl := do
  let _ ← Declaration.qualifiers
  let result ← Declaration.specifier
  functionHeader result

theorem expectName_of_name {name : String} (h : s.front.lexeme = .name name) :
    expectName s = .ok ((s.front, name), s.next) := by
  unfold expectName
  rw [run_current, h]
  refine run_advance _ fun error => ?_
  rw [h]
  exact nofun

theorem expectName_of_other (h : ∀ name, s.front.lexeme ≠ .name name) :
    expectName.result? s = none := by
  unfold result? expectName
  rw [run_current]
  cases hlexeme : s.front.lexeme with
  | name text => exact absurd hlexeme (h text)
  | _ => rfl

theorem expect_of_other {mark : Symbol} (h : s.front.lexeme ≠ .symbol mark) :
    (expect mark).result? s = none := by
  unfold result? expect expectLexeme
  rw [run_current, if_neg (by simpa using h)]
  rfl

/-- A name without a parenthesis behind it begins no function. -/
theorem functionHeader_of_other {result : Shape} (h : ∀ name, s.front.lexeme = .name name →
    s.next.front.lexeme ≠ .symbol .leftParen) : (functionHeader result).result? s = none := by
  by_cases hname : ∃ name, s.front.lexeme = .name name
  · obtain ⟨name, hname⟩ := hname
    unfold functionHeader
    rw [result?_bind (expectName_of_name hname)]
    exact result?_bind_of_none (result?_bind_of_none (expect_of_other (h name hname)))
  · exact result?_bind_of_none (expectName_of_other (not_exists.1 hname))

theorem specifier_of_name {name : String} (h : s.front.lexeme = .name name)
    (htype : s.type? name = none) : Declaration.specifier.result? s = none := by
  have hreadable : ∀ error, s.front.lexeme ≠ .bad error := by
    rw [h]
    exact fun _ => nofun
  have hget : (get : Parser ParserState) s.next = .ok (s.next, s.next) := rfl
  have hnext : s.next.type? name = none := htype
  unfold result? Declaration.specifier knot knotWithin Declaration.specifierRule
  rw [run_current, h]
  change ((advance >>= _) s).toOption.map _ = _
  rw [run_advance _ hreadable, bind_of_ok hget, hnext]
  rfl

/-- No header is in front where a directive, a semicolon or a precision statement is. -/
theorem header_of_aside (h : (∃ text, s.front.lexeme = .directive text) ∨
    s.front.lexeme = .symbol .semicolon ∨ s.front.lexeme = .keyword .precision) :
    header.result? s = none := by
  have hqualifiers : Declaration.qualifiers s = .ok ({}, s) := by
    unfold Declaration.qualifiers loop loopWithin Declaration.qualifierStep
    rw [bind_assoc, run_current]
    rcases h with ⟨text, h⟩ | h | h
    · rw [h]
      rfl
    · rw [h]
      rfl
    · rw [h]
      rfl
  have hspecifier : Declaration.specifier.result? s = none := by
    unfold result? Declaration.specifier knot knotWithin Declaration.specifierRule
    rw [run_current]
    rcases h with ⟨text, h⟩ | h | h
    · rw [h]
      rfl
    · rw [h]
      rfl
    · rw [h]
      rfl
  unfold header
  rw [result?_bind hqualifiers]
  exact result?_bind_of_none hspecifier

theorem inScope_run {α : Type} {p : Parser α} {a : α} (hrun : inScope p s = .ok (a, s')) :
    ∃ s₁, p s.opened = .ok (a, s₁) ∧ s' = s₁.closed := by
  obtain ⟨_, _, hopen, hrest⟩ := bind_eq_ok hrun
  cases hopen
  obtain ⟨b, s₁, hp, hclose⟩ := bind_eq_ok hrest
  cases hclose
  exact ⟨s₁, hp, rfl⟩

theorem Declares.name_eq {header decl : FunctionDecl} (h : Declares s header decl s') :
    decl.name = header.name ∧ decl.signature = header.signature := by
  cases h with
  | again _ hname hsignature _ => exact ⟨hname, hsignature⟩
  | first _ => exact ⟨rfl, rfl⟩

/-- The parameters and the body of a definition are at hand when its node is made. -/
theorem functionParts_run {params : List Param} {symbols : List (Option NodeId)}
    {list body : NodeId} {line : Nat} {s₁ s₂ : ParserState} (hstart : Runs start s [])
    (hparams : ParamsTyped params s) (hsymbols : params.mapM declareParam s = .ok (symbols, s₁))
    (hlist : addSequence .parameters (symbols.filterMap id) line s₁ = .ok (list, s₂))
    (hbody : Statement.functionBody s₂ = .ok (body, s')) : Runs start s' [body, list] := by
  obtain ⟨hstart, hhas⟩ := hstart.parser (declareParams_does hparams)
    (.mapM Option.toList declareParam_yieldsSome params) hsymbols
  have hids : symbols.flatMap Option.toList = symbols.filterMap id :=
    (List.filterMap_eq_flatMap_toList id symbols).symm
  rw [hids] at hstart
  obtain ⟨hstart, _⟩ := hstart.parser (.hand (.sequence (by simp)) hhas) addSequence_builds hlist
  exact (hstart.parser (Statement.functionBody_does s₂) (Statement.functionBody_yields _) hbody).1

theorem function_completes {result : Shape} (hresult : s.IsType result) :
    (function result).Completes (functionHeader result) start s := by
  refine .bind (Q := fun _ _ => True) ?_ expectName_keeps fun x s₁ hs₁ _ => ?_
  · rw [← bind_pure expectName]
    exact .expectName fun _ => .pure trivial
  obtain ⟨token, name⟩ := x
  refine .check (.get (.check ?_))
  refine .bind (params_does s₁) params_keeps fun params s₂ hs₂ hparams => ?_
  have hresult₂ : s₂.IsType result := (hs₁.grows.trans hs₂.grows).isType hresult
  have hshapes : ∀ shape ∈ params.map (·.shape), s₂.IsType shape := List.forall_mem_map.2 hparams
  intro hheader x s' hrun
  obtain ⟨decl, s₃, hdeclare, hafter⟩ := bind_eq_ok hrun
  obtain ⟨hs₃, hdeclares, _⟩ := declareFunction_does _ _ hresult₂ hshapes hdeclare
  have hhead : Heads start _ decl s₃ := .intro hheader rfl hshapes hdeclares
  rw [run_accept] at hafter
  clear hrun
  split at hafter
  · cases hafter
    exact .prototype hhead ⟨.single .consume, .single (.keep rfl rfl rfl)⟩
  cases hdefined : decl.isDefined with
  | true =>
    rw [hdefined] at hafter
    cases hafter
  | false =>
    rw [hdefined] at hafter
    have hscope : inScope _ (s₃.withBody decl.name decl.signature) = .ok (x, s') := hafter
    obtain ⟨s₄, hinner, rfl⟩ := inScope_run hscope
    obtain ⟨symbols, s₅, hsymbols, hrest⟩ := bind_eq_ok hinner
    obtain ⟨list, s₆, hlist, hrest⟩ := bind_eq_ok hrest
    obtain ⟨body, s₇, hbody, hrest⟩ := bind_eq_ok hrest
    cases hrest
    have hgrows : Grows s₂ (s₃.withBody decl.name decl.signature).opened :=
      (hs₃.grows.trans (Step.defined _ _).grows).trans Step.opens.grows
    have hparts := functionParts_run ⟨.single .opens, .single (.keep rfl rfl rfl)⟩
      (hparams.grows hgrows) hsymbols hlist hbody
    obtain ⟨hname, hsignature⟩ := hdeclares.name_eq
    rw [hname, hsignature] at hparts
    exact .definition ⟨⟨decl, hhead, hdefined⟩, ⟨list, body, hparts, rfl⟩, rfl, hname, hsignature⟩

theorem externalDeclaration_completes : externalDeclaration.Completes header start s := by
  refine .bind (Declaration.qualifiers_does s) Declaration.qualifiers_keeps fun q s₁ _ _ => ?_
  refine .current (.following ?_)
  extract_lets typed
  have htyped : (typed ()).Completes (Declaration.specifier >>= functionHeader) start s₁ := by
    refine .bind (Declaration.specifier_does s₁) Declaration.specifier_keeps
      fun shape s₂ _ hshape => .acceptNone (fun hsemicolon => ?_) (.current (.following ?_))
    · refine functionHeader_of_other fun name hname => ?_
      rw [hsemicolon] at hname
      cases hname
    split
    · exact function_completes hshape
    · next hother =>
      exact .plain (functionHeader_of_other hother) (Declaration.declarators_does q hshape true)
        (Declaration.declarators_yieldsSome _ _ _)
  split
  · next name _ hname _ =>
    refine .get (.ite (fun htype => ?_) fun _ => htyped)
    refine .plain (Q := fun _ _ => True) ?_ ?_ fun held => ?_
    · refine result?_bind_of_none (specifier_of_name hname ?_)
      exact Option.not_isSome_iff_eq_none.1 (by simpa [ParserState.isTypeName] using htype)
    · exact .advance (.advance (.pure trivial))
    · refine advance_keeps.bind fun _ => ?_
      exact advance_keeps.bind fun _ => YieldsSome.none held
  · exact htyped

/-! ## One item after another -/

/-- One item of the top level, which is not the end. -/
def item : Parser (Option NodeId) := do
  match (← current).lexeme with
  | .directive text =>
    Directive.parse (← advance) text
    return none
  | .symbol .semicolon =>
    let _ ← advance
    return none
  | .keyword .precision =>
    let _ ← advance
    Declaration.precision
    let _ ← Declaration.specifier
    let _ ← expect .semicolon
    return none
  | _ => externalDeclaration

/-- A shader ends with its tokens; before that there is one more item. -/
theorem itemStep_eq (items : List NodeId) (s : ParserState) :
    itemStep items s =
      if s.front.lexeme = .endOfInput then .ok (.stop items.reverse, s)
      else (item >>= fun x => pure (.again (x.toList ++ items))) s := by
  unfold itemStep item
  rw [bind_assoc, run_current, run_current]
  by_cases hend : s.front.lexeme = .endOfInput
  · rw [if_pos hend, hend]
    rfl
  · rw [if_neg hend]
    generalize s.front.lexeme = lexeme at hend
    split
    · exact absurd rfl hend
    · simp only [bind_assoc]
      rfl
    · simp only [bind_assoc]
      rfl
    · simp only [bind_assoc]
      rfl
    · next hdirective hsemicolon hprecision =>
      split
      · exact (hdirective _ rfl).elim
      · exact (hsemicolon rfl).elim
      · exact (hprecision rfl).elim
      · refine congrFun (congrArg (externalDeclaration >>= ·) (funext fun x => ?_)) s
        cases x <;> rfl

/-- The items of a shader are read one after another. -/
theorem loopWithin_itemStep (turns : Nat) (items : List NodeId) (s : ParserState) :
    loopWithin itemStep (turns + 1) items s =
      if s.front.lexeme = .endOfInput then .ok (items.reverse, s)
      else item s >>= fun x => loopWithin itemStep turns (x.1.toList ++ items) x.2 := by
  change (itemStep items s >>= _) = _
  rw [itemStep_eq]
  split
  · rfl
  · change ((item s >>= _) >>= _) = _
    rw [bind_assoc]
    rfl

theorem item_does (s : ParserState) : item.Does s fun _ _ => True := by
  refine .current ?_
  split
  · refine .advance ((Directive.parse_does _ _ _).bind fun _ s' _ _ => .pure trivial)
  · exact .advance (.pure trivial)
  · refine .advance ((Declaration.precision_does _).bind fun _ s₁ _ _ => ?_)
    refine (Declaration.specifier_does s₁).bind fun _ s₂ _ _ => ?_
    exact .expectLexeme (.pure trivial)
  · exact (externalDeclaration_does s).mono fun _ _ _ _ => trivial

theorem item_completes : item.Completes header start s := by
  refine .current ?_
  split
  · next text hdirective =>
    refine .plain (Q := fun _ _ => True) (header_of_aside (.inl ⟨text, hdirective⟩)) ?_
      fun held => ?_
    · exact .advance ((Directive.parse_does _ _ _).bind fun _ s' _ _ => .pure trivial)
    · refine advance_keeps.bind fun _ => ?_
      exact (Directive.parse_keeps _ _).bind fun _ => YieldsSome.none held
  · next hsemicolon =>
    refine .plain (Q := fun _ _ => True) (header_of_aside (.inr (.inl hsemicolon)))
      (.advance (.pure trivial)) fun held => ?_
    exact advance_keeps.bind fun _ => YieldsSome.none held
  · next hprecision =>
    refine .plain (Q := fun _ _ => True) (header_of_aside (.inr (.inr hprecision))) ?_
      fun held => ?_
    · refine .advance ((Declaration.precision_does _).bind fun _ s₁ _ _ => ?_)
      refine (Declaration.specifier_does s₁).bind fun _ s₂ _ _ => ?_
      exact .expectLexeme (.pure trivial)
    · refine advance_keeps.bind fun _ => ?_
      refine Declaration.precision_keeps.bind fun _ => ?_
      refine Declaration.specifier_keeps.bind fun _ => ?_
      exact (expect_keeps _).bind fun _ => YieldsSome.none held
  · exact externalDeclaration_completes

/-- The state after a number of items. -/
def stateAt (tokens : List Token) : Nat → Option ParserState
  | 0 => some { rest := tokens }
  | k + 1 => (stateAt tokens k).bind fun s => (item s).toOption.map (·.2)

/-- The function whose header begins an item, if there is one. -/
def headerAt (tokens : List Token) (k : Nat) : Option FunctionDecl :=
  (stateAt tokens k).bind header.result?

/-- The functions whose headers begin the first items of a shader. One that is declared again is
listed again. -/
def headers (tokens : List Token) (k : Nat) : List FunctionDecl :=
  (List.range k).filterMap (headerAt tokens)

/-- The node is made while the item with the given number is read. -/
def MadeBy (tokens : List Token) (k : Nat) (id : NodeId) : Prop :=
  ∃ s s', stateAt tokens k = some s ∧ stateAt tokens (k + 1) = some s' ∧ ¬ s.Has id ∧ s'.Has id

theorem headers_succ (tokens : List Token) (k : Nat) :
    headers tokens (k + 1) = headers tokens k ++ (headerAt tokens k).toList := by
  unfold headers
  rw [List.range_succ, List.filterMap_append, List.filterMap_eq_flatMap_toList _ [k],
    List.flatMap_singleton]

end Shader

/-- Between the states `s` and `s'` the item with number `k` is read. -/
structure ItemAt (tokens : List Token) (k : Nat) (s : ParserState) (header : Option FunctionDecl)
    (x : Option NodeId) (s' : ParserState) : Prop where
  before : Shader.stateAt tokens k = some s
  after : Shader.stateAt tokens (k + 1) = some s'
  header_eq : Shader.headerAt tokens k = header
  item : Item s header x s'
  steps : Steps s s'

theorem Shader.itemAt_of_run {tokens : List Token} {k : Nat} {s s' : ParserState}
    {x : Option NodeId} (hs : stateAt tokens k = some s) (hrun : item s = .ok (x, s')) :
    ItemAt tokens k s (header.result? s) x s' := by
  refine ⟨hs, ?_, ?_, item_completes ⟨.refl, .refl⟩ hrun, (item_does s hrun).1⟩
  · rw [stateAt, hs, Option.bind_some, hrun]
    rfl
  · rw [headerAt, hs, Option.bind_some]

theorem Shader.itemAt_of_stateAt {tokens : List Token} {k : Nat} {s' : ParserState}
    (hs' : stateAt tokens (k + 1) = some s') : ∃ s d x, ItemAt tokens k s d x s' := by
  obtain ⟨s, hs, hrest⟩ := Option.bind_eq_some_iff.1 hs'
  obtain ⟨⟨x, s''⟩, hrun, rfl⟩ := Option.map_eq_some_iff.1 hrest
  have hrun : item s = .ok (x, s'') := by
    cases hitem : item s with
    | error e =>
      rw [hitem] at hrun
      cases hrun
    | ok y =>
      rw [hitem] at hrun
      cases hrun
      rfl
  exact ⟨s, _, x, itemAt_of_run hs hrun⟩

theorem Shader.steps_stateAt {tokens : List Token} {j k : Nat} {s s' : ParserState} (hjk : j ≤ k)
    (hs : stateAt tokens j = some s) (hs' : stateAt tokens k = some s') : Steps s s' := by
  induction hjk generalizing s' with
  | refl =>
    obtain rfl : s = s' := Option.some.inj (hs.symm.trans hs')
    exact .refl
  | @step k _ ih =>
    obtain ⟨s₁, d, x, h⟩ := itemAt_of_stateAt hs'
    exact (ih h.before).trans h.steps

/-- A node is made by one item only. -/
theorem Shader.MadeBy.unique {tokens : List Token} {j k : Nat} {id : NodeId}
    (hj : MadeBy tokens j id) (hk : MadeBy tokens k id) : j = k := by
  have hordered : ∀ {j k}, MadeBy tokens j id → MadeBy tokens k id → ¬ j < k := by
    rintro j k ⟨_, s', -, hs', -, hhas⟩ ⟨s, _, hs, -, hnew, -⟩ hlt
    exact hnew ((steps_stateAt hlt hs' hs).grows.has hhas)
  exact Nat.le_antisymm (Nat.not_lt.1 (hordered hk hj)) (Nat.not_lt.1 (hordered hj hk))

/-- The first `k` items leave the nodes `items`, the last one in front. -/
inductive Items (tokens : List Token) : Nat → List NodeId → ParserState → Prop where
  | start : Items tokens 0 [] { rest := tokens }
  | item {k : Nat} {items : List NodeId} {s s' : ParserState} {header : Option FunctionDecl}
      {x : Option NodeId} (h : Items tokens k items s) (hitem : ItemAt tokens k s header x s') :
      Items tokens (k + 1) (x.toList ++ items) s'

namespace Items

variable {tokens : List Token} {k : Nat} {items : List NodeId} {s : ParserState}

theorem stateAt_eq (h : Items tokens k items s) : Shader.stateAt tokens k = some s := by
  cases h with
  | start => rfl
  | item _ hitem => exact hitem.after

/-- Every node is made during an item, and what the item leaves is kept. -/
theorem locate (h : Items tokens k items s) {id : NodeId} (hid : s.Has id) :
    ∃ j a d x b, ItemAt tokens j a d x b ∧ ¬ a.Has id ∧ b.Has id ∧ Steps b s ∧
      ∀ item ∈ x, item ∈ items := by
  induction h with
  | start => exact absurd hid (Nat.not_lt_zero _)
  | @item k items s s' d x _ hitem ih =>
    by_cases hold : s.Has id
    · obtain ⟨j, a, d, y, b, hitem', ha, hb, hsteps, hkept⟩ := ih hold
      refine ⟨j, a, d, y, b, hitem', ha, hb, hsteps.trans hitem.steps, fun item hy => ?_⟩
      exact List.mem_append_right _ (hkept item hy)
    · refine ⟨k, s, d, x, s', hitem, hold, hid, .refl, fun item hx => ?_⟩
      exact List.mem_append_left _ (Option.mem_toList.2 hx)

end Items

/-! ## Ownership at the top level -/

theorem Shader.Declares.nodes_eq {s s' : ParserState} {header decl : FunctionDecl}
    (h : Declares s header decl s') : s'.nodes = s.nodes ∧ s'.globals = s.globals := by
  cases h with
  | again _ _ _ _ => exact ⟨rfl, rfl⟩
  | first _ => exact ⟨rfl, rfl⟩

theorem Runs.owned {s s' : ParserState} {held items : List NodeId} (h : Runs s s' held)
    (hs : Owned s.nodes (items ++ s.globals)) :
    Owned s'.nodes (held ++ items ++ s'.globals) := (h.moves.frame items).owned hs

theorem Heads.owned {s s' : ParserState} {header decl : FunctionDecl} {items : List NodeId}
    (h : Heads s header decl s') (hs : Owned s.nodes (items ++ s.globals)) :
    Owned s'.nodes (items ++ s'.globals) := by
  obtain ⟨hrun, -, -, hdeclares⟩ := h
  rw [hdeclares.nodes_eq.1, hdeclares.nodes_eq.2]
  exact hrun.owned hs

theorem Item.owned {s s' : ParserState} {header : Option FunctionDecl} {x : Option NodeId}
    {items : List NodeId} (h : Item s header x s') (hs : Owned s.nodes (items ++ s.globals)) :
    Owned s'.nodes (x.toList ++ items ++ s'.globals) := by
  cases h with
  | plain hrun => exact hrun.owned hs
  | prototype hhead hend => exact hend.owned (hhead.owned hs)
  | @definition header s₁ s₂ n h =>
    obtain ⟨⟨decl, hhead, -⟩, ⟨list, body, hbody, hchildren⟩, -, -, -⟩ := h
    have hparts : Owned s₂.nodes ([body, list] ++ items ++ s₂.globals) :=
      hbody.owned (hhead.owned hs)
    have hpush : Owned (s₂.nodes.push n) (s₂.nodes.size :: (items ++ s₂.globals)) := by
      refine Owned.push (hparts.sub (List.Perm.subperm ?_))
      rw [hchildren, List.append_assoc]
      exact (List.Perm.swap body list []).append_right _
    exact hpush

theorem Items.owned {tokens : List Token} {k : Nat} {items : List NodeId} {s : ParserState}
    (h : Items tokens k items s) : Owned s.nodes (items ++ s.globals) := by
  induction h with
  | start => exact .empty
  | item _ hitem ih => exact hitem.item.owned ih

/-! ## Whole shaders -/

namespace Shader

theorem items_of_loopWithin {tokens : List Token} {turns k : Nat} {items result : List NodeId}
    {s s' : ParserState} (h : Items tokens k items s)
    (hrun : loopWithin itemStep turns items s = .ok (result, s')) :
    ∃ k', Items tokens k' result.reverse s' := by
  induction turns generalizing k items s with
  | zero => cases hrun
  | succ turns ih =>
    rw [loopWithin_itemStep] at hrun
    split at hrun
    · cases hrun
      rw [List.reverse_reverse]
      exact ⟨k, h⟩
    · cases hitem : item s with
      | error e =>
        rw [hitem] at hrun
        cases hrun
      | ok x =>
        rw [hitem] at hrun
        exact ih (h.item (itemAt_of_run h.stateAt_eq hitem)) hrun

/-- A shader is its items, the list of its global variables, and the root above them. -/
theorem shader_run {tokens : List Token} {s : ParserState} {root : NodeId}
    (hrun : shader { rest := tokens } = .ok (root, s)) :
    ∃ k items s₁ globals top, Items tokens k items s₁ ∧
      Node.kind globals = .sequence ∧ Node.children globals = s₁.globals ∧
      Node.kind top = .sequence ∧ Node.children top = items.reverse ++ [s₁.nodes.size] ∧
      s.nodes = (s₁.nodes.push globals).push top ∧ root = (s₁.nodes.push globals).size ∧
      s.structs = s₁.structs := by
  obtain ⟨result, s₁, hloop, hrest⟩ := bind_eq_ok hrun
  obtain ⟨k, hitems⟩ := items_of_loopWithin .start hloop
  cases hrest
  exact ⟨k, result.reverse, s₁, _, _, hitems, rfl, rfl, rfl, by rw [List.reverse_reverse]; rfl,
    rfl, rfl, rfl⟩

end Shader

/-- Arenas that are read from tokens are trees. -/
theorem Tree.ofTokens_isTree {tokens : List Token} {t : Tree} (h : Tree.ofTokens tokens = .ok t) :
    t.IsTree := by
  obtain ⟨root, s, hrun, rfl, -⟩ := Tree.ofTokens_steps h
  obtain ⟨k, items, s₁, globals, top, hitems, -, hglobals, -, htop, hnodes, hroot, -⟩ :=
    Shader.shader_run hrun
  have hbehind : Owned s₁.nodes (globals.children ++ items) := by
    rw [hglobals]
    exact hitems.owned.sub List.perm_append_comm.subperm
  have hlisted : Owned (s₁.nodes.push globals) (top.children ++ []) := by
    rw [htop, List.append_nil]
    refine hbehind.push.sub (List.Perm.subperm ?_)
    exact (List.perm_append_singleton _ _).trans ((List.reverse_perm items).cons _)
  have howned : Owned s.nodes [root] := by
    rw [hnodes, hroot]
    exact hlisted.push
  refine ⟨⟨root, rfl, ?_⟩, howned.down, (List.nodup_append.1 howned.once).1⟩
  rw [hroot, ← Array.size_push top, ← hnodes]
  rfl

/-- The nodes of a state are in the tree. -/
structure Tree.Includes (t : Tree) (s : ParserState) : Prop where
  lt_size : ∀ {id}, s.Has id → id < t.size
  node_eq : ∀ {id}, s.Has id → t.node id = s.node id

/-- The nodes of a tree are those that its items have made, and two sequences above them. -/
structure Tree.Comprises (t : Tree) (items : List NodeId) (s : ParserState) : Prop
    extends t.Includes s where
  has : ∀ {id}, id < t.size → (t.node id).kind ≠ .sequence → s.Has id
  reachable : ∀ item ∈ items, t.Reachable item

theorem Shader.shader_comprises {tokens : List Token} {s : ParserState} {root : NodeId}
    (hrun : shader { rest := tokens } = .ok (root, s)) :
    ∃ k items s₁, Items tokens k items s₁ ∧ s.structs = s₁.structs ∧
      Tree.Comprises { nodes := s.nodes, root := some root } items s₁ := by
  obtain ⟨k, items, s₁, globals, top, hitems, hlist, -, hsequence, htop, hnodes, hroot, hstructs⟩ :=
    shader_run hrun
  have hsize : s.nodes.size = s₁.nodes.size + 2 := by
    rw [hnodes, Array.size_push, Array.size_push]
  have hroot : root = s₁.nodes.size + 1 := by rw [hroot, Array.size_push]
  have hnode : ∀ id, s.nodes.getD id default = if id = s₁.nodes.size + 1 then top else
      if id = s₁.nodes.size then globals else s₁.node id := by
    intro id
    rw [hnodes, getD_push, getD_push, Array.size_push]
    rfl
  refine ⟨k, items, s₁, hitems, hstructs, ⟨fun {id} hid => ?_, fun {id} hid => ?_⟩,
    fun {id} hid hkind => ?_, fun item hitem => ⟨root, rfl, .single ?_⟩⟩
  · change id < s.nodes.size
    rw [hsize]
    exact Nat.lt_add_right 2 hid
  · have hlt : id < s₁.nodes.size := hid
    have htop : id ≠ s₁.nodes.size + 1 := Nat.ne_of_lt (Nat.lt_succ_of_lt hlt)
    exact (hnode id).trans (by rw [if_neg htop, if_neg (Nat.ne_of_lt hlt)])
  · have hlt : id < s₁.nodes.size + 2 := hsize ▸ hid
    have hkind : (s.nodes.getD id default).kind ≠ .sequence := hkind
    rw [hnode] at hkind
    by_contra hnot
    have hge : s₁.nodes.size ≤ id := Nat.le_of_not_lt hnot
    by_cases hid : id = s₁.nodes.size
    · have htop : id ≠ s₁.nodes.size + 1 := by omega
      rw [if_neg htop, if_pos hid] at hkind
      exact hkind hlist
    · have htop : id = s₁.nodes.size + 1 := by omega
      rw [if_pos htop] at hkind
      exact hkind hsequence
  · unfold Tree.children Tree.node
    rw [hnode, if_pos hroot, htop]
    exact List.mem_append_left _ (List.mem_reverse.2 hitem)

end ShaderCost
