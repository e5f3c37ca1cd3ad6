import ShaderCost.Proofs.Grammar.Endings

/-! # Where reading is cut off

A token list is cut off by a token that cannot be read. The same tokens with the end of the input in
its place make a second list, and reading goes the same way on both until it needs what stands
there. `Cut` holds the tokens of both lists, `Parser.Mirrors` compares the runs of a parser on them:

* they come to the same result, in states that differ in the last token only; or
* both complain in the same words at a readable token; or
* one complains at the end of the input or behind it, and the other that the token cannot be read.

A parser that needs a token has only the third way when it begins at the cut (`Parser.Needs`).
-/

namespace ShaderCost

/-- The complaint stands at the place of a token. -/
def ParseError.StandsAt (e : ParseError) (token : Token) : Prop :=
  e.line = token.line ∧ e.column = token.column

/-- Readable tokens, with the place where they are cut off and the reason. -/
structure Cut where
  readable : List Token
  place : Token
  error : LexError
  readable_notLast : ∀ token ∈ readable, token.lexeme.isLast = false

namespace Cut

/-- The end of the input at the cut. -/
def stop (c : Cut) : Token := { c.place with lexeme := .endOfInput }

/-- The token at the cut that cannot be read. -/
def bad (c : Cut) : Token := { c.place with lexeme := .bad c.error }

/-- The complaint about the token that cannot be read. -/
def complaint (c : Cut) : ParseError :=
  { complaint := .lexical c.error, line := c.place.line, column := c.place.column }

variable (c : Cut)

/-- A complaint about the readable tokens. -/
def Early (e : ParseError) : Prop := ∃ token ∈ c.readable, e.StandsAt token

/-- A complaint about the end of the input. -/
def Late (e : ParseError) : Prop := e.StandsAt c.place ∨ e.StandsAt .nowhere

/-- States before the two lists, with the same tokens left up to the cut. -/
structure Twins (s s' : ParserState) : Prop where
  rest : ∃ front, front <:+ c.readable ∧ s.rest = front ++ [c.stop] ∧ s'.rest = front ++ [c.bad]
  same : s' = { s with rest := s'.rest }

/-- States with nothing left before the cut. -/
structure AtCut (s s' : ParserState) : Prop where
  twins : c.Twins s s'
  rest : s.rest = [c.stop]
  rest' : s'.rest = [c.bad]

/-- States with a readable token in front. -/
structure Reads (s s' : ParserState) : Prop where
  mem : s.front ∈ c.readable
  front : s'.front = s.front
  next : c.Twins s.next s'.next

/-- What two runs come to. -/
inductive Outcome {α : Type} :
    Except ParseError (α × ParserState) → Except ParseError (α × ParserState) → Prop where
  | ok {a : α} {s s' : ParserState} (h : c.Twins s s') : Outcome (.ok (a, s)) (.ok (a, s'))
  | early {e : ParseError} (h : c.Early e) : Outcome (.error e) (.error e)
  | late {e : ParseError} (h : c.Late e) : Outcome (.error e) (.error c.complaint)

/-- Both runs need the token that is not there. -/
def Refused {α : Type} (run run' : Except ParseError (α × ParserState)) : Prop :=
  ∃ e, c.Late e ∧ run = .error e ∧ run' = .error c.complaint

variable {c} {s s' : ParserState}

theorem Refused.outcome {α : Type} {run run' : Except ParseError (α × ParserState)}
    (h : c.Refused run run') : c.Outcome run run' := by
  obtain ⟨e, he, rfl, rfl⟩ := h
  exact .late he

/-- What follows a refusal is not read. -/
theorem Refused.bind {α β : Type} {p p' : Parser α} {f f' : α → Parser β}
    (h : c.Refused (p s) (p' s')) : c.Refused ((p >>= f) s) ((p' >>= f') s') := by
  obtain ⟨e, he, hrun, hrun'⟩ := h
  refine ⟨e, he, ?_, ?_⟩
  · change (p s >>= fun x => f x.1 x.2) = _
    rw [hrun]
    rfl
  · change (p' s' >>= fun x => f' x.1 x.2) = _
    rw [hrun']
    rfl

/-- Different parsers may refuse, each on one of the lists. -/
theorem Refused.across {α β : Type} {run run' : Except ParseError (β × ParserState)} {p : Parser α}
    {f : α → Parser β} (h : c.Refused run run') (h' : c.Refused (p s) (p s')) :
    c.Refused run ((p >>= f) s') := by
  obtain ⟨e, he, hrun, -⟩ := h
  have hbind : c.Refused ((p >>= f) s) ((p >>= f) s') := h'.bind
  obtain ⟨-, -, -, hrun'⟩ := hbind
  exact ⟨e, he, hrun, hrun'⟩

/-- A parser that comes to the same result on both lists without a token. -/
theorem Refused.after {α β : Type} {p : Parser α} {f : α → Parser β} {a : α}
    (hp : p s = .ok (a, s) ∧ p s' = .ok (a, s')) (h : c.Refused (f a s) (f a s')) :
    c.Refused ((p >>= f) s) ((p >>= f) s') := by
  change c.Refused (p s >>= fun x => f x.1 x.2) (p s' >>= fun x => f x.1 x.2)
  rw [hp.1, hp.2]
  exact h

namespace Twins

theorem length_rest (h : c.Twins s s') : s'.rest.length = s.rest.length := by
  obtain ⟨front, -, hrest, hrest'⟩ := h.rest
  simp [hrest, hrest']

theorem front_cases (h : c.Twins s s') : c.Reads s s' ∨ c.AtCut s s' := by
  obtain ⟨front, hfront, hrest, hrest'⟩ := h.rest
  cases front with
  | nil => exact Or.inr ⟨h, hrest, hrest'⟩
  | cons token front =>
    refine Or.inl ⟨?_, ?_, ?_⟩
    · rw [ParserState.front, hrest]
      exact hfront.mem List.mem_cons_self
    · rw [ParserState.front, ParserState.front, hrest, hrest']
      rfl
    · refine ⟨⟨front, (List.suffix_cons token front).trans hfront, ?_, ?_⟩, ?_⟩
      · rw [ParserState.next, hrest]
        rfl
      · rw [ParserState.next, hrest']
        rfl
      · rw [ParserState.next, ParserState.next, h.same]

/-- A change of the state that leaves the tokens as they are. -/
theorem update (h : c.Twins s s') {g : ParserState → ParserState}
    (hg : ∀ s rest, g { s with rest } = { g s with rest }) : c.Twins (g s) (g s') := by
  have hrest : ∀ s, (g s).rest = s.rest := fun s => (congrArg ParserState.rest (hg s s.rest) :)
  constructor
  · rw [hrest, hrest]
    exact h.rest
  · rw [hrest, ← hg, ← h.same]

end Twins

namespace AtCut

theorem front (h : c.AtCut s s') : s.front = c.stop := by
  rw [ParserState.front, h.rest]
  rfl

theorem front' (h : c.AtCut s s') : s'.front = c.bad := by
  rw [ParserState.front, h.rest']
  rfl

/-- At the cut there is nothing to consume. -/
theorem advance_refused (h : c.AtCut s s') : Parser.advance s' = .error c.complaint := by
  have hbad : s'.front.lexeme = .bad c.error := by rw [h.front']; rfl
  rw [Parser.advance_of_bad hbad, h.front']
  rfl

/-- A complaint at the cut. -/
theorem fail {α : Type} (h : c.AtCut s s') (complaint complaint' : Complaint) :
    c.Refused ((Parser.fail complaint : Parser α) s) ((Parser.fail complaint' : Parser α) s') := by
  rw [Parser.run_fail, Parser.run_fail, h.front, h.front']
  exact ⟨_, Or.inl ⟨rfl, rfl⟩, rfl, rfl⟩

end AtCut

theorem Reads.lexeme (h : c.Reads s s') : s.front.lexeme.isLast = false :=
  c.readable_notLast _ h.mem

/-- A readable token can be stepped over, and both runs step over the same one. -/
theorem Reads.run_advance {α : Type} (h : c.Reads s s') (f : Token → Parser α) :
    (Parser.advance >>= f) s = f s.front s.next ∧
      (Parser.advance >>= f) s' = f s.front s'.next := by
  have hreadable : ∀ error, s.front.lexeme ≠ .bad error := by
    intro error hbad
    have hlexeme := h.lexeme
    rw [hbad] at hlexeme
    cases hlexeme
  have hreadable' : ∀ error, s'.front.lexeme ≠ .bad error := h.front.symm ▸ hreadable
  constructor
  · exact Parser.run_advance f hreadable
  · rw [Parser.run_advance f hreadable', h.front]

end Cut

namespace Parser

variable {α β : Type}

/-- From states that differ at the cut only, the two runs of a parser go the same way up to it. -/
def Mirrors (c : Cut) (p : Parser α) (s s' : ParserState) : Prop :=
  c.Twins s s' → c.Outcome (p s) (p s')

/-- A parser that goes the same way up to the cut, and needs at least one token. -/
structure Needs (c : Cut) (p : Parser α) : Prop where
  mirrors : ∀ s s', p.Mirrors c s s'
  refuses : ∀ s s', c.AtCut s s' → c.Refused (p s) (p s')

namespace Mirrors

variable {c : Cut} {s s' : ParserState} {p : Parser α} {f : α → Parser β}

theorem pure {a : α} : (Pure.pure a : Parser α).Mirrors c s s' := fun h => .ok h

theorem bind (hp : p.Mirrors c s s') (hf : ∀ a s s', (f a).Mirrors c s s') :
    (p >>= f).Mirrors c s s' := by
  intro h
  change c.Outcome (p s >>= fun x => f x.1 x.2) (p s' >>= fun x => f x.1 x.2)
  generalize hrun : p s = run
  generalize hrun' : p s' = run'
  have houtcome : c.Outcome run run' := hrun ▸ hrun' ▸ hp h
  cases houtcome with
  | @ok a s₁ s₁' htwins => exact hf a s₁ s₁' htwins
  | early he => exact .early he
  | late he => exact .late he

theorem map {g : α → β} (hp : p.Mirrors c s s') : (g <$> p).Mirrors c s s' := by
  rw [map_eq_pure_bind]
  exact hp.bind fun _ _ _ => .pure

theorem ite {q : Parser α} {b : Prop} [Decidable b] (hp : b → p.Mirrors c s s')
    (hq : ¬ b → q.Mirrors c s s') : (if b then p else q).Mirrors c s s' := by
  split
  · next hb => exact hp hb
  · next hb => exact hq hb

/-- Both runs complain at the same readable token. -/
theorem failAt {token : Token} (htoken : token ∈ c.readable) {complaint : Complaint} :
    (Parser.failAt token complaint : Parser α).Mirrors c s s' :=
  fun _ => .early ⟨token, htoken, rfl, rfl⟩

theorem failAt_bind {token : Token} (htoken : token ∈ c.readable) {complaint : Complaint} :
    (Parser.failAt token complaint >>= f).Mirrors c s s' :=
  failAt htoken

/-- A check that complains or does nothing. -/
theorem check {b : Prop} [Decidable b] {token : Token} (htoken : token ∈ c.readable)
    {complaint : Complaint} {next : Unit → Parser β} (h : (next ()).Mirrors c s s') :
    (if b then Parser.failAt token complaint >>= next else next ()).Mirrors c s s' :=
  .ite (fun _ => .failAt_bind htoken) fun _ => h

/-- A part that is left out where it is not called for. -/
theorem optional {b : Prop} [Decidable b] {next : Parser β} (hp : b → p.Mirrors c s s')
    (h : ∀ s s', next.Mirrors c s s') :
    (if b then p >>= fun _ => next else next).Mirrors c s s' :=
  .ite (fun hb => (hp hb).bind fun _ => h) fun _ => h s s'

/-- Two ways to what comes next. -/
theorem choose {b : Prop} [Decidable b] {q : Parser α} (hp : p.Mirrors c s s')
    (hq : q.Mirrors c s s') (hf : ∀ a s s', (f a).Mirrors c s s') :
    (if b then p >>= f else q >>= f).Mirrors c s s' :=
  .ite (fun _ => hp.bind hf) fun _ => hq.bind hf

/-- What a parser finds in the state is not the tokens. -/
theorem get {f : ParserState → Parser β} (hf : ∀ rest, f { s with rest } = f s)
    (h : (f s).Mirrors c s s') : ((get : Parser ParserState) >>= f).Mirrors c s s' := by
  intro htwins
  have hsame : f s' = f s := by rw [htwins.same, hf]
  change c.Outcome (f s s) (f s' s')
  rw [hsame]
  exact h htwins

theorem modify {g : ParserState → ParserState}
    (hg : ∀ s rest, g { s with rest } = { g s with rest }) :
    (modify g : Parser PUnit).Mirrors c s s' :=
  fun h => .ok (h.update hg)

/-! ## Tokens -/

/-- The token in front is the same, or the runs have come to the cut. -/
theorem current {f : Token → Parser β} (hreads : c.Reads s s' → (f s.front).Mirrors c s s')
    (hcut : c.AtCut s s' → c.Outcome (f c.stop s) (f c.bad s')) :
    (Parser.current >>= f).Mirrors c s s' := by
  intro h
  rw [run_current, run_current]
  rcases h.front_cases with hfront | hfront
  · rw [hfront.front]
    exact hreads hfront h
  · rw [hfront.front, hfront.front']
    exact hcut hfront

/-- The token behind the one in front is the same, or it is at the cut. -/
theorem following {f : Token → Parser β}
    (hsame : ∀ token, (token.lexeme.isLast = false → c.Reads s.next s'.next) →
      (f token).Mirrors c s s')
    (hcut : c.Twins s s' → c.Outcome (f c.stop s) (f c.bad s')) :
    (Parser.following >>= f).Mirrors c s s' := by
  intro h
  change c.Outcome (f (s.rest.getD 1 .nowhere) s) (f (s'.rest.getD 1 .nowhere) s')
  obtain ⟨front, -, hrest, hrest'⟩ := h.rest
  match front with
  | [] =>
    rw [hrest, hrest']
    exact hsame .nowhere nofun h
  | [_] =>
    rw [hrest, hrest']
    exact hcut h
  | first :: second :: front =>
    have hreads : c.Reads s.next s'.next := by
      rcases h.front_cases with hfront | hfront
      · rcases hfront.next.front_cases with hnext | hnext
        · exact hnext
        · have hlength := congrArg List.length hnext.rest
          simp [ParserState.next, hrest] at hlength
      · have hlength := congrArg List.length hfront.rest
        simp [hrest] at hlength
    rw [hrest, hrest']
    exact hsame second (fun _ => hreads) h

/-- A parser that looks at two tokens, and takes notice only of a name with a mark behind it. -/
theorem lookahead (mark : Symbol) {f : Token → Token → Parser β} {q : Parser β}
    (hother : ∀ token next, (∀ name, token.lexeme = .name name → next.lexeme ≠ .symbol mark) →
      f token next = q)
    (hq : q.Mirrors c s s')
    (hmark : ∀ next, next.lexeme = .symbol mark → c.Reads s s' → c.Reads s.next s'.next →
      q.Mirrors c s s' → (f s.front next).Mirrors c s s') :
    (Parser.current >>= fun token => Parser.following >>= f token).Mirrors c s s' := by
  refine .current (fun hreads => .following (fun next hnext => ?_) fun htwins => ?_) fun hcut => ?_
  · by_cases hlexeme : next.lexeme = .symbol mark
    · exact hmark next hlexeme hreads (hnext (by rw [hlexeme]; rfl)) hq
    · rw [hother s.front next fun _ _ => hlexeme]
      exact hq
  · have hstop : f s.front c.stop = q := hother _ _ fun _ _ h => by cases h
    have hbad : f s.front c.bad = q := hother _ _ fun _ _ h => by cases h
    rw [hstop, hbad]
    exact hq htwins
  · have hstop : ∀ next, f c.stop next = q := fun next => hother _ _ fun _ h => by cases h
    have hbad : ∀ next, f c.bad next = q := fun next => hother _ _ fun _ h => by cases h
    rw [run_following, run_following, hstop, hbad]
    exact hq hcut.twins

theorem isAt {mark : Symbol} {f : Bool → Parser β}
    (h : ∀ b, (b = true → c.Reads s s') → (f b).Mirrors c s s') :
    (Parser.isAt mark >>= f).Mirrors c s s' := by
  unfold Parser.isAt
  rw [bind_assoc]
  refine .current (fun hreads => ?_) fun hcut => ?_
  · exact h _ fun _ => hreads
  · exact h false nofun hcut.twins

theorem advance {f : Token → Parser β} (hreads : c.Reads s s')
    (h : (f s.front).Mirrors c s.next s'.next) : (Parser.advance >>= f).Mirrors c s s' := by
  intro _
  obtain ⟨hrun, hrun'⟩ := hreads.run_advance f
  rw [hrun, hrun']
  exact h hreads.next

theorem fail {complaint : Complaint} : (Parser.fail complaint : Parser α).Mirrors c s s' := by
  unfold Parser.fail
  refine .current (fun hreads => .failAt hreads.mem) fun hcut => ?_
  exact .late (Or.inl ⟨rfl, rfl⟩)

theorem fail_bind {complaint : Complaint} : (Parser.fail complaint >>= f).Mirrors c s s' := by
  unfold Parser.fail
  rw [bind_assoc]
  refine .current (fun hreads => .failAt_bind hreads.mem) fun hcut => ?_
  exact .late (Or.inl ⟨rfl, rfl⟩)

theorem accept (mark : Symbol) : (Parser.accept mark).Mirrors c s s' := by
  refine .current (fun hreads => ?_) fun hcut => .ok hcut.twins
  exact .ite (fun _ => .advance hreads .pure) fun _ => .pure

/-- A word that is passed over where a symbol follows it. -/
theorem skipWord {word : String} {mark : Symbol} {next : Parser β}
    (h : ∀ s s', next.Mirrors c s s') :
    (Parser.current >>= fun front => Parser.following >>= fun second =>
      if (front.lexeme == .name word && second.lexeme == .symbol mark) = true then
        Parser.advance >>= fun _ => next
      else next).Mirrors c s s' := by
  refine .current (fun hreads => .following (fun second _ => ?_) fun htwins => ?_) fun hcut => ?_
  · exact .ite (fun _ => .advance hreads (h _ _)) fun _ => h _ _
  · rw [if_neg (by simp [Cut.stop]), if_neg (by simp [Cut.bad])]
    exact h s s' htwins
  · exact h s s' hcut.twins

/-- The lexeme is in front, and can be stepped over. -/
theorem expectLexeme {lexeme : Lexeme} {f : Token → Parser β} (hlexeme : lexeme.isLast = false)
    (h : c.Reads s s' → (f s.front).Mirrors c s.next s'.next) :
    (Parser.expectLexeme lexeme >>= f).Mirrors c s s' := by
  unfold Parser.expectLexeme
  rw [bind_assoc]
  refine .current (fun hreads => ?_) fun hcut => ?_
  · split
    · exact .advance hreads (h hreads)
    · exact .fail_bind
  · rw [if_neg, if_neg]
    · exact (hcut.fail _ _).bind.outcome
    · intro hbad
      rw [← eq_of_beq hbad] at hlexeme
      cases hlexeme
    · intro hstop
      rw [← eq_of_beq hstop] at hlexeme
      cases hlexeme

theorem expect {mark : Symbol} {f : Token → Parser β}
    (h : c.Reads s s' → (f s.front).Mirrors c s.next s'.next) :
    (Parser.expect mark >>= f).Mirrors c s s' :=
  .expectLexeme rfl h

theorem expects {mark : Symbol} : (Parser.expect mark).Mirrors c s s' := by
  rw [← bind_pure (Parser.expect mark)]
  exact .expect fun _ => .pure

theorem expectKeyword {word : Keyword} {f : Token → Parser β}
    (h : c.Reads s s' → (f s.front).Mirrors c s.next s'.next) :
    (Parser.expectKeyword word >>= f).Mirrors c s s' :=
  .expectLexeme rfl h

theorem expectName {f : Token × String → Parser β}
    (h : ∀ name, c.Reads s s' → (f (s.front, name)).Mirrors c s.next s'.next) :
    (Parser.expectName >>= f).Mirrors c s s' := by
  unfold Parser.expectName
  rw [bind_assoc]
  refine .current (fun hreads => ?_) fun hcut => ?_
  · split
    · next name _ =>
      rw [bind_assoc]
      exact .advance hreads (h name hreads)
    · exact .fail_bind
  · exact (hcut.fail _ _).bind.outcome

theorem found {x : Option α} : (Parser.found x).Mirrors c s s' := by
  cases x with
  | none => exact .fail
  | some a => exact .pure

/-! ## Nodes and scopes -/

theorem addNode {n : Node} : (Parser.addNode n).Mirrors c s s' := by
  intro h
  have hsize : s'.nodes.size = s.nodes.size := by rw [h.same]
  have hpush : c.Twins (s.push n) (s'.push n) := h.update (g := (·.push n)) fun _ _ => rfl
  change c.Outcome (.ok (s.nodes.size, s.push n)) (.ok (s'.nodes.size, s'.push n))
  rw [hsize]
  exact .ok hpush

theorem nodeAt {id : NodeId} : (Parser.nodeAt id).Mirrors c s s' :=
  .get (fun _ => rfl) .found

theorem shapeAt {id : NodeId} : (Parser.shapeAt id).Mirrors c s s' :=
  nodeAt.bind fun _ _ _ => .pure

theorem mapM {γ : Type} {g : γ → Parser α} (h : ∀ x s s', (g x).Mirrors c s s') (xs : List γ) :
    (xs.mapM g).Mirrors c s s' := by
  induction xs generalizing s s' with
  | nil => exact .pure
  | cons x xs ih =>
    rw [List.mapM_cons]
    exact (h x s s').bind fun _ _ _ => ih.bind fun _ _ _ => .pure

theorem declare {v : Variable} : (Parser.declare v).Mirrors c s s' := .modify fun _ _ => rfl

theorem inScope (hp : ∀ s s', p.Mirrors c s s') : (Parser.inScope p).Mirrors c s s' := by
  apply bind
  · exact .modify fun _ _ => rfl
  · intro _ s s'
    exact (hp s s').bind fun _ _ _ => .bind (.modify fun _ _ => rfl) fun _ _ _ => .pure

/-! ## Repetition -/

theorem loop {step : α → Parser (Turn α β)} {a : α} (hstep : ∀ a s s', (step a).Mirrors c s s') :
    (Parser.loop step a).Mirrors c s s' := by
  have hwithin : ∀ turns a s s', (loopWithin step turns a).Mirrors c s s' := by
    intro turns
    induction turns with
    | zero => intro a s s'; exact .fail
    | succ turns ih =>
      intro a s s'
      refine (hstep a s s').bind fun turn s s' => ?_
      cases turn with
      | again a => exact ih a s s'
      | stop b => exact .pure
  intro h
  unfold Parser.loop
  rw [h.length_rest]
  exact hwithin _ a s s' h

end Mirrors

/-! ## Parsers that need a token -/

namespace Needs

variable {c : Cut} {p : Parser α} {f : α → Parser β}

theorem bind (hp : Needs c p) (hf : ∀ a s s', (f a).Mirrors c s s') : Needs c (p >>= f) where
  mirrors s s' := (hp.mirrors s s').bind hf
  refuses s s' hcut := (hp.refuses s s' hcut).bind

theorem lookahead (mark : Symbol) {f : Token → Token → Parser β} {q : Parser β}
    (hother : ∀ token next, (∀ name, token.lexeme = .name name → next.lexeme ≠ .symbol mark) →
      f token next = q)
    (hq : Needs c q)
    (hmark : ∀ s s' next, next.lexeme = .symbol mark → c.Reads s s' → c.Reads s.next s'.next →
      q.Mirrors c s s' → (f s.front next).Mirrors c s s') :
    Needs c (Parser.current >>= fun token => Parser.following >>= f token) := by
  constructor
  · intro s s'
    exact .lookahead mark hother (hq.mirrors s s') (hmark s s')
  · intro s s' hcut
    have hstop : ∀ next, f c.stop next = q := fun next => hother _ _ fun _ h => by cases h
    have hbad : ∀ next, f c.bad next = q := fun next => hother _ _ fun _ h => by cases h
    rw [run_current, run_current, hcut.front, hcut.front', run_following, run_following, hstop,
      hbad]
    exact hq.refuses s s' hcut

theorem knot {ρ : Type} {rules : (ρ → Parser α) → ρ → Parser α}
    (h : ∀ self : ρ → Parser α, (∀ rule, Needs c (self rule)) → ∀ rule, Needs c (rules self rule))
    (rule : ρ) : Needs c (Parser.knot rules rule) := by
  have hwithin : ∀ depth rule, Needs c (knotWithin rules depth rule) := by
    intro depth
    induction depth with
    | zero => exact fun _ => ⟨fun _ _ => .fail, fun _ _ hcut => hcut.fail _ _⟩
    | succ depth ih => exact h _ ih
  constructor
  · intro s s' htwins
    unfold Parser.knot
    rw [htwins.length_rest]
    exact (hwithin _ rule).mirrors s s' htwins
  · intro s s' hcut
    unfold Parser.knot
    rw [hcut.twins.length_rest]
    exact (hwithin _ rule).refuses s s' hcut

end Needs

end Parser

end ShaderCost
