import ShaderCost.Proofs.Grammar.Endings
import ShaderCost.Proofs.Grammar.NameReads

/-! # A literal in the place of a name

In a list of tokens one name is exchanged for a literal (`Exchange`), and a parser is run on both
lists. Beside them it runs on the first list with reading given up at that name (`Halt`).
`Exchange.Outcome` compares the three runs:

* the token is not consumed, and all three have come to the same result; or
* the token was read, but not as a name that stands for something, or reading has failed before it:
  then giving up at the name changes nothing; or
* reading was given up at the name. If the name stands for the value of the literal there, the other
  two runs are the same.

So nothing is asked of the second list where the token has another use than as an operand.
-/

namespace ShaderCost

open Expression (Naming)

/-- Tokens at one place that are an operand by themselves. -/
inductive Token.OperandAt (line column : Nat) : Token → Prop where
  | name (text : String) (start stop : Nat) :
      OperandAt line column ⟨.name text, start, stop, line, column⟩
  | int (text : String) (start stop : Nat) :
      OperandAt line column ⟨.int text, start, stop, line, column⟩
  | uint (text : String) (start stop : Nat) :
      OperandAt line column ⟨.uint text, start, stop, line, column⟩
  | float (text : String) (start stop : Nat) :
      OperandAt line column ⟨.float text, start, stop, line, column⟩
  | bool (b : Bool) (start stop : Nat) :
      OperandAt line column ⟨.bool b, start, stop, line, column⟩

theorem Token.operandAt_of_value {token : Token} {value : Constant}
    (h : Literal.value token.lexeme = .ok value) : token.OperandAt token.line token.column := by
  obtain ⟨lexeme, start, stop, line, column⟩ := token
  cases lexeme with
  | int text => exact .int text start stop
  | uint text => exact .uint text start stop
  | float text => exact .float text start stop
  | bool b => exact .bool b start stop
  | _ => cases h

/-- A name and the literal that takes its place, the tokens behind it, and what is said when reading
is given up at the name. -/
structure Exchange where
  place : Token
  name : String
  literal : Token
  value : Constant
  after : List Token
  report : NameRead → ParseError
  literal_line : literal.line = place.line
  literal_column : literal.column = place.column
  literal_value : Literal.value literal.lexeme = .ok value

namespace Exchange

/-- The name at its place. -/
def use (x : Exchange) : Token := { x.place with lexeme := .name x.name }

/-- Operands at the place of the exchange. -/
def Operand (x : Exchange) (token : Token) : Prop :=
  token.OperandAt x.place.line x.place.column

/-- Gives up at the name. -/
@[reducible]
def naming (x : Exchange) : Naming := Halt.naming ⟨x.after.length, x.report⟩

variable (x : Exchange)

/-- States in front of the two lists, before the exchange. -/
structure Twins (s s' : ParserState) : Prop where
  rest : ∃ front, s.rest = front ++ x.use :: x.after ∧ s'.rest = front ++ x.literal :: x.after
  same : s' = { s with rest := s'.rest }

/-- States with the exchanged tokens in front. -/
structure AtUse (s s' : ParserState) : Prop where
  twins : x.Twins s s'
  rest : s.rest = x.use :: x.after
  rest' : s'.rest = x.literal :: x.after

/-- States with the same token in front. -/
structure Reads (s s' : ParserState) : Prop where
  front : s'.front = s.front
  next : x.Twins s.next s'.next

/-- What the three runs come to. -/
inductive Outcome {α : Type} :
    Except ParseError (α × ParserState) → Except ParseError (α × ParserState) →
      Except ParseError (α × ParserState) → Prop where
  | going {a : α} {s s' : ParserState} (h : x.Twins s s') :
      Outcome (.ok (a, s)) (.ok (a, s)) (.ok (a, s'))
  | passed {run run' : Except ParseError (α × ParserState)}
      (h : ∀ a s, run = .ok (a, s) → s.rest.length ≤ x.after.length) : Outcome run run run'
  | stopped {run run' : Except ParseError (α × ParserState)} {r : NameRead}
      (h : r.state.expansion? r.name = some x.value → run = run') :
      Outcome run (.error (x.report r)) run'

variable {x} {s s' : ParserState}

theorem operand_literal (x : Exchange) : x.Operand x.literal := by
  have hliteral := Token.operandAt_of_value x.literal_value
  rwa [x.literal_line, x.literal_column] at hliteral

theorem operand_use (x : Exchange) : x.Operand x.use :=
  .name x.name x.place.start x.place.stop

theorem Operand.ne_symbol {token : Token} (h : x.Operand token) (mark : Symbol) :
    token.lexeme ≠ .symbol mark := by
  cases h <;> exact Lexeme.noConfusion

theorem literal_ne_name (x : Exchange) (text : String) : x.literal.lexeme ≠ .name text := by
  intro hname
  have hvalue := x.literal_value
  rw [hname] at hvalue
  cases hvalue

theorem Twins.length_rest (h : x.Twins s s') : s'.rest.length = s.rest.length := by
  obtain ⟨front, hrest, hrest'⟩ := h.rest
  simp [hrest, hrest']

/-- The name is not consumed. -/
theorem Twins.lt_length (h : x.Twins s s') : x.after.length < s.rest.length := by
  obtain ⟨front, hrest, -⟩ := h.rest
  rw [hrest, List.length_append, List.length_cons]
  omega

theorem Twins.front_cases (h : x.Twins s s') : x.Reads s s' ∨ x.AtUse s s' := by
  obtain ⟨front, hrest, hrest'⟩ := h.rest
  cases front with
  | nil => exact Or.inr ⟨h, hrest, hrest'⟩
  | cons token front =>
    refine Or.inl ⟨?_, ⟨front, ?_, ?_⟩, ?_⟩
    · rw [ParserState.front, ParserState.front, hrest, hrest']
      rfl
    · rw [ParserState.next, hrest]
      rfl
    · rw [ParserState.next, hrest']
      rfl
    · rw [ParserState.next, ParserState.next, h.same]

/-- A change of the state that leaves the tokens as they are. -/
theorem Twins.update (h : x.Twins s s') {g : ParserState → ParserState}
    (hg : ∀ s rest, g { s with rest } = { g s with rest }) : x.Twins (g s) (g s') := by
  have hrest : ∀ s, (g s).rest = s.rest := fun s => (congrArg ParserState.rest (hg s s.rest) :)
  constructor
  · rw [hrest, hrest]
    exact h.rest
  · rw [hrest, ← hg, ← h.same]

/-- What stands behind the exchange is the same. -/
theorem AtUse.next (h : x.AtUse s s') : s'.next = s.next := by
  have hsame := h.twins.same
  rw [ParserState.next, ParserState.next, h.rest, hsame, h.rest']
  rfl

theorem AtUse.front' (h : x.AtUse s s') : s'.front = x.literal := by
  rw [ParserState.front, h.rest']
  rfl

theorem front_of_rest (h : s.rest = x.use :: x.after) : s.front = x.use := by
  rw [ParserState.front, h]
  rfl

theorem length_next (h : s.rest = x.use :: x.after) :
    s.next.rest.length = x.after.length := by
  rw [ParserState.next, h]
  rfl

end Exchange

namespace Parser

variable {α β : Type}

/-- Giving up at the name changes nothing, and behind the run the token is consumed. -/
structure Bypasses (x : Exchange) (p halted : Parser α) (s : ParserState) : Prop where
  same : halted s = p s
  consumed : ∀ a s', p s = .ok (a, s') → s'.rest.length ≤ x.after.length

/-- The runs of a parser go the same way up to the exchange. -/
structure Tracks (x : Exchange) (p halted : Parser α) : Prop where
  behind : ∀ s, s.rest.length ≤ x.after.length → Bypasses x p halted s
  along : ∀ s s', x.Twins s s' → x.Outcome (p s) (halted s) (p s')

/-- A parser that consumes the token where it begins with it, but not as an operand. -/
structure Takes (x : Exchange) (p halted : Parser α) : Prop where
  tracks : Tracks x p halted
  takes : ∀ s, s.rest = x.use :: x.after → Bypasses x p halted s

theorem advance_cases (s : ParserState) :
    (∃ e, ∀ s' : ParserState, s'.front = s.front → advance s' = .error e) ∨
      ∀ s' : ParserState, s'.front = s.front → advance s' = .ok (s'.front, s'.next) := by
  by_cases hbad : ∃ error, s.front.lexeme = .bad error
  · obtain ⟨error, hbad⟩ := hbad
    refine Or.inl ⟨⟨.lexical error, s.front.line, s.front.column⟩, fun s' hfront => ?_⟩
    rw [advance_of_bad (hfront ▸ hbad), hfront]
  · refine Or.inr fun s' hfront => advance_of_readable fun error h => hbad ⟨error, ?_⟩
    rw [← hfront, h]

/-! ## Behind the exchange -/

namespace Bypasses

variable {x : Exchange} {p p' : Parser α} {f f' : α → Parser β} {s : ParserState}

theorem outcome (h : Bypasses x p p' s) (run' : Except ParseError (α × ParserState)) :
    x.Outcome (p s) (p' s) run' := by
  rw [h.same]
  exact .passed h.consumed

/-- A parser whose runs are all there is to know about it. -/
theorem of_eq {q q' : Parser α} {t : ParserState} (h : Bypasses x q q' t) (hp : p s = q t)
    (hp' : p' s = q' t) : Bypasses x p p' s where
  same := by rw [hp, hp', h.same]
  consumed a s' hrun := h.consumed a s' (hp ▸ hrun)

theorem fails {e : ParseError} (hp : p s = .error e) (hp' : p' s = .error e) :
    Bypasses x p p' s := by
  refine ⟨hp'.trans hp.symm, fun a s' hrun => ?_⟩
  rw [hp] at hrun
  cases hrun

theorem bind (hsame : p' s = p s)
    (hf : ∀ a s', p s = .ok (a, s') → Bypasses x (f a) (f' a) s') :
    Bypasses x (p >>= f) (p' >>= f') s := by
  cases hrun : p s with
  | error e => exact fails (bind_of_error hrun f) (bind_of_error (hsame.trans hrun) f')
  | ok result =>
    obtain ⟨a, s'⟩ := result
    exact (hf a s' hrun).of_eq (bind_of_ok hrun f) (bind_of_ok (hsame.trans hrun) f')

/-- Once the token is consumed, all that follows passes. -/
theorem bind_tracks (hp : Bypasses x p p' s) (hf : ∀ a, Tracks x (f a) (f' a)) :
    Bypasses x (p >>= f) (p' >>= f') s :=
  bind hp.same fun a s' hrun => (hf a).behind s' (hp.consumed a s' hrun)

end Bypasses

/-! ## Sequences and choices -/

namespace Tracks

variable {x : Exchange} {p p' : Parser α} {f f' : α → Parser β}

theorem pure {a : α} : Tracks x (Pure.pure a : Parser α) (Pure.pure a) where
  behind s hs := by
    refine ⟨rfl, fun b s' hrun => ?_⟩
    cases hrun
    exact hs
  along s s' h := .going h

theorem fails (h : ∀ s, ∃ e, p s = .error e ∧ p' s = .error e) : Tracks x p p' where
  behind s _ := by
    obtain ⟨e, hp, hp'⟩ := h s
    exact .fails hp hp'
  along s s' _ := by
    obtain ⟨e, hp, hp'⟩ := h s
    exact (Bypasses.fails hp hp').outcome _

theorem bind (hp : Tracks x p p') (hf : ∀ a, Tracks x (f a) (f' a)) :
    Tracks x (p >>= f) (p' >>= f') where
  behind s hs := (hp.behind s hs).bind_tracks hf
  along s s' h := by
    have houtcome := hp.along s s' h
    generalize hrun : p s = run at houtcome
    generalize hhalted : p' s = halted at houtcome
    generalize hrun' : p s' = run' at houtcome
    cases houtcome with
    | @going a t t' htwins =>
      rw [bind_of_ok hrun, bind_of_ok hhalted, bind_of_ok hrun']
      exact (hf a).along t t' htwins
    | passed hconsumed =>
      have hbypasses : Bypasses x p p' s := ⟨hhalted.trans hrun.symm, hrun ▸ hconsumed⟩
      exact (hbypasses.bind_tracks hf).outcome _
    | stopped hsame =>
      -- the plain runs are the same from here on, so nothing is asked of what follows
      rw [bind_of_error hhalted]
      refine .stopped fun hvalue => ?_
      change (p s >>= fun x => f x.1 x.2) = (p s' >>= fun x => f x.1 x.2)
      rw [hrun, hrun', hsame hvalue]

theorem map {g : α → β} (hp : Tracks x p p') : Tracks x (g <$> p) (g <$> p') := by
  rw [map_eq_pure_bind, map_eq_pure_bind]
  exact hp.bind fun _ => .pure

theorem ite {q q' : Parser α} {b : Prop} [Decidable b] (hp : b → Tracks x p p')
    (hq : ¬ b → Tracks x q q') : Tracks x (if b then p else q) (if b then p' else q') := by
  split
  · next hb => exact hp hb
  · next hb => exact hq hb

theorem failAt {token : Token} {complaint : Complaint} :
    Tracks x (Parser.failAt token complaint : Parser α) (Parser.failAt token complaint) :=
  .fails fun _ => ⟨_, rfl, rfl⟩

theorem failAt_bind {token : Token} {complaint : Complaint} :
    Tracks x (Parser.failAt token complaint >>= f) (Parser.failAt token complaint >>= f') :=
  .fails fun _ => ⟨_, rfl, rfl⟩

theorem fail {complaint : Complaint} :
    Tracks x (Parser.fail complaint : Parser α) (Parser.fail complaint) :=
  .fails fun _ => ⟨_, rfl, rfl⟩

theorem fail_bind {complaint : Complaint} :
    Tracks x (Parser.fail complaint >>= f) (Parser.fail complaint >>= f') :=
  .fails fun _ => ⟨_, rfl, rfl⟩

/-- A check that complains or does nothing. -/
theorem check {b : Prop} [Decidable b] {token : Token} {complaint : Complaint}
    {next next' : Unit → Parser β} (h : Tracks x (next ()) (next' ())) :
    Tracks x (if b then Parser.failAt token complaint >>= next else next ())
      (if b then Parser.failAt token complaint >>= next' else next' ()) :=
  .ite (fun _ => .failAt_bind) fun _ => h

/-- A part that is left out where it is not called for. -/
theorem optional {b : Prop} [Decidable b] {next next' : Parser β} (hp : Tracks x p p')
    (h : Tracks x next next') :
    Tracks x (if b then p >>= fun _ => next else next)
      (if b then p' >>= fun _ => next' else next') :=
  .ite (fun _ => hp.bind fun _ => h) fun _ => h

/-- Two ways to what comes next. -/
theorem choose {b : Prop} [Decidable b] {q q' : Parser α} (hp : Tracks x p p')
    (hq : Tracks x q q') (hf : ∀ a, Tracks x (f a) (f' a)) :
    Tracks x (if b then p >>= f else q >>= f) (if b then p' >>= f' else q' >>= f') :=
  .ite (fun _ => hp.bind hf) fun _ => hq.bind hf

/-- What a parser finds in the state is not the tokens. -/
theorem get {f f' : ParserState → Parser β} (hf : ∀ s rest, f { s with rest } = f s)
    (h : ∀ s, Tracks x (f s) (f' s)) :
    Tracks x ((get : Parser ParserState) >>= f) ((get : Parser ParserState) >>= f') where
  behind s hs := ((h s).behind s hs).of_eq rfl rfl
  along s s' htwins := by
    have hsame : f s' = f s := by rw [htwins.same, hf]
    change x.Outcome (f s s) (f' s s) (f s' s')
    rw [hsame]
    exact (h s).along s s' htwins

theorem modify {g : ParserState → ParserState}
    (hg : ∀ s rest, g { s with rest } = { g s with rest }) :
    Tracks x (modify g : Parser PUnit) (modify g) where
  behind s hs := by
    refine ⟨rfl, fun _ s' hrun => ?_⟩
    cases hrun
    have hrest : (g s).rest = s.rest := (congrArg ParserState.rest (hg s s.rest) :)
    rw [hrest]
    exact hs
  along s s' h := .going (h.update hg)

/-! ## Tokens -/

/-- At the exchange the parser sees different tokens in front. -/
theorem current {f f' : Token → Parser β} (h : ∀ token, Tracks x (f token) (f' token))
    (huse : ∀ s s', x.AtUse s s' → x.Outcome (f x.use s) (f' x.use s) (f x.literal s')) :
    Tracks x (Parser.current >>= f) (Parser.current >>= f') where
  behind s hs := ((h s.front).behind s hs).of_eq rfl rfl
  along s s' htwins := by
    rw [run_current, run_current, run_current]
    rcases htwins.front_cases with hreads | hat
    · rw [hreads.front]
      exact (h s.front).along s s' htwins
    · rw [Exchange.front_of_rest hat.rest, hat.front']
      exact huse s s' hat

/-- A parser that may give up behind a name, but only at the exchange. -/
theorem current_operand {f f' : Token → Parser β}
    (hother : ∀ token, (∀ text, token.lexeme ≠ .name text) → Tracks x (f token) (f' token))
    (hname : ∀ token text, token.lexeme = .name text → ∃ q, Tracks x (f token) q ∧
      ∀ s : ParserState, s.front = token → s.next.rest.length ≠ x.after.length →
        f' token s = q s)
    (huse : ∀ s s', x.AtUse s s' → x.Outcome ((Parser.current >>= f) s)
      ((Parser.current >>= f') s) ((Parser.current >>= f) s')) :
    Tracks x (Parser.current >>= f) (Parser.current >>= f') where
  behind s hs := by
    suffices hbypasses : Bypasses x (f s.front) (f' s.front) s from hbypasses.of_eq rfl rfl
    by_cases hfront : ∃ text, s.front.lexeme = .name text
    · obtain ⟨text, hfront⟩ := hfront
      obtain ⟨q, hq, hsame⟩ := hname s.front text hfront
      have hrest : s.rest = s.front :: s.next.rest := ParserState.rest_of_front (by simp [hfront])
      have hlength := congrArg List.length hrest
      rw [List.length_cons] at hlength
      exact (hq.behind s hs).of_eq rfl (hsame s rfl (by omega))
    · exact (hother s.front fun text h => hfront ⟨text, h⟩).behind s hs
  along s s' htwins := by
    rcases htwins.front_cases with hreads | hat
    -- in front of the exchange more tokens are left than where reading is given up
    · rw [run_current, run_current, run_current, hreads.front]
      by_cases hfront : ∃ text, s.front.lexeme = .name text
      · obtain ⟨text, hfront⟩ := hfront
        obtain ⟨q, hq, hsame⟩ := hname s.front text hfront
        rw [hsame s rfl hreads.next.lt_length.ne']
        exact hq.along s s' htwins
      · exact (hother s.front fun text h => hfront ⟨text, h⟩).along s s' htwins
    · exact huse s s' hat

/-- A parser for which all operands are the same. -/
theorem current_same {f f' : Token → Parser β} (h : ∀ token, Tracks x (f token) (f' token))
    (hsame : ∀ token, x.Operand token → f token = f x.use) :
    Tracks x (Parser.current >>= f) (Parser.current >>= f') := by
  refine .current h fun s s' hat => ?_
  rw [hsame _ x.operand_literal]
  exact (h x.use).along s s' hat.twins

/-- The token behind the one in front may be exchanged. -/
theorem following {f f' : Token → Parser β} (h : ∀ token, Tracks x (f token) (f' token))
    (hsame : ∀ token, x.Operand token → f token = f x.use) :
    Tracks x (Parser.following >>= f) (Parser.following >>= f') where
  behind s hs := ((h s.next.front).behind s hs).of_eq (run_following f s) (run_following f' s)
  along s s' htwins := by
    rw [run_following, run_following, run_following]
    have hfront : f s'.next.front = f s.next.front := by
      rcases htwins.front_cases with hreads | hat
      · rcases hreads.next.front_cases with hreads | hat
        · rw [hreads.front]
        · rw [hat.front', hsame _ x.operand_literal, Exchange.front_of_rest hat.rest]
      · rw [hat.next]
    rw [hfront]
    exact (h _).along s s' htwins

theorem isAt {mark : Symbol} {f f' : Bool → Parser β} (h : ∀ b, Tracks x (f b) (f' b)) :
    Tracks x (Parser.isAt mark >>= f) (Parser.isAt mark >>= f') := by
  unfold Parser.isAt
  rw [bind_assoc, bind_assoc]
  refine .current_same (fun token => h _) ?_
  rintro _ ⟨⟩ <;> rfl

end Tracks

/-! ## Where the exchanged token is consumed -/

namespace Takes

variable {x : Exchange} {p p' q q' : Parser α} {f f' : α → Parser β}

theorem bind (hp : Takes x p p') (hf : ∀ a, Tracks x (f a) (f' a)) :
    Takes x (p >>= f) (p' >>= f') where
  tracks := hp.tracks.bind hf
  takes s hs := (hp.takes s hs).bind_tracks hf

theorem fail {complaint : Complaint} :
    Takes x (Parser.fail complaint : Parser α) (Parser.fail complaint) where
  tracks := .fail
  takes _ _ := .fails rfl rfl

theorem fail_bind {complaint : Complaint} :
    Takes x (Parser.fail complaint >>= f) (Parser.fail complaint >>= f') where
  tracks := .fail_bind
  takes _ _ := .fails rfl rfl

theorem ite {b : Prop} [Decidable b] (hp : b → Takes x p p') (hq : ¬ b → Takes x q q') :
    Takes x (if b then p else q) (if b then p' else q') := by
  split
  · next hb => exact hp hb
  · next hb => exact hq hb

theorem get {f f' : ParserState → Parser β} (hf : ∀ s rest, f { s with rest } = f s)
    (h : ∀ s, Takes x (f s) (f' s)) :
    Takes x ((get : Parser ParserState) >>= f) ((get : Parser ParserState) >>= f') where
  tracks := .get hf fun s => (h s).tracks
  takes s hs := ((h s).takes s hs).of_eq rfl rfl

theorem current {f f' : Token → Parser β} (h : ∀ token, Takes x (f token) (f' token)) :
    Takes x (Parser.current >>= f) (Parser.current >>= f') where
  tracks := .current (fun token => (h token).tracks) fun s _ hat =>
    ((h x.use).takes s hat.rest).outcome _
  takes s hs := ((h s.front).takes s hs).of_eq rfl rfl

theorem following {f f' : Token → Parser β} (h : ∀ token, Takes x (f token) (f' token))
    (hsame : ∀ token, x.Operand token → f token = f x.use) :
    Takes x (Parser.following >>= f) (Parser.following >>= f') where
  tracks := .following (fun token => (h token).tracks) hsame
  takes s hs := ((h s.next.front).takes s hs).of_eq (run_following f s) (run_following f' s)

/-- A parser that looks at two tokens, and takes notice only of a name with a mark behind it. -/
theorem lookahead (mark : Symbol) {f f' : Token → Token → Parser β} {q q' : Parser β}
    (hother : ∀ token next, (∀ name, token.lexeme = .name name → next.lexeme ≠ .symbol mark) →
      f token next = q ∧ f' token next = q')
    (hq : Takes x q q') (h : ∀ token next, Takes x q q' → Takes x (f token next) (f' token next)) :
    Takes x (Parser.current >>= fun token => Parser.following >>= f token)
      (Parser.current >>= fun token => Parser.following >>= f' token) := by
  have hoperand : ∀ token next, x.Operand next → f token next = q :=
    fun token next hnext => (hother token next fun _ _ => hnext.ne_symbol mark).1
  refine .current fun token => .following (fun next => h token next hq) fun next hnext => ?_
  rw [hoperand token next hnext, hoperand token x.use x.operand_use]

theorem advance : Takes x Parser.advance Parser.advance := by
  have hbypasses : ∀ s : ParserState, s.next.rest.length ≤ x.after.length →
      Bypasses x Parser.advance Parser.advance s := by
    intro s hs
    refine ⟨rfl, fun token s' hrun => ?_⟩
    rcases advance_cases s with ⟨e, herror⟩ | hok
    · rw [herror s rfl] at hrun
      cases hrun
    · rw [hok s rfl] at hrun
      cases hrun
      exact hs
  refine ⟨⟨fun s hs => hbypasses s ?_, fun s s' htwins => ?_⟩, fun s hs => hbypasses s ?_⟩
  · exact s.next_suffix.length_le.trans hs
  · rcases htwins.front_cases with hreads | hat
    · rcases advance_cases s with ⟨e, herror⟩ | hok
      · exact (Bypasses.fails (herror s rfl) (herror s rfl)).outcome _
      · rw [hok s rfl, hok s' hreads.front, hreads.front]
        exact .going hreads.next
    · exact (hbypasses s (Exchange.length_next hat.rest).le).outcome _
  · exact (Exchange.length_next hs).le

theorem expectLexeme (lexeme : Lexeme) :
    Takes x (Parser.expectLexeme lexeme) (Parser.expectLexeme lexeme) :=
  .current fun _ => .ite (fun _ => .advance) fun _ => .fail

theorem expectName : Takes x Parser.expectName Parser.expectName := by
  refine .current fun token => ?_
  split
  · exact .bind .advance fun _ => .pure
  · exact .fail

end Takes

namespace Tracks

variable {x : Exchange} {p p' : Parser α} {f f' : α → Parser β}

theorem advance {f f' : Token → Parser β} (h : ∀ token, Tracks x (f token) (f' token)) :
    Tracks x (Parser.advance >>= f) (Parser.advance >>= f') :=
  Takes.advance.tracks.bind h

theorem accept (mark : Symbol) : Tracks x (Parser.accept mark) (Parser.accept mark) := by
  refine .current_same (fun token => ?_) ?_
  · exact .ite (fun _ => .advance fun _ => .pure) fun _ => .pure
  · rintro _ ⟨⟩ <;> rfl

theorem expect {mark : Symbol} {f f' : Token → Parser β}
    (h : ∀ token, Tracks x (f token) (f' token)) :
    Tracks x (Parser.expect mark >>= f) (Parser.expect mark >>= f') :=
  (Takes.expectLexeme _).tracks.bind h

theorem expectKeyword {word : Keyword} {f f' : Token → Parser β}
    (h : ∀ token, Tracks x (f token) (f' token)) :
    Tracks x (Parser.expectKeyword word >>= f) (Parser.expectKeyword word >>= f') :=
  (Takes.expectLexeme _).tracks.bind h

/-- A word that is passed over where a symbol follows it. -/
theorem skipWord {word : String} {mark : Symbol} {next next' : Parser β}
    (h : Tracks x next next') :
    Tracks x
      (Parser.current >>= fun front => Parser.following >>= fun second =>
        if (front.lexeme == .name word && second.lexeme == .symbol mark) = true then
          Parser.advance >>= fun _ => next
        else next)
      (Parser.current >>= fun front => Parser.following >>= fun second =>
        if (front.lexeme == .name word && second.lexeme == .symbol mark) = true then
          Parser.advance >>= fun _ => next'
        else next') := by
  refine .current (fun front => .following (fun second => ?_) ?_) fun s s' hat => ?_
  · exact .ite (fun _ => .advance fun _ => h) fun _ => h
  · rintro _ ⟨⟩ <;> simp [Exchange.use]
  · rw [run_following, run_following, run_following, hat.next]
    rw [if_neg (c := (x.literal.lexeme == _ && _) = true) ?_]
    · split
      · exact ((Takes.advance.takes s hat.rest).bind_tracks fun _ => h).outcome _
      · exact h.along s s' hat.twins
    · simp [x.literal_ne_name word]

theorem found {a? : Option α} : Tracks x (Parser.found a?) (Parser.found a?) := by
  cases a? with
  | none => exact .fail
  | some a => exact .pure

/-! ## Nodes and scopes -/

theorem addNode {n : Node} : Tracks x (Parser.addNode n) (Parser.addNode n) where
  behind s hs := by
    refine ⟨rfl, fun id s' hrun => ?_⟩
    cases hrun
    exact hs
  along s s' h := by
    have hsize : s'.nodes.size = s.nodes.size := by rw [h.same]
    have hpush : x.Twins (s.push n) (s'.push n) := h.update (g := (·.push n)) fun _ _ => rfl
    change x.Outcome (.ok (s.nodes.size, s.push n)) (.ok (s.nodes.size, s.push n))
      (.ok (s'.nodes.size, s'.push n))
    rw [hsize]
    exact .going hpush

theorem nodeAt {id : NodeId} : Tracks x (Parser.nodeAt id) (Parser.nodeAt id) :=
  .get (fun _ _ => rfl) fun _ => .found

theorem shapeAt {id : NodeId} : Tracks x (Parser.shapeAt id) (Parser.shapeAt id) :=
  nodeAt.bind fun _ => .pure

theorem mapM {γ : Type} {g : γ → Parser α} (h : ∀ a, Tracks x (g a) (g a)) (as : List γ) :
    Tracks x (as.mapM g) (as.mapM g) := by
  induction as with
  | nil => exact .pure
  | cons a as ih =>
    rw [List.mapM_cons]
    exact (h a).bind fun _ => ih.bind fun _ => .pure

theorem declare {v : Variable} : Tracks x (Parser.declare v) (Parser.declare v) :=
  .modify fun _ _ => rfl

theorem inScope (hp : Tracks x p p') : Tracks x (Parser.inScope p) (Parser.inScope p') := by
  refine .bind (.modify fun _ _ => rfl) fun _ => hp.bind fun _ => ?_
  exact .bind (.modify fun _ _ => rfl) fun _ => .pure

/-! ## Repetition and recursion -/

theorem loopWithin {step step' : α → Parser (Turn α β)} (hstep : ∀ a, Tracks x (step a) (step' a))
    (turns : Nat) (a : α) : Tracks x (Parser.loopWithin step turns a)
      (Parser.loopWithin step' turns a) := by
  induction turns generalizing a with
  | zero => exact .fail
  | succ turns ih =>
    refine (hstep a).bind fun turn => ?_
    cases turn with
    | again a => exact ih a
    | stop b => exact .pure

theorem loop {step step' : α → Parser (Turn α β)} {a : α}
    (hstep : ∀ a, Tracks x (step a) (step' a)) :
    Tracks x (Parser.loop step a) (Parser.loop step' a) where
  behind s hs := ((loopWithin hstep _ a).behind s hs).of_eq rfl rfl
  along s s' h := by
    unfold Parser.loop
    rw [h.length_rest]
    exact (loopWithin hstep _ a).along s s' h

theorem knotWithin {ρ : Type} {rules rules' : (ρ → Parser α) → ρ → Parser α}
    (h : ∀ self self' : ρ → Parser α, (∀ rule, Tracks x (self rule) (self' rule)) →
      ∀ rule, Tracks x (rules self rule) (rules' self' rule)) (depth : Nat) (rule : ρ) :
    Tracks x (Parser.knotWithin rules depth rule) (Parser.knotWithin rules' depth rule) := by
  induction depth generalizing rule with
  | zero => exact .fail
  | succ depth ih => exact h _ _ ih rule

theorem knot {ρ : Type} {rules rules' : (ρ → Parser α) → ρ → Parser α}
    (h : ∀ self self' : ρ → Parser α, (∀ rule, Tracks x (self rule) (self' rule)) →
      ∀ rule, Tracks x (rules self rule) (rules' self' rule)) (rule : ρ) :
    Tracks x (Parser.knot rules rule) (Parser.knot rules' rule) where
  behind s hs := ((knotWithin h _ rule).behind s hs).of_eq rfl rfl
  along s s' htwins := by
    unfold Parser.knot
    rw [htwins.length_rest]
    exact (knotWithin h _ rule).along s s' htwins

end Tracks

namespace Takes

variable {x : Exchange} {p p' q q' : Parser α} {f f' : α → Parser β}

/-- The exchanged token is no symbol. -/
theorem accept {mark : Symbol} (hyes : Tracks x p p') (hno : Takes x q q') :
    Takes x (Parser.accept mark >>= fun accepted => if accepted = true then p else q)
      (Parser.accept mark >>= fun accepted => if accepted = true then p' else q') where
  tracks := (Tracks.accept mark).bind fun _ => .ite (fun _ => hyes) fun _ => hno.tracks
  takes s hs := by
    have hrun : Parser.accept mark s = .ok (false, s) := by
      unfold Parser.accept
      rw [run_current, Exchange.front_of_rest hs]
      rfl
    exact (hno.takes s hs).of_eq (bind_of_ok hrun _) (bind_of_ok hrun _)

theorem loop {step step' : α → Parser (Turn α β)} {a : α}
    (hstep : ∀ a, Takes x (step a) (step' a)) :
    Takes x (Parser.loop step a) (Parser.loop step' a) where
  tracks := .loop fun a => (hstep a).tracks
  takes s hs := by
    refine (((hstep a).takes s hs).bind_tracks fun turn => ?_).of_eq rfl rfl
    cases turn with
    | again a => exact .loopWithin (fun a => (hstep a).tracks) _ a
    | stop b => exact .pure

/-- The rule that is called first consumes the token. -/
theorem knot {ρ : Type} {rules rules' : (ρ → Parser α) → ρ → Parser α}
    (h : ∀ self self' : ρ → Parser α, (∀ rule, Tracks x (self rule) (self' rule)) →
      ∀ rule, Takes x (rules self rule) (rules' self' rule)) (rule : ρ) :
    Takes x (Parser.knot rules rule) (Parser.knot rules' rule) where
  tracks := .knot (fun self self' hself rule => (h self self' hself rule).tracks) rule
  takes s hs :=
    ((h _ _ (.knotWithin (fun self self' hself rule => (h self self' hself rule).tracks) _)
      rule).takes s hs).of_eq rfl rfl

end Takes

end Parser

end ShaderCost
