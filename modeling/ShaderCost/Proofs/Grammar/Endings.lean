import ShaderCost.Proofs.Grammar.RecordedShapes

/-! # How reading ends

The allowances of `Parser.loop` and `Parser.knot` count tokens, so they suffice when every turn and
every descent consumes one. `Parser.Ends p ts s bound` follows that measure through a parser: from a
state that reading the tokens `ts` has reached, `p` refuses the shader at a token of `ts` for a
reason of its own, or ends with a result and fewer tokens left than `bound`.

One refusal stands at no token. Parentheses behind `layout` are passed over token by token, the end
of the input included, and behind that there is no token to point at (`Refusal.unterminated`).
-/

namespace ShaderCost

/-- A complaint about what is written at a token. -/
def Complaint.isOrdinary : Complaint → Bool
  | unterminatedParenthesis | exhausted | lost => false
  | _ => true

/-- A complaint of the grammar, with its place. -/
inductive Refusal (ts : List Token) : ParseError → Prop where
  | atToken {token : Token} {complaint : Complaint} (htoken : token ∈ ts)
      (h : complaint.isOrdinary = true) :
      Refusal ts { complaint, line := token.line, column := token.column }
  | unterminated : Refusal ts { complaint := .unterminatedParenthesis, line := 0, column := 0 }

/-- The list ends with the end of the input or an unreadable token, and holds no other such. -/
def Ended (ts : List Token) : Prop :=
  ∃ front last, ts = front ++ [last] ∧ last.lexeme.isLast = true ∧
    ∀ token ∈ front, token.lexeme.isLast = false

/-- A token that reading may step over. -/
structure Consumed (ts : List Token) (token : Token) : Prop where
  mem : token ∈ ts
  notLast : token.lexeme.isLast = false

theorem ParserState.getElem?_nodes {s : ParserState} {id : NodeId} (hid : s.Has id) :
    s.nodes[id]? = some (s.node id) := by
  unfold ParserState.node
  rw [Array.getD_eq_getD_getElem?, Array.getElem?_eq_getElem hid, Option.getD_some]

/-- An operation stands on the line of a consumed token. -/
def Node.Lined (ts : List Token) (n : Node) : Prop :=
  n.isOperation = true → ∃ token, Consumed ts token ∧ n.line = token.line

namespace Node.Lined

variable {ts : List Token} {n : Node}

theorem still (h : n.isOperation = false) : n.Lined ts := by
  intro hoperation
  rw [h] at hoperation
  cases hoperation

theorem on {token : Token} (htoken : Consumed ts token) (hline : n.line = token.line) :
    n.Lined ts := fun _ => ⟨token, htoken, hline⟩

end Node.Lined

/-- A function has its name from a consumed token, and its signature from its name. -/
structure FunctionDecl.Named (ts : List Token) (decl : FunctionDecl) : Prop where
  token : ∃ token, Consumed ts token ∧ token.lexeme = .name decl.name
  signature : decl.signature = signatureOf decl.name decl.params

/-- All operations made so far stand on lines of consumed tokens, and all functions and structures
declared so far have their names from them. -/
def ParserState.Sourced (ts : List Token) (s : ParserState) : Prop :=
  (∀ id, s.Has id → (s.node id).Lined ts) ∧ (∀ decl ∈ s.functions, decl.Named ts) ∧
    ∀ decl ∈ s.structs, ∃ token, Consumed ts token ∧ token.lexeme = .name decl.name

namespace ParserState.Sourced

variable {ts : List Token} {s : ParserState}

theorem start (ts rest : List Token) : ({ rest } : ParserState).Sourced ts := by
  refine ⟨fun id hid => ?_, fun decl hdecl => ?_, fun decl hdecl => ?_⟩
  · cases hid
  · cases hdecl
  · cases hdecl

theorem push {n : Node} (h : s.Sourced ts) (hn : n.Lined ts) : (s.push n).Sourced ts := by
  refine ⟨fun id hid => ?_, h.2.1, h.2.2⟩
  rw [s.node_push]
  split
  · exact hn
  · next hne =>
    rcases (s.has_push_iff n).1 hid with hid | hid
    · exact h.1 id hid
    · exact absurd hid hne

theorem addFunction {decl : FunctionDecl} (h : s.Sourced ts) (hdecl : decl.Named ts) :
    (s.addFunction decl).Sourced ts := by
  refine ⟨h.1, fun d hd => ?_, h.2.2⟩
  rcases List.mem_append.1 hd with hd | hd
  · exact h.2.1 d hd
  · rw [List.mem_singleton.1 hd]
    exact hdecl

theorem addStruct {decl : StructDecl} (h : s.Sourced ts)
    (hdecl : ∃ token, Consumed ts token ∧ token.lexeme = .name decl.name) :
    (s.addStruct decl).Sourced ts := by
  refine ⟨h.1, h.2.1, fun d hd => ?_⟩
  rcases List.mem_cons.1 hd with rfl | hd
  · exact hdecl
  · exact h.2.2 d hd

theorem withBody (h : s.Sourced ts) (name signature : String) :
    (s.withBody name signature).Sourced ts := by
  refine ⟨h.1, fun d hd => ?_, h.2.2⟩
  obtain ⟨d', hd', rfl⟩ := List.mem_map.1 hd
  obtain ⟨htoken, hsignature⟩ := h.2.1 d' hd'
  split
  · exact ⟨htoken, hsignature⟩
  · exact ⟨htoken, hsignature⟩

end ParserState.Sourced

/-- Reading the tokens `ts` has come to the state `s`, and has not gone past the last of them. -/
structure Reading (ts : List Token) (s : ParserState) : Prop where
  ended : Ended ts
  steps : Steps { rest := ts } s
  more : s.rest ≠ []

theorem Step.rest_suffix {s s' : ParserState} (h : Step s s') : s'.rest <:+ s.rest := by
  cases h with
  | consume => exact List.tail_suffix s.rest
  | _ => exact List.suffix_rfl

theorem Steps.rest_suffix {s s' : ParserState} (h : Steps s s') : s'.rest <:+ s.rest := by
  induction h with
  | refl => exact List.suffix_rfl
  | tail _ hstep ih => exact hstep.rest_suffix.trans ih

namespace Reading

variable {ts : List Token} {s s' : ParserState}

theorem start (h : Ended ts) : Reading ts { rest := ts } := by
  refine ⟨h, .refl, ?_⟩
  obtain ⟨front, last, rfl, -, -⟩ := h
  simp

theorem rest_eq (h : Reading ts s) : s.rest = s.front :: s.next.rest := by
  have hmore := h.more
  unfold ParserState.front ParserState.next
  cases hrest : s.rest with
  | nil => exact absurd hrest hmore
  | cons token rest => rfl

theorem front_mem (h : Reading ts s) : s.front ∈ ts := by
  have hsuffix : s.rest <:+ ts := h.steps.rest_suffix
  apply hsuffix.mem
  rw [h.rest_eq]
  exact List.mem_cons_self

/-- What is left ends as the whole list does. -/
theorem split_rest (h : Reading ts s) :
    ∃ front last, s.rest = front ++ [last] ∧ last.lexeme.isLast = true ∧
      ∀ token ∈ front, token.lexeme.isLast = false := by
  obtain ⟨front, last, heq, hlast, hfront⟩ := h.ended
  obtain ⟨passed, hpassed⟩ : s.rest <:+ ts := h.steps.rest_suffix
  obtain ⟨rest, last', hrest⟩ : ∃ rest last', s.rest = rest ++ [last'] :=
    ⟨_, _, (List.dropLast_concat_getLast h.more).symm⟩
  rw [hrest, heq, ← List.append_assoc] at hpassed
  obtain ⟨hinit, hend⟩ := List.append_inj' hpassed rfl
  obtain rfl : last' = last := by simpa using hend
  refine ⟨rest, last', hrest, hlast, fun token htoken => hfront token ?_⟩
  rw [← hinit]
  exact List.mem_append_right passed htoken

/-- Behind the last token there is none. -/
theorem next_of_isLast (h : Reading ts s) (hlast : s.front.lexeme.isLast = true) :
    s.next.rest = [] := by
  obtain ⟨front, last, hrest, -, hfront⟩ := h.split_rest
  rw [h.rest_eq] at hrest
  cases front with
  | nil => simpa using (List.cons.inj hrest).2
  | cons token front =>
    have hnot := hfront token List.mem_cons_self
    rw [← (List.cons.inj hrest).1, hlast] at hnot
    cases hnot

theorem length_next (h : Reading ts s) : s.next.rest.length < s.rest.length := by
  rw [h.rest_eq, List.length_cons]
  exact Nat.lt_succ_self _

theorem next (h : Reading ts s) (hnot : s.front.lexeme.isLast = false) : Reading ts s.next := by
  refine ⟨h.ended, h.steps.tail .consume, fun hnil => ?_⟩
  obtain ⟨front, last, hrest, hlast, -⟩ := h.split_rest
  rw [h.rest_eq, hnil] at hrest
  cases front with
  | nil =>
    rw [← (List.cons.inj hrest).1, hnot] at hlast
    cases hlast
  | cons token front => simp at hrest

theorem consumed (h : Reading ts s) (hnot : s.front.lexeme.isLast = false) :
    Consumed ts s.front := ⟨h.front_mem, hnot⟩

/-- A step that consumes nothing. -/
theorem step (h : Reading ts s) (hstep : Step s s') (hrest : s'.rest = s.rest) : Reading ts s' := by
  refine ⟨h.ended, h.steps.tail hstep, ?_⟩
  rw [hrest]
  exact h.more

/-- The structure that a node is of is declared. -/
theorem knows (h : Reading ts s) (id : NodeId) : s.Knows (s.shape id) :=
  (h.steps.allShapes knownLaw (.start knownLaw ts)).nodes id

end Reading

namespace Parser

variable {α β : Type}

theorem run_current (f : Token → Parser α) (s : ParserState) :
    (current >>= f) s = f s.front s := rfl

theorem run_following (f : Token → Parser α) (s : ParserState) :
    (following >>= f) s = f s.next.front s := by
  have hfront : s.next.front = s.rest.getD 1 .nowhere := by
    unfold ParserState.front ParserState.next
    cases s.rest with
    | nil => rfl
    | cons token rest => cases rest <;> rfl
  rw [hfront]
  rfl

theorem run_fail (complaint : Complaint) (s : ParserState) :
    (fail complaint : Parser α) s = failAt s.front complaint s := rfl

theorem advance_of_bad {s : ParserState} {error : LexError} (h : s.front.lexeme = .bad error) :
    advance s = .error { complaint := .lexical error, line := s.front.line,
                         column := s.front.column } := by
  unfold advance
  rw [run_current]
  simp only [h]
  unfold failAt
  rw [h]
  rfl

theorem advance_of_readable {s : ParserState} (h : ∀ error, s.front.lexeme ≠ .bad error) :
    advance s = .ok (s.front, s.next) := by
  unfold advance
  rw [run_current]
  cases hlexeme : s.front.lexeme with
  | bad error => exact absurd hlexeme (h error)
  | _ =>
    simp only
    rfl

theorem run_advance {s : ParserState} (f : Token → Parser α)
    (h : ∀ error, s.front.lexeme ≠ .bad error) : (advance >>= f) s = f s.front s.next := by
  change (advance s >>= fun x => f x.1 x.2) = _
  rw [advance_of_readable h]
  rfl

/-- A name is a token that can be read. -/
theorem run_advance_of_name {s : ParserState} {name : String} (h : s.front.lexeme = .name name)
    (f : Token → Parser α) : (advance >>= f) s = f s.front s.next := by
  refine run_advance f fun error => ?_
  rw [h]
  exact Lexeme.noConfusion

theorem run_isAt (mark : Symbol) (f : Bool → Parser α) (s : ParserState) :
    (isAt mark >>= f) s = f (s.front.lexeme == .symbol mark) s := rfl

/-- What a run from `s` may come to. -/
def Ending (ts : List Token) (s : ParserState) (bound : α → Nat) :
    Except ParseError (α × ParserState) → Prop
  | .error e => Refusal ts e
  | .ok (a, s') => (s.Sourced ts → s'.Sourced ts) ∧ s'.rest ≠ [] ∧ s'.rest.length < bound a

/-- What a run comes to may be seen from an earlier state. -/
theorem Ending.since {ts : List Token} {s s' : ParserState} {bound : α → Nat}
    {run : Except ParseError (α × ParserState)} (h : Ending ts s' bound run)
    (hsourced : s.Sourced ts → s'.Sourced ts) : Ending ts s bound run := by
  cases run with
  | error e => exact h
  | ok x => exact ⟨fun hs => h.1 (hsourced hs), h.2⟩

/-- A run from a state that reading has reached ends with a refusal, or with fewer tokens left than
the bound for its result. -/
def Ends (ts : List Token) (p : Parser α) (s : ParserState) (bound : α → Nat) : Prop :=
  Reading ts s → Ending ts s bound (p s)

namespace Ends

variable {ts : List Token} {s : ParserState} {p : Parser α} {f : α → Parser β}
  {D : α → ParserState → Prop} {bound : β → Nat} {k : Nat}

/-- The state in which a run begins has been reached. -/
theorem reading (h : Reading ts s → p.Ends ts s fun _ => k) : p.Ends ts s fun _ => k :=
  fun hs => h hs hs

theorem weaken {few many : α → Nat} (h : p.Ends ts s few) (hle : ∀ a, few a ≤ many a) :
    p.Ends ts s many := by
  intro hs
  have hp := h hs
  cases hps : p s with
  | error e =>
    rw [hps] at hp
    exact hp
  | ok x =>
    rw [hps] at hp
    exact ⟨hp.1, hp.2.1, Nat.lt_of_lt_of_le hp.2.2 (hle x.1)⟩

theorem bind {few : α → Nat} (hdoes : p.Does s D) (hp : p.Ends ts s few)
    (hf : ∀ a s', Steps s s' → D a s' → s'.rest.length < few a → (f a).Ends ts s' bound) :
    (p >>= f).Ends ts s bound := by
  intro hs
  have hend := hp hs
  change Ending ts s bound (p s >>= fun x => f x.1 x.2)
  cases hps : p s with
  | error e =>
    rw [hps] at hend
    exact hend
  | ok x =>
    obtain ⟨a, s'⟩ := x
    rw [hps] at hend
    obtain ⟨hsteps, hD⟩ := hdoes hps
    obtain ⟨hsourced, hmore, hlength⟩ := hend
    have hs' : Reading ts s' := ⟨hs.ended, hs.steps.trans hsteps, hmore⟩
    exact (hf a s' hsteps hD hlength hs').since hsourced

theorem pure {b : β} (h : s.rest.length < bound b) : (Pure.pure b : Parser β).Ends ts s bound :=
  fun hs => ⟨id, hs.more, h⟩

theorem pure_bind {a : α} (h : (f a).Ends ts s bound) :
    ((Pure.pure a : Parser α) >>= f).Ends ts s bound := h

theorem map {g : α → β} (hdoes : p.Does s D) (hp : p.Ends ts s fun _ => k) :
    (g <$> p).Ends ts s fun _ => k := by
  rw [map_eq_pure_bind]
  exact .bind hdoes hp fun a s' _ _ hlength => .pure hlength

theorem failAt {token : Token} (htoken : token ∈ ts) {complaint : Complaint}
    (h : complaint.isOrdinary = true) :
    (Parser.failAt token complaint : Parser β).Ends ts s bound := by
  intro _
  refine .atToken htoken ?_
  split
  · rfl
  · exact h

theorem fail {complaint : Complaint} (h : complaint.isOrdinary = true) :
    (Parser.fail complaint : Parser β).Ends ts s bound :=
  fun hs => failAt hs.front_mem h hs

theorem failAt_bind {token : Token} (htoken : token ∈ ts) {complaint : Complaint}
    (h : complaint.isOrdinary = true) : (Parser.failAt token complaint >>= f).Ends ts s bound :=
  failAt htoken h

theorem fail_bind {complaint : Complaint} (h : complaint.isOrdinary = true) :
    (Parser.fail complaint >>= f).Ends ts s bound :=
  fail h

theorem ite {c : Prop} [Decidable c] {p q : Parser β} (hp : c → p.Ends ts s bound)
    (hq : ¬ c → q.Ends ts s bound) : (if c then p else q).Ends ts s bound := by
  split
  · next hc => exact hp hc
  · next hc => exact hq hc

/-- A check that complains or does nothing. -/
theorem check {c : Prop} [Decidable c] {token : Token} (htoken : token ∈ ts)
    {complaint : Complaint} {next : Unit → Parser β} (hordinary : complaint.isOrdinary = true)
    (h : ¬ c → (next ()).Ends ts s bound) :
    (if c then Parser.failAt token complaint >>= next else next ()).Ends ts s bound :=
  .ite (fun _ => .failAt_bind htoken hordinary) h

/-- A part that is left out where it is not called for. -/
theorem optional {c : Prop} [Decidable c] {next : Parser β} (hdoes : p.Does s D)
    (hp : c → p.Ends ts s fun _ => k) (hk : s.rest.length < k)
    (h : ∀ s', Steps s s' → s'.rest.length < k → next.Ends ts s' bound) :
    (if c then p >>= fun _ => next else next).Ends ts s bound :=
  .ite (fun hc => .bind hdoes (hp hc) fun _ s' hs _ => h s' hs) fun _ => h s .refl hk

/-- Two ways to what comes next. -/
theorem choose {c : Prop} [Decidable c] {q : Parser α} (hdoes : p.Does s D) (hdoes' : q.Does s D)
    (hp : p.Ends ts s fun _ => k) (hq : q.Ends ts s fun _ => k)
    (hf : ∀ a s', Steps s s' → D a s' → s'.rest.length < k → (f a).Ends ts s' bound) :
    (if c then p >>= f else q >>= f).Ends ts s bound :=
  .ite (fun _ => .bind hdoes hp hf) fun _ => .bind hdoes' hq hf

/-- A change of the state that consumes nothing. -/
theorem modify {g : ParserState → ParserState} {f : PUnit → Parser β} (hstep : Step s (g s))
    (hrest : (g s).rest = s.rest) (hsourced : s.Sourced ts → (g s).Sourced ts)
    (h : (f ⟨⟩).Ends ts (g s) bound) : ((modify g : Parser PUnit) >>= f).Ends ts s bound :=
  fun hs => Ending.since (h (hs.step hstep hrest)) hsourced

/-! ## Tokens -/

theorem get {f : ParserState → Parser β} (h : (f s).Ends ts s bound) :
    ((get : Parser ParserState) >>= f).Ends ts s bound := h

theorem current {f : Token → Parser β} (h : s.front ∈ ts → (f s.front).Ends ts s bound) :
    (Parser.current >>= f).Ends ts s bound := fun hs => h hs.front_mem hs

theorem following {f : Token → Parser β} (h : (f s.next.front).Ends ts s bound) :
    (Parser.following >>= f).Ends ts s bound := by
  intro hs
  rw [run_following]
  exact h hs

theorem isAt {mark : Symbol} {f : Bool → Parser β}
    (h : ∀ b, (b = true → s.front.lexeme = .symbol mark) → (f b).Ends ts s bound) :
    (Parser.isAt mark >>= f).Ends ts s bound :=
  h _ fun hb => eq_of_beq hb

/-- Unless the input ends here, a token is consumed. -/
theorem advance {f : Token → Parser β} (hend : s.front.lexeme ≠ .endOfInput)
    (h : Consumed ts s.front → s.next.rest.length < s.rest.length →
      (f s.front).Ends ts s.next bound) :
    (Parser.advance >>= f).Ends ts s bound := by
  intro hs
  by_cases hbad : ∃ error, s.front.lexeme = .bad error
  · obtain ⟨error, hbad⟩ := hbad
    change Ending ts s bound (Parser.advance s >>= fun x => f x.1 x.2)
    rw [advance_of_bad hbad]
    exact Refusal.atToken hs.front_mem rfl
  · have hreadable : ∀ error, s.front.lexeme ≠ .bad error := not_exists.1 hbad
    have hnot : s.front.lexeme.isLast = false := by
      cases hlexeme : s.front.lexeme with
      | endOfInput => exact absurd hlexeme hend
      | bad error => exact absurd hlexeme (hreadable error)
      | _ => rfl
    rw [run_advance f hreadable]
    exact h (hs.consumed hnot) hs.length_next (hs.next hnot)

theorem accept {mark : Symbol} {f : Bool → Parser β}
    (hyes : Consumed ts s.front → s.next.rest.length < s.rest.length →
      (f true).Ends ts s.next bound)
    (hno : (f false).Ends ts s bound) : (Parser.accept mark >>= f).Ends ts s bound := by
  unfold Parser.accept
  rw [bind_assoc]
  refine .current fun _ => ?_
  by_cases hmark : s.front.lexeme = .symbol mark
  · rw [if_pos (beq_iff_eq.2 hmark), bind_assoc]
    exact .advance (by simp [hmark]) hyes
  · rw [if_neg (by simpa using hmark)]
    exact hno

theorem expectLexeme {lexeme : Lexeme} {f : Token → Parser β} (hend : lexeme ≠ .endOfInput)
    (h : Consumed ts s.front → s.next.rest.length < s.rest.length →
      (f s.front).Ends ts s.next bound) : (Parser.expectLexeme lexeme >>= f).Ends ts s bound := by
  unfold Parser.expectLexeme
  rw [bind_assoc]
  refine .current fun _ => ?_
  by_cases hlexeme : s.front.lexeme = lexeme
  · rw [if_pos (beq_iff_eq.2 hlexeme)]
    exact .advance (hlexeme ▸ hend) h
  · rw [if_neg (by simpa using hlexeme)]
    exact .fail_bind rfl

theorem expect {mark : Symbol} {f : Token → Parser β}
    (h : Consumed ts s.front → s.next.rest.length < s.rest.length →
      (f s.front).Ends ts s.next bound) : (Parser.expect mark >>= f).Ends ts s bound :=
  .expectLexeme nofun h

theorem expectKeyword {word : Keyword} {f : Token → Parser β}
    (h : Consumed ts s.front → s.next.rest.length < s.rest.length →
      (f s.front).Ends ts s.next bound) : (Parser.expectKeyword word >>= f).Ends ts s bound :=
  .expectLexeme nofun h

theorem expectName {f : Token × String → Parser β}
    (h : ∀ name, s.front.lexeme = .name name → Consumed ts s.front →
      s.next.rest.length < s.rest.length → (f (s.front, name)).Ends ts s.next bound) :
    (Parser.expectName >>= f).Ends ts s bound := by
  unfold Parser.expectName
  rw [bind_assoc]
  refine .current fun _ => ?_
  split
  · next name hname =>
    rw [bind_assoc]
    exact .advance (by simp [hname]) (h name hname)
  · exact .fail_bind rfl

theorem advances (hend : s.front.lexeme ≠ .endOfInput) (hk : s.rest.length ≤ k) :
    Parser.advance.Ends ts s fun _ => k := by
  rw [← bind_pure Parser.advance]
  exact .advance hend fun _ hnext => .pure (Nat.lt_of_lt_of_le hnext hk)

theorem accepts (mark : Symbol) (hk : s.rest.length < k) :
    (Parser.accept mark).Ends ts s fun _ => k := by
  rw [← bind_pure (Parser.accept mark)]
  exact .accept (fun _ hnext => .pure (Nat.lt_trans hnext hk)) (.pure hk)

theorem expects (mark : Symbol) (hk : s.rest.length ≤ k) :
    (Parser.expect mark).Ends ts s fun _ => k := by
  rw [← bind_pure (Parser.expect mark)]
  exact .expect fun _ hnext => .pure (Nat.lt_of_lt_of_le hnext hk)

/-! ## Nodes -/

theorem found {x : Option α} {f : α → Parser β} (hx : ∃ a, x = some a)
    (h : ∀ a, x = some a → (f a).Ends ts s bound) : (Parser.found x >>= f).Ends ts s bound := by
  obtain ⟨a, rfl⟩ := hx
  exact h a rfl

theorem nodeAt {id : NodeId} {f : Node → Parser β} (hid : s.Has id)
    (h : (f (s.node id)).Ends ts s bound) : (Parser.nodeAt id >>= f).Ends ts s bound := by
  change (Parser.found s.nodes[id]? >>= f).Ends ts s bound
  rw [ParserState.getElem?_nodes hid]
  exact h

theorem shapeAt {id : NodeId} {f : Shape → Parser β} (hid : s.Has id)
    (h : (f (s.shape id)).Ends ts s bound) : (Parser.shapeAt id >>= f).Ends ts s bound := by
  unfold Parser.shapeAt
  rw [bind_assoc]
  exact .nodeAt hid h

theorem shapes {ids : List NodeId} (hids : ∀ id ∈ ids, s.Has id) (hk : s.rest.length < k) :
    (ids.mapM Parser.shapeAt).Ends ts s fun _ => k := by
  induction ids with
  | nil => exact .pure hk
  | cons id ids ih =>
    obtain ⟨hid, hids⟩ := List.forall_mem_cons.1 hids
    rw [List.mapM_cons]
    have hdoes : (ids.mapM Parser.shapeAt).Does s fun _ _ => True := by
      rw [← bind_pure (ids.mapM Parser.shapeAt)]
      exact .shapes (.pure trivial)
    exact .shapeAt hid (.bind hdoes (ih hids) fun shapes s' _ _ hlength => .pure hlength)

/-- The node that a rule hands out. -/
theorem hand {n : Node} (hline : n.Lined ts) (hk : s.rest.length < k) :
    (Parser.addNode n).Ends ts s fun _ => k :=
  fun hs => ⟨fun hsourced => hsourced.push hline, hs.more, hk⟩

/-- The node that a rule hands out in a result of its own. -/
theorem handAs {n : Node} {g : NodeId → β} (hline : n.Lined ts)
    (h : ∀ id, s.rest.length < bound (g id)) :
    (Parser.addNode n >>= fun id => Pure.pure (g id)).Ends ts s bound :=
  fun hs => ⟨fun hsourced => hsourced.push hline, hs.more, h _⟩

/-! ## Scopes, repetition and recursion -/

theorem inScope {body : Parser α} {bound : α → Nat} (h : body.Ends ts s.opened bound) :
    (Parser.inScope body).Ends ts s bound := by
  intro hs
  have hend := h (hs.step .opens rfl)
  change Ending ts s bound (body s.opened >>= fun x => Except.ok (x.1, x.2.closed))
  cases hrun : body s.opened with
  | error e =>
    rw [hrun] at hend
    exact hend
  | ok x =>
    rw [hrun] at hend
    exact hend

/-- A turn that goes on has consumed a token. -/
def turnBound (k : Nat) : Turn α β → Nat
  | .again _ => k
  | .stop _ => k + 1

theorem loop (I : α → ParserState → Prop) {R : β → ParserState → Prop}
    {step : α → Parser (Turn α β)} {a : α}
    (hdoes : ∀ a s, I a s → (step a).Does s (Does.AfterTurn I R))
    (hends : ∀ a s', I a s' → s'.rest.length ≤ s.rest.length →
      (step a).Ends ts s' (turnBound s'.rest.length))
    (ha : I a s) (hk : s.rest.length < k) : (Parser.loop step a).Ends ts s fun _ => k := by
  have hwithin : ∀ turns a s', I a s' → s'.rest.length ≤ s.rest.length →
      s'.rest.length < turns → (loopWithin step turns a).Ends ts s' fun _ => k := by
    intro turns
    induction turns with
    | zero =>
      intro a s' _ _ hturns
      omega
    | succ turns ih =>
      intro a s' ha hle hturns
      refine .bind (hdoes a s' ha) (hends a s' ha hle) fun turn s'' _ hturn hlength => ?_
      cases turn with
      | again a' =>
        change s''.rest.length < s'.rest.length at hlength
        exact ih a' s'' hturn (by omega) (by omega)
      | stop b =>
        change s''.rest.length < s'.rest.length + 1 at hlength
        exact .pure (by omega)
  exact fun hs => hwithin _ a s ha (Nat.le_refl _) (Nat.lt_succ_self _) hs

end Ends

/-- The rules that a rule calls, which it may do with fewer tokens left than `n`. -/
structure Descends {ρ : Type} (ts : List Token) (D : α → ParserState → Prop)
    (called : ρ → Parser α) (n : Nat) : Prop where
  does : ∀ rule s, (called rule).Does s D
  ends : ∀ rule {s : ParserState}, s.rest.length < n →
    (called rule).Ends ts s fun _ => s.rest.length

variable {ρ : Type} {ts : List Token} {D : α → ParserState → Prop} {s : ParserState} {k : Nat}

theorem Descends.mono {self : ρ → Parser α} {m n : Nat} (h : Descends ts D self n) (hle : m ≤ n) :
    Descends ts D self m :=
  ⟨h.does, fun rule _ hm => h.ends rule (Nat.lt_of_lt_of_le hm hle)⟩

/-- A call behind a token that the calling rule has consumed. -/
theorem Descends.call {self : ρ → Parser α} (h : Descends ts D self k) (rule : ρ)
    (hk : s.rest.length < k) : (self rule).Ends ts s fun _ => k :=
  (h.ends rule hk).weaken fun _ => Nat.le_of_lt hk

theorem Ends.knot {rules : (ρ → Parser α) → ρ → Parser α}
    (hdoes : ∀ self : ρ → Parser α, (∀ rule s, (self rule).Does s D) →
      ∀ rule s, (rules self rule).Does s D)
    (hends : ∀ (self : ρ → Parser α) (s : ParserState), Descends ts D self s.rest.length →
      ∀ rule, (rules self rule).Ends ts s fun _ => s.rest.length)
    (rule : ρ) (hk : s.rest.length ≤ k) : (Parser.knot rules rule).Ends ts s fun _ => k := by
  have hwithin : ∀ depth, Descends ts D (knotWithin rules depth) depth := by
    intro depth
    induction depth with
    | zero => exact ⟨fun rule s => .fail _, fun rule s hlt => absurd hlt (Nat.not_lt_zero _)⟩
    | succ depth ih =>
      constructor
      · exact hdoes _ ih.does
      · intro rule s hlt
        exact hends _ s (ih.mono (Nat.le_of_lt_succ hlt)) rule
  have hrun := (hwithin (s.rest.length + 1)).ends rule (Nat.lt_succ_self s.rest.length)
  exact fun hs => hrun.weaken (fun _ => hk) hs

end Parser

end ShaderCost
