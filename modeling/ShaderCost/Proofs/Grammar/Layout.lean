import ShaderCost.Grammar.Shader

/-! # Layout

Two token lists with the same lexemes are one program laid out in two ways. The grammar looks at
lexemes only and copies the places of tokens into nodes and complaints, so that two runs on such
lists go the same way: they make the same nodes on different lines, or end with the same complaint
at different places.

`Parser.Agree R p p'` says this of two parsers. It holds for every primitive and is kept by every
combinator, so that a rule of the grammar agrees with itself when the rules it calls do.
-/

namespace ShaderCost

/-! ## States that differ in places -/

namespace Node

/-- A node without its place. -/
def unplaced (n : Node) : Node := { n with line := 0 }

variable {n n' : Node}

theorem shape_eq (h : n'.unplaced = n.unplaced) : n'.shape = n.shape := (congrArg shape h :)

theorem kind_eq (h : n'.unplaced = n.unplaced) : n'.kind = n.kind := (congrArg kind h :)

theorem name_eq (h : n'.unplaced = n.unplaced) : n'.name = n.name := (congrArg name h :)

theorem constant?_eq (h : n'.unplaced = n.unplaced) : n'.constant? = n.constant? :=
  (congrArg constant? h :)

end Node

theorem getD_unplaced (nodes : Array Node) (id : NodeId) :
    (nodes.getD id default).unplaced = (nodes.map Node.unplaced).getD id default := by
  rw [Array.getD_eq_getD_getElem?, Array.getD_eq_getD_getElem?, Array.getElem?_map]
  cases nodes[id]? <;> rfl

namespace ParserState

/-- States that differ only in the places of tokens and nodes. -/
structure Alike (s s' : ParserState) : Prop where
  rest : s'.rest.map Token.lexeme = s.rest.map Token.lexeme
  nodes : s'.nodes.map Node.unplaced = s.nodes.map Node.unplaced
  scope : s'.scope = s.scope
  enclosing : s'.enclosing = s.enclosing
  functions : s'.functions = s.functions
  structs : s'.structs = s.structs
  macros : s'.macros = s.macros
  globals : s'.globals = s.globals

namespace Alike

variable {s s' : ParserState}

theorem length_rest (h : s.Alike s') : s'.rest.length = s.rest.length := by
  simpa using congrArg List.length h.rest

theorem lookup? (h : s.Alike s') (name : String) : s'.lookup? name = s.lookup? name := by
  rw [ParserState.lookup?, h.scope, h.enclosing, ParserState.lookup?]

theorem struct? (h : s.Alike s') (name : String) : s'.struct? name = s.struct? name := by
  rw [ParserState.struct?, h.structs, ParserState.struct?]

theorem expansion? (h : s.Alike s') (name : String) : s'.expansion? name = s.expansion? name := by
  rw [ParserState.expansion?, h.macros, ParserState.expansion?]

theorem type? (h : s.Alike s') (name : String) : s'.type? name = s.type? name := by
  rw [ParserState.type?, h.struct?, ParserState.type?]

theorem isTypeName (h : s.Alike s') (name : String) : s'.isTypeName name = s.isTypeName name := by
  rw [ParserState.isTypeName, h.type?, ParserState.isTypeName]

theorem overloads (h : s.Alike s') (name : String) : s'.overloads name = s.overloads name := by
  rw [ParserState.overloads, h.functions, ParserState.overloads]

theorem node? (h : s.Alike s') (id : NodeId) :
    s'.nodes[id]?.map Node.unplaced = s.nodes[id]?.map Node.unplaced := by
  rw [← Array.getElem?_map, ← Array.getElem?_map, h.nodes]

theorem size (h : s.Alike s') : s'.nodes.size = s.nodes.size := by
  simpa using congrArg Array.size h.nodes

end Alike

end ParserState

/-- Outcomes that differ only in places, with results related by `R`. -/
inductive OutcomeAlike {α : Type} (R : α → α → Prop) :
    Except ParseError (α × ParserState) → Except ParseError (α × ParserState) → Prop where
  | ok {a a' : α} {s s' : ParserState} (h : R a a') (hs : s.Alike s') :
      OutcomeAlike R (.ok (a, s)) (.ok (a', s'))
  | error {e e' : ParseError} (h : e'.complaint = e.complaint) :
      OutcomeAlike R (.error e) (.error e')

namespace Parser

variable {α β : Type}

/-- From states that differ only in places, the parsers come to outcomes that differ only in places,
with results related by `R`. -/
def Agree (R : α → α → Prop) (p p' : Parser α) : Prop :=
  ∀ ⦃s s' : ParserState⦄, s.Alike s' → OutcomeAlike R (p s) (p' s')

namespace Agree

variable {R : α → α → Prop} {S : β → β → Prop} {p p' : Parser α} {f f' : α → Parser β}

theorem pure {a a' : α} (h : R a a') : Agree R (Pure.pure a) (Pure.pure a') :=
  fun _ _ hs => .ok h hs

theorem bind (hp : Agree R p p') (hf : ∀ a a', R a a' → Agree S (f a) (f' a')) :
    Agree S (p >>= f) (p' >>= f') := by
  intro s s' hs
  change OutcomeAlike S (p s >>= fun x => f x.1 x.2) (p' s' >>= fun x => f' x.1 x.2)
  generalize hr : p s = r
  generalize hr' : p' s' = r'
  have halike : OutcomeAlike R r r' := hr ▸ hr' ▸ hp hs
  cases halike with
  | ok h hs => exact hf _ _ h hs
  | error h => exact .error h

/-- The same result goes on the same way. -/
theorem seq (hp : Agree Eq p p') (hf : ∀ a, Agree S (f a) (f' a)) :
    Agree S (p >>= f) (p' >>= f') :=
  hp.bind fun a _ h => h ▸ hf a

theorem map {g : α → β} (hp : Agree Eq p p') : Agree Eq (g <$> p) (g <$> p') := by
  rw [map_eq_pure_bind, map_eq_pure_bind]
  exact hp.seq fun _ => .pure rfl

theorem ite {c : Prop} [Decidable c] {p p' q q' : Parser α} (hp : c → Agree R p p')
    (hq : ¬ c → Agree R q q') : Agree R (if c then p else q) (if c then p' else q') := by
  split
  · next hc => exact hp hc
  · next hc => exact hq hc

theorem failAt {token token' : Token} (h : token'.lexeme = token.lexeme) (complaint : Complaint) :
    Agree R (Parser.failAt token complaint) (Parser.failAt token' complaint) := by
  intro s s' _
  unfold Parser.failAt
  rw [h]
  exact .error rfl

theorem failAt_bind {token token' : Token} (h : token'.lexeme = token.lexeme)
    (complaint : Complaint) :
    Agree S (Parser.failAt token complaint >>= f) (Parser.failAt token' complaint >>= f') :=
  (failAt (R := fun _ _ => False) h complaint).bind fun _ _ h => h.elim

/-- A check that complains or does nothing. -/
theorem check {c : Prop} [Decidable c] {token token' : Token} (h : token'.lexeme = token.lexeme)
    {complaint : Complaint} {next next' : Unit → Parser β}
    (hnext : ¬ c → Agree S (next ()) (next' ())) :
    Agree S (if c then Parser.failAt token complaint >>= next else next ())
      (if c then Parser.failAt token' complaint >>= next' else next' ()) :=
  .ite (fun _ => .failAt_bind h complaint) hnext

/-- A part that is left out where it is not called for. -/
theorem optional {c : Prop} [Decidable c] (hp : Agree R p p') {next next' : Parser β}
    (hnext : Agree S next next') :
    Agree S (if c then p >>= fun _ => next else next)
      (if c then p' >>= fun _ => next' else next') :=
  .ite (fun _ => hp.bind fun _ _ _ => hnext) fun _ => hnext

/-- Two ways to what comes next. -/
theorem choose {c : Prop} [Decidable c] {q q' : Parser α} (hp : Agree R p p') (hq : Agree R q q')
    (hf : ∀ a a', R a a' → Agree S (f a) (f' a')) :
    Agree S (if c then p >>= f else q >>= f) (if c then p' >>= f' else q' >>= f') :=
  .ite (fun _ => hp.bind hf) fun _ => hq.bind hf

theorem get : Agree ParserState.Alike (get : Parser ParserState) get :=
  fun _ _ hs => .ok hs hs

theorem modify {g g' : ParserState → ParserState}
    (h : ∀ s s', s.Alike s' → (g s).Alike (g' s')) :
    Agree Eq (modify g : Parser PUnit) (modify g') :=
  fun s s' hs => .ok rfl (h s s' hs)

/-! ## Tokens -/

theorem current : Agree (fun token token' => token'.lexeme = token.lexeme) Parser.current
    Parser.current := by
  intro s s' hs
  refine .ok ?_ hs
  have hfront : ∀ tokens : List Token,
      (tokens.headD .nowhere).lexeme = (tokens.map Token.lexeme).headD .endOfInput := by
    intro tokens
    cases tokens <;> rfl
  rw [hfront, hfront, hs.rest]

theorem following : Agree (fun token token' => token'.lexeme = token.lexeme) Parser.following
    Parser.following := by
  intro s s' hs
  refine .ok ?_ hs
  have hsecond : ∀ tokens : List Token,
      (tokens.getD 1 .nowhere).lexeme = (tokens.map Token.lexeme).getD 1 .endOfInput := by
    intro tokens
    match tokens with
    | [] => rfl
    | [_] => rfl
    | _ :: _ :: _ => rfl
  rw [hsecond, hsecond, hs.rest]

theorem fail (complaint : Complaint) :
    Agree R (Parser.fail complaint) (Parser.fail complaint) :=
  current.bind fun _ _ h => .failAt h complaint

theorem fail_bind {complaint : Complaint} :
    Agree S (Parser.fail complaint >>= f) (Parser.fail complaint >>= f') :=
  (fail (R := fun _ _ => False) complaint).bind fun _ _ h => h.elim

theorem advance : Agree (fun token token' => token'.lexeme = token.lexeme) Parser.advance
    Parser.advance := by
  refine current.bind fun token token' h => ?_
  rw [h]
  split
  · exact .failAt h _
  · refine (modify fun s s' hs => ?_).seq fun _ => .pure h
    exact { hs with rest := by simpa using congrArg List.tail hs.rest }

theorem accept (mark : Symbol) : Agree Eq (Parser.accept mark) (Parser.accept mark) := by
  refine current.bind fun token token' h => ?_
  rw [h]
  exact .ite (fun _ => advance.bind fun _ _ _ => .pure rfl) fun _ => .pure rfl

theorem isAt (mark : Symbol) : Agree Eq (Parser.isAt mark) (Parser.isAt mark) := by
  refine current.bind fun token token' h => ?_
  rw [h]
  exact .pure rfl

theorem expectLexeme (lexeme : Lexeme) : Agree (fun token token' => token'.lexeme = token.lexeme)
    (Parser.expectLexeme lexeme) (Parser.expectLexeme lexeme) := by
  refine current.bind fun token token' h => ?_
  rw [h]
  exact .ite (fun _ => advance) fun _ => .fail _

theorem expectName :
    Agree (fun x x' => x'.1.lexeme = x.1.lexeme ∧ x'.2 = x.2) Parser.expectName
      Parser.expectName := by
  refine current.bind fun token token' h => ?_
  rw [h]
  split
  · exact advance.bind fun _ _ _ => .pure ⟨h, rfl⟩
  · exact .fail _

theorem found {γ : Type} {g : α → γ} {x x' : Option α} (h : x'.map g = x.map g) :
    Agree (fun a a' => g a' = g a) (Parser.found x) (Parser.found x') := by
  cases x with
  | none =>
    rw [Option.map_none, Option.map_eq_none_iff] at h
    rw [h]
    exact .fail _
  | some a =>
    obtain ⟨a', ha', hg⟩ := Option.map_eq_some_iff.1 h
    rw [ha']
    exact .pure hg

theorem found_self (x : Option α) : Agree Eq (Parser.found x) (Parser.found x) := by
  cases x with
  | none => exact .fail _
  | some a => exact .pure rfl

/-! ## Nodes and scopes -/

theorem addNode {n n' : Node} (h : n'.unplaced = n.unplaced) :
    Agree Eq (Parser.addNode n) (Parser.addNode n') := by
  intro s s' hs
  refine .ok hs.size.symm { hs with nodes := ?_ }
  rw [Array.map_push, Array.map_push, hs.nodes, h]

theorem nodeAt (id : NodeId) : Agree (fun n n' => n'.unplaced = n.unplaced) (Parser.nodeAt id)
    (Parser.nodeAt id) :=
  get.bind fun _ _ hs => .found (hs.node? id)

theorem shapeAt (id : NodeId) : Agree Eq (Parser.shapeAt id) (Parser.shapeAt id) :=
  (nodeAt id).bind fun _ _ h => .pure (Node.shape_eq h).symm

theorem addConstant (value : Constant) (line line' : Nat) :
    Agree Eq (Parser.addConstant value line) (Parser.addConstant value line') :=
  addNode rfl

theorem addUnary (op : Operator) (operand : NodeId) (shape : Shape) (line line' : Nat) :
    Agree Eq (Parser.addUnary op operand shape line) (Parser.addUnary op operand shape line') :=
  addNode rfl

theorem addBinary (op : Operator) (left right : NodeId) (shape : Shape) (line line' : Nat) :
    Agree Eq (Parser.addBinary op left right shape line)
      (Parser.addBinary op left right shape line') :=
  addNode rfl

theorem addSequence (op : Operator) (items : List NodeId) (line line' : Nat) :
    Agree Eq (Parser.addSequence op items line) (Parser.addSequence op items line') :=
  addNode rfl

theorem mapM {γ : Type} {g g' : γ → Parser α} (h : ∀ x, Agree Eq (g x) (g' x)) (xs : List γ) :
    Agree Eq (xs.mapM g) (xs.mapM g') := by
  induction xs with
  | nil => exact .pure rfl
  | cons x xs ih =>
    rw [List.mapM_cons, List.mapM_cons]
    exact (h x).seq fun _ => ih.seq fun _ => .pure rfl

theorem declare (v : Variable) : Agree Eq (Parser.declare v) (Parser.declare v) :=
  modify fun _ _ hs => { hs with scope := by rw [hs.scope] }

theorem inScope (hp : Agree R p p') : Agree R (Parser.inScope p) (Parser.inScope p') := by
  refine (modify fun s s' hs => ?_).seq fun _ => hp.bind fun a a' ha =>
    (modify fun s s' hs => ?_).seq fun _ => .pure ha
  · exact { hs with scope := rfl, enclosing := by rw [hs.scope, hs.enclosing] }
  · exact { hs with scope := by rw [hs.enclosing], enclosing := by rw [hs.enclosing] }

/-! ## Repetition and recursion -/

/-- Both turns go on, or both stop. -/
def AfterTurn (R : α → α → Prop) (S : β → β → Prop) : Turn α β → Turn α β → Prop
  | .again a, .again a' => R a a'
  | .stop b, .stop b' => S b b'
  | _, _ => False

theorem loop {step step' : α → Parser (Turn α β)}
    (hstep : ∀ a a', R a a' → Agree (AfterTurn R S) (step a) (step' a')) {a a' : α} (ha : R a a') :
    Agree S (Parser.loop step a) (Parser.loop step' a') := by
  have hwithin : ∀ turns a a', R a a' →
      Agree S (loopWithin step turns a) (loopWithin step' turns a') := by
    intro turns
    induction turns with
    | zero => intro _ _ _; exact .fail _
    | succ turns ih =>
      intro a a' ha
      refine (hstep a a' ha).bind fun turn turn' h => ?_
      match turn, turn', h with
      | .again a, .again a', h => exact ih a a' h
      | .stop b, .stop b', h => exact .pure h
  intro s s' hs
  unfold Parser.loop
  rw [hs.length_rest]
  exact hwithin _ a a' ha hs

theorem knot {ρ : Type} {rules : (ρ → Parser α) → ρ → Parser α}
    (h : ∀ self self' : ρ → Parser α, (∀ rule, Agree R (self rule) (self' rule)) →
      ∀ rule, Agree R (rules self rule) (rules self' rule)) (rule : ρ) :
    Agree R (Parser.knot rules rule) (Parser.knot rules rule) := by
  have hwithin : ∀ depth rule,
      Agree R (knotWithin rules depth rule) (knotWithin rules depth rule) := by
    intro depth
    induction depth with
    | zero => intro _; exact .fail _
    | succ depth ih => exact h _ _ ih
  intro s s' hs
  unfold Parser.knot
  rw [hs.length_rest]
  exact hwithin _ rule hs

end Agree

end Parser

end ShaderCost
