import ShaderCost.Proofs.Grammar.Scans
import ShaderCost.Proofs.Grammar.StructTable

/-! # The names that a reading comes to

A name that is not called is read in some state, and what it stands for is found in that state. How
such a name is read is open in the grammar, so a reading can be given up at one of them: by
`Halt.naming` every name is read as the language has it but for the one with a given number of
tokens behind it, where reading ends with a complaint of our choice. `ReadsName p s r` says that `p`
comes from `s` to the name `r`: whatever the complaint tells about the name and the state, reading
ends with it.

`Watched` follows a run that is given up and the run that is not side by side. They are the same up
to the name at which the first ends, so a run comes to a name or it does not (`Watching.halts`). On
the way, scopes are opened and closed in turn and variables are declared in the innermost one
(`Above`, `Extends`), and the nodes that are made can be accounted for by the names that are read
(`Account`).
-/

namespace ShaderCost

open Expression (Naming named)

/-- A name that is not called: its token, its text, and the state behind the token. -/
structure NameRead where
  token : Token
  name : String
  state : ParserState

/-- Where reading is given up, counted in tokens from the end, and what is said there. -/
structure Halt where
  behind : Nat
  report : NameRead → ParseError

/-- Reads names as the language has it, except for the one at the halt. -/
@[reducible]
def Halt.naming (h : Halt) : Naming where
  read token name s :=
    if s.rest.length = h.behind then .error (h.report ⟨token, name, s⟩) else named token name s

namespace ParserState

/-- The open scopes, the innermost first. -/
def scopes (s : ParserState) : List Scope := s.scope :: s.enclosing

/-- The scopes of `base` are open in `s` and hold what they held. What else is declared in `s` is
declared by the tokens from `base` on. -/
structure Above (base s : ParserState) : Prop where
  scanned : base.Scanned s
  scopes : ∃ inner new, s.scopes = inner ++ (new ++ base.scope) :: base.enclosing ∧
    ∀ v ∈ inner.flatten ++ new, base.Origin s v

variable {base s : ParserState}

theorem Above.refl (s : ParserState) : s.Above s := by
  refine ⟨.refl s, [], [], rfl, fun v hv => ?_⟩
  cases hv

theorem Above.opened (h : base.Above s) : base.Above s.opened := by
  obtain ⟨inner, new, hscopes, hnames⟩ := h.scopes
  refine ⟨h.scanned.of_eq rfl rfl, [] :: inner, new, ?_, fun v hv => ?_⟩
  · rw [List.cons_append, ← hscopes]
    rfl
  · exact (hnames v hv).later List.suffix_rfl

end ParserState

/-- What a run from `s` to `s'` does to what is declared. -/
structure Extends (base s s' : ParserState) : Prop where
  grows : Grows s s'
  registers : Registers s s'
  scanned : base.Scanned s → base.Scanned s'
  enclosing : s'.enclosing = s.enclosing
  scope : ∃ new, s'.scope = new ++ s.scope ∧ ∀ v ∈ new, base.Origin s' v

namespace Extends

variable {base s s' s'' : ParserState}

theorem rest (h : Extends base s s') : s'.rest <:+ s.rest := h.registers.rest

theorem of_scopes_eq (hgrows : Grows s s') (hregisters : Registers s s')
    (hscanned : base.Scanned s → base.Scanned s') (hscopes : s'.scopes = s.scopes) :
    Extends base s s' := by
  obtain ⟨hscope, henclosing⟩ := List.cons.inj hscopes
  refine ⟨hgrows, hregisters, hscanned, henclosing, [], hscope, fun v hv => ?_⟩
  cases hv

/-- No token is consumed. -/
theorem of_eq (hgrows : Grows s s') (hrest : s'.rest = s.rest) (hmacros : s'.macros = s.macros)
    (hstructs : s'.structs = s.structs) (hscopes : s'.scopes = s.scopes) : Extends base s s' :=
  of_scopes_eq hgrows (.of_eq (hrest ▸ List.suffix_rfl) hstructs) (·.of_eq hrest hmacros) hscopes

theorem refl (base s : ParserState) : Extends base s s := of_eq (.refl s) rfl rfl rfl rfl

theorem next (base : ParserState) (h : s.front.lexeme.isPlain = true) : Extends base s s.next :=
  of_scopes_eq (.next s) (.of_eq s.next_suffix rfl) (fun hs => (hs.next h).1) rfl

theorem qualifiers {q : Declaration.Qualifiers} (h : Declaration.Qualified s q s') :
    Extends base s s' := by
  have hscanned : base.Scanned s → base.Scanned s' := fun hs => (hs.qualifiers h).1
  obtain ⟨passed, rest, hrest, rfl, -⟩ := h
  exact of_scopes_eq (.of_eq rfl rfl rfl) (.of_eq ⟨passed, hrest.symm⟩ rfl) hscanned rfl

theorem push (base s : ParserState) (n : Node) : Extends base s (s.push n) :=
  of_eq (.push s n) rfl rfl rfl rfl

theorem trans (h : Extends base s s') (h' : Extends base s' s'') : Extends base s s'' := by
  obtain ⟨new, hnew, hnames⟩ := h.scope
  obtain ⟨new', hnew', hnames'⟩ := h'.scope
  refine ⟨h.grows.trans h'.grows, h.registers.trans h'.registers,
    fun hs => h'.scanned (h.scanned hs), h'.enclosing.trans h.enclosing, new' ++ new, ?_,
    fun v hv => ?_⟩
  · rw [hnew', hnew, List.append_assoc]
  · rcases List.mem_append.1 hv with hv | hv
    · exact hnames' v hv
    · exact (hnames v hv).later h'.rest

theorem above (h : Extends base s s') (hs : base.Above s) : base.Above s' := by
  obtain ⟨inner, new, hscopes, hnames⟩ := hs.scopes
  obtain ⟨new', hnew', hnames'⟩ := h.scope
  have hkept : ∀ v ∈ inner.flatten ++ new, base.Origin s' v := fun v hv =>
    (hnames v hv).later h.rest
  have hscopes' : s'.scopes = (new' ++ s.scope) :: s.enclosing := by
    rw [ParserState.scopes, hnew', h.enclosing]
  refine ⟨h.scanned hs.scanned, ?_⟩
  -- what is new is in the scope of the base or in one that was opened later
  cases inner with
  | nil =>
    obtain ⟨hscope, henclosing⟩ := List.cons.inj hscopes
    refine ⟨[], new' ++ new, ?_, fun v hv => ?_⟩
    · rw [hscopes', hscope, henclosing, List.append_assoc]
      rfl
    · rw [List.flatten_nil, List.nil_append] at hv hkept
      rcases List.mem_append.1 hv with hv | hv
      · exact hnames' v hv
      · exact hkept v hv
  | cons innermost inner =>
    obtain ⟨hscope, henclosing⟩ := List.cons.inj hscopes
    refine ⟨(new' ++ innermost) :: inner, new, ?_, fun v hv => ?_⟩
    · rw [hscopes', hscope, henclosing]
      rfl
    · rw [List.flatten_cons, List.append_assoc, List.append_assoc] at hv
      rcases List.mem_append.1 hv with hv | hv
      · exact hnames' v hv
      · rw [List.flatten_cons, List.append_assoc] at hkept
        exact hkept v hv

/-- The scope of its own that a run had is left again. -/
theorem scopes_closed (h : Extends base s.opened s') : s'.closed.scopes = s.scopes := by
  unfold ParserState.scopes ParserState.closed
  rw [h.enclosing]
  rfl

theorem closed (h : Extends base s.opened s') : Extends base s s'.closed :=
  of_scopes_eq ((Step.opens.grows.trans h.grows).trans Step.closes.grows)
    ⟨h.registers.names, h.registers.looped⟩
    (fun hs => (h.scanned (hs.of_eq rfl rfl)).of_eq rfl rfl) h.scopes_closed

end Extends

/-- The scopes of `s` are those of `s'`, and no qualifiers stand in front of `s'`. -/
def Restores (base s s' : ParserState) : Prop := s'.scopes = s.scopes ∧ base.Clear s'

theorem Restores.trans {base s s' s'' : ParserState} (h : Restores base s s')
    (h' : Restores base s' s'') : Restores base s s'' := ⟨h'.1.trans h.1, h'.2⟩

/-! ## Accounts -/

/-- What can be said of the nodes that are made from one state to another, given the names read
between them. -/
structure Account where
  holds : (NameRead → Prop) → ParserState → ParserState → Prop
  mono : ∀ {N N' : NameRead → Prop} {s s'}, (∀ r, N r → N' r) → holds N s s' → holds N' s s'
  quiet : ∀ {N s s'}, s'.nodes = s.nodes → s'.scopes = s.scopes → holds N s s'
  trans : ∀ {N s s' s''}, Grows s s' → Grows s' s'' → holds N s s' → holds N s' s'' → holds N s s''

/-- An account of the nodes alone, whatever the scopes are. -/
def Account.Scopeless (A : Account) : Prop :=
  ∀ N s s' t t', s.nodes = t.nodes → s'.nodes = t'.nodes → A.holds N s s' → A.holds N t t'

namespace Parser

theorem run_get {α : Type} (f : ParserState → Parser α) (s : ParserState) :
    ((get : Parser ParserState) >>= f) s = f s s := rfl

variable {α β : Type}

theorem advance_eq_ok {s s' : ParserState} {token : Token} (h : advance s = .ok (token, s')) :
    token = s.front ∧ s' = s.next := by
  have hadvance : advance.Does s fun token s' => token = s.front ∧ s' = s.next := by
    rw [← bind_pure advance]
    exact .advance (.pure ⟨rfl, rfl⟩)
  exact (hadvance h).2

/-- From `s` the runs that are given up at the name end there. -/
def Reaches (p' : Halt → Parser α) (s : ParserState) (r : NameRead) : Prop :=
  ∀ report, p' ⟨r.state.rest.length, report⟩ s = .error (report r)

/-- The name is among the tokens in front of `s`. -/
def Reads (p' : Halt → Parser α) (s : ParserState) (r : NameRead) : Prop :=
  r.state.rest.length < s.rest.length ∧ Reaches p' s r

/-- Two complaints tell a run that is given up from one that is not. -/
theorem not_given_up {x : Except ParseError α} {r : NameRead} :
    ¬ ∀ report : NameRead → ParseError, x = .error (report r) := by
  intro h
  have hsame := (h fun _ => ⟨.lost, 0, 0⟩).symm.trans (h fun _ => ⟨.lost, 1, 0⟩)
  cases hsame

/-- A run is given up at one name only. -/
theorem eq_of_report_eq {r r' : NameRead}
    (h : ∀ report : NameRead → ParseError, report r' = report r) : r' = r := by
  classical
  by_contra hne
  have hline := congrArg ParseError.line (h fun x => ⟨.lost, if x = r then 1 else 0, 0⟩)
  simp [hne] at hline

/-- The run of `p` from `s`, beside those of `p'` that are given up at a name. -/
structure Watching (A : Account) (base : ParserState) (p : Parser α) (p' : Halt → Parser α)
    (s : ParserState) (Q : α → ParserState → Prop) : Prop where
  halts : ∀ n, (∀ report, p' ⟨n, report⟩ s = p s) ∨ ∃ r, Reads p' s r ∧ r.state.rest.length = n ∧
    base.Above r.state ∧ ∀ a s', p s = .ok (a, s') → s'.rest.length ≤ n
  ends : ∀ a s', p s = .ok (a, s') → Extends base s s' ∧ A.holds (Reads p' s) s s' ∧ Q a s'

/-- Where reading has come from `base` to `s`, the run of `p` can be watched. -/
def Watched (A : Account) (base : ParserState) (p : Parser α) (p' : Halt → Parser α)
    (s : ParserState) (Q : α → ParserState → Prop) : Prop :=
  base.Above s → Watching A base p p' s Q

section

variable {A : Account} {base s : ParserState} {p : Parser α} {p' : Halt → Parser α}
  {Q : α → ParserState → Prop} {f' : Halt → α → Parser β} {r : NameRead}

theorem Watching.above (h : Watching A base p p' s Q) (hr : Reaches p' s r) :
    base.Above r.state := by
  obtain hsame | ⟨r', hr', hrest, habove, -⟩ := h.halts r.state.rest.length
  · exact absurd (fun report => (hsame report).symm.trans (hr report)) not_given_up
  · have heq : r' = r := eq_of_report_eq fun report => by
      have hend := hr'.2 report
      rw [hrest, hr report] at hend
      exact (Except.error.inj hend).symm
    rwa [← heq]

/-- A part without names ends in front of the name. -/
theorem Reaches.after {f' : Halt → α → Parser β} (hr : Reaches (fun h => p >>= f' h) s r) :
    ∃ a s', p s = .ok (a, s') ∧ Reaches (fun h => f' h a) s' r := by
  cases hrun : p s with
  | error e =>
    exact absurd (fun report => (bind_of_error hrun _).symm.trans (hr report)) not_given_up
  | ok x => exact ⟨x.1, x.2, rfl, fun report => (bind_of_ok hrun _).symm.trans (hr report)⟩

theorem Reaches.inScope (hr : Reaches (fun h => Parser.inScope (p' h)) s r) :
    Reaches p' s.opened r := by
  intro report
  have hrun : (p' _ s.opened >>= fun x => .ok (x.1, x.2.closed)) = _ := hr report
  cases hinner : p' ⟨r.state.rest.length, report⟩ s.opened with
  | error e =>
    rw [hinner] at hrun
    cases hrun
    rfl
  | ok x =>
    rw [hinner] at hrun
    cases hrun

theorem Reaches.check {c : Prop} [Decidable c] {token : Token} {complaint : Complaint}
    {next' : Halt → Unit → Parser β}
    (hr : Reaches (fun h => if c then failAt token complaint >>= next' h else next' h ()) s r) :
    Reaches (fun h => next' h ()) s r := by
  by_cases hc : c
  · simp only [if_pos hc] at hr
    exact absurd hr not_given_up
  · simpa only [if_neg hc] using hr

end

namespace Watched

variable {A : Account} {base s : ParserState} {p : Parser α} {p' : Halt → Parser α}
  {f : α → Parser β} {f' : Halt → α → Parser β} {Q : α → ParserState → Prop}
  {R : β → ParserState → Prop}

theorem bind (hp : Watched A base p p' s Q)
    (hf : ∀ a s', Extends base s s' → Q a s' → Watched A base (f a) (fun h => f' h a) s' R) :
    Watched A base (p >>= f) (fun h => p' h >>= f' h) s R := by
  intro habove
  obtain ⟨hhalts, hends⟩ := hp habove
  have hsecond : ∀ {a s'}, p s = .ok (a, s') →
      Watching A base (f a) (fun h => f' h a) s' R := by
    intro a s' hrun
    obtain ⟨hext, -, hQ⟩ := hends a s' hrun
    exact hf a s' hext hQ (hext.above habove)
  -- a name of either part is a name of the whole
  have hfirstReads : ∀ r, Reads p' s r → Reads (fun h => p' h >>= f' h) s r := fun r hr =>
    ⟨hr.1, fun report => bind_of_error (hr.2 report) _⟩
  have hsecondReads : ∀ {a s'}, p s = .ok (a, s') → ∀ r, Reads (fun h => f' h a) s' r →
      Reads (fun h => p' h >>= f' h) s r := by
    intro a s' hrun r hr
    obtain ⟨hext, -, -⟩ := hends a s' hrun
    refine ⟨Nat.lt_of_lt_of_le hr.1 hext.rest.length_le, fun report => ?_⟩
    -- the first part is not given up there, since fewer tokens are left than behind it
    obtain hsame | ⟨_, -, -, -, hpast⟩ := hhalts r.state.rest.length
    · exact (bind_of_ok ((hsame report).trans hrun) _).trans (hr.2 report)
    · exact absurd (hpast a s' hrun) (Nat.not_le_of_gt hr.1)
  constructor
  · intro n
    obtain hsame | ⟨r, hreads, hrest, hr, hpast⟩ := hhalts n
    · cases hrun : p s with
      | error e =>
        refine Or.inl fun report => ?_
        rw [bind_of_error hrun, bind_of_error ((hsame report).trans hrun)]
      | ok x =>
        obtain ⟨a, s'⟩ := x
        have hwhole : ∀ report, (p' ⟨n, report⟩ >>= f' ⟨n, report⟩) s = f' ⟨n, report⟩ a s' :=
          fun report => bind_of_ok ((hsame report).trans hrun) _
        obtain hsame' | ⟨r, hreads, hrest, hr, hpast⟩ := (hsecond hrun).halts n
        · refine Or.inl fun report => ?_
          rw [hwhole, bind_of_ok hrun]
          exact hsame' report
        · refine Or.inr ⟨r, hsecondReads hrun r hreads, hrest, hr, fun b s'' hrun' => ?_⟩
          rw [bind_of_ok hrun] at hrun'
          exact hpast b s'' hrun'
    · refine Or.inr ⟨r, hfirstReads r hreads, hrest, hr, fun b s'' hrun => ?_⟩
      obtain ⟨a, s', hfirst, hrest'⟩ := bind_eq_ok hrun
      obtain ⟨hext, -, -⟩ := (hsecond hfirst).ends b s'' hrest'
      exact Nat.le_trans hext.rest.length_le (hpast a s' hfirst)
  · intro b s'' hrun
    obtain ⟨a, s', hfirst, hrest⟩ := bind_eq_ok hrun
    obtain ⟨hext, hholds, -⟩ := hends a s' hfirst
    obtain ⟨hext', hholds', hR⟩ := (hsecond hfirst).ends b s'' hrest
    refine ⟨hext.trans hext', ?_, hR⟩
    exact A.trans hext.grows hext'.grows (A.mono hfirstReads hholds)
      (A.mono (hsecondReads hfirst) hholds')

/-- Only the runs from the state at hand count. -/
theorem of_eq {p q : Parser β} {p' q' : Halt → Parser β} (h : Watched A base p p' s R)
    (hq : q s = p s) (hq' : ∀ halt, q' halt s = p' halt s) : Watched A base q q' s R := by
  intro habove
  obtain ⟨hhalts, hends⟩ := h habove
  have hreads : Reads q' s = Reads p' s := by
    funext r
    unfold Reads Reaches
    simp only [hq']
  refine ⟨fun n => ?_, fun a s' hrun => ?_⟩
  · simp only [hq, hq', hreads]
    exact hhalts n
  · rw [hreads]
    exact hends a s' (hq ▸ hrun)

theorem mono (hp : Watched A base p p' s Q) {Q' : α → ParserState → Prop}
    (h : ∀ a s', Extends base s s' → Q a s' → Q' a s') : Watched A base p p' s Q' := by
  intro habove
  obtain ⟨hhalts, hends⟩ := hp habove
  refine ⟨hhalts, fun a s' hrun => ?_⟩
  obtain ⟨hext, hholds, hQ⟩ := hends a s' hrun
  exact ⟨hext, hholds, h a s' hext hQ⟩

/-- Reading has come to the state at hand. -/
theorem given (h : base.Above s → Watched A base p p' s Q) : Watched A base p p' s Q :=
  fun habove => h habove habove

/-- The run is as it is. -/
theorem running (hp : Watched A base p p' s Q) :
    Watched A base p p' s fun a s' => p s = .ok (a, s') ∧ Q a s' := by
  intro habove
  obtain ⟨hhalts, hends⟩ := hp habove
  refine ⟨hhalts, fun a s' hrun => ?_⟩
  obtain ⟨hext, hholds, hQ⟩ := hends a s' hrun
  exact ⟨hext, hholds, hrun, hQ⟩

/-- A parser without names. -/
theorem nameless
    (h : ∀ a s', p s = .ok (a, s') → Extends base s s' ∧ (∀ N, A.holds N s s') ∧ Q a s') :
    Watched A base p (fun _ => p) s Q := by
  refine fun _ => ⟨fun n => Or.inl fun _ => rfl, fun a s' hrun => ?_⟩
  obtain ⟨hext, hholds, hQ⟩ := h a s' hrun
  exact ⟨hext, hholds _, hQ⟩

/-- A parser that makes no node and declares nothing. -/
theorem quiet
    (h : ∀ a s', p s = .ok (a, s') → Extends base s s' ∧ s'.nodes = s.nodes ∧
      s'.scopes = s.scopes ∧ Q a s') : Watched A base p (fun _ => p) s Q := by
  refine .nameless fun a s' hrun => ?_
  obtain ⟨hext, hnodes, hscopes, hQ⟩ := h a s' hrun
  exact ⟨hext, fun _ => A.quiet hnodes hscopes, hQ⟩

theorem pure {b : β} (h : R b s) :
    Watched A base (Pure.pure b) (fun _ => Pure.pure b) s R := by
  refine .quiet fun a s' hrun => ?_
  cases hrun
  exact ⟨.refl base s, rfl, rfl, h⟩

theorem pure_bind {a : α} (h : Watched A base (f a) (fun h => f' h a) s R) :
    Watched A base (Pure.pure a >>= f) (fun h => Pure.pure a >>= f' h) s R :=
  h.of_eq rfl fun _ => rfl

theorem map {g : α → β} (hp : Watched A base p p' s fun a => R (g a)) :
    Watched A base (g <$> p) (fun h => g <$> p' h) s R := by
  simp only [map_eq_pure_bind]
  exact hp.bind fun a s' _ hR => .pure hR

/-- Both runs complain. -/
theorem refuses {e : ParseError} (h : p s = .error e) (h' : ∀ halt, p' halt s = .error e) :
    Watched A base p p' s Q := by
  refine fun _ => ⟨fun n => Or.inl fun report => (h' _).trans h.symm, fun a s' hrun => ?_⟩
  rw [h] at hrun
  cases hrun

theorem failAt (token : Token) (complaint : Complaint) :
    Watched A base (Parser.failAt token complaint) (fun _ => Parser.failAt token complaint) s Q :=
  .refuses rfl fun _ => rfl

theorem fail (complaint : Complaint) :
    Watched A base (Parser.fail complaint) (fun _ => Parser.fail complaint) s Q :=
  .refuses rfl fun _ => rfl

theorem failAt_bind {token : Token} {complaint : Complaint} :
    Watched A base (Parser.failAt token complaint >>= f)
      (fun h => Parser.failAt token complaint >>= f' h) s R := .refuses rfl fun _ => rfl

theorem fail_bind {complaint : Complaint} :
    Watched A base (Parser.fail complaint >>= f) (fun h => Parser.fail complaint >>= f' h) s R :=
  .refuses rfl fun _ => rfl

theorem ite {c : Prop} [Decidable c] {p q : Parser β} {p' q' : Halt → Parser β}
    (hp : c → Watched A base p p' s R) (hq : ¬ c → Watched A base q q' s R) :
    Watched A base (if c then p else q) (fun h => if c then p' h else q' h) s R := by
  split
  · next hc => exact hp hc
  · next hc => exact hq hc

/-- A check that complains or does nothing. -/
theorem check {c : Prop} [Decidable c] {token : Token} {complaint : Complaint}
    {next : Unit → Parser β} {next' : Halt → Unit → Parser β}
    (h : ¬ c → Watched A base (next ()) (fun h => next' h ()) s R) :
    Watched A base (if c then Parser.failAt token complaint >>= next else next ())
      (fun h => if c then Parser.failAt token complaint >>= next' h else next' h ()) s R :=
  .ite (fun _ => .failAt_bind) h

/-- A part that is left out where it is not called for. -/
theorem optional {c : Prop} [Decidable c] {next : Parser β} {next' : Halt → Parser β}
    (hp : c → Watched A base p p' s Q)
    (h : ∀ s', Extends base s s' → c ∧ (∃ a, Q a s') ∨ ¬ c ∧ s' = s →
      Watched A base next next' s' R) :
    Watched A base (if c then p >>= fun _ => next else next)
      (fun h => if c then p' h >>= fun _ => next' h else next' h) s R :=
  .ite (fun hc => (hp hc).bind fun a s' hs hQ => h s' hs (Or.inl ⟨hc, a, hQ⟩))
    fun hc => h s (.refl base s) (Or.inr ⟨hc, rfl⟩)

/-- Two ways to what comes next. -/
theorem choose {c : Prop} [Decidable c] {q : Parser α} {q' : Halt → Parser α}
    (hp : Watched A base p p' s Q) (hq : Watched A base q q' s Q)
    (hf : ∀ a s', Extends base s s' → Q a s' → Watched A base (f a) (fun h => f' h a) s' R) :
    Watched A base (if c then p >>= f else q >>= f)
      (fun h => if c then p' h >>= f' h else q' h >>= f' h) s R :=
  .ite (fun _ => hp.bind hf) fun _ => hq.bind hf

/-- Two ways to what comes next, and a third that leads nowhere. -/
theorem chooseOrFail {c d : Prop} [Decidable c] [Decidable d] {q : Parser α}
    {q' : Halt → Parser α} {token : Token} {complaint : Complaint}
    (hp : Watched A base p p' s Q) (hq : Watched A base q q' s Q)
    (hf : ∀ a s', Extends base s s' → Q a s' → Watched A base (f a) (fun h => f' h a) s' R) :
    Watched A base
      (if c then p >>= f else if d then Parser.failAt token complaint >>= f else q >>= f)
      (fun h => if c then p' h >>= f' h
        else if d then Parser.failAt token complaint >>= f' h else q' h >>= f' h) s R :=
  .ite (fun _ => hp.bind hf) fun _ => .ite (fun _ => .failAt_bind) fun _ => hq.bind hf

/-- One change of the state, and then the rest. -/
theorem update {g : ParserState → ParserState} {f : PUnit → Parser β}
    {f' : Halt → PUnit → Parser β} (hext : Extends base s (g s)) (hA : ∀ N, A.holds N s (g s))
    (h : Watched A base (f ⟨⟩) (fun h => f' h ⟨⟩) (g s) R) :
    Watched A base ((modify g : Parser PUnit) >>= f) (fun h => (modify g : Parser PUnit) >>= f' h)
      s R := by
  refine bind (Q := fun _ s' => s' = g s) (.nameless fun a s' hrun => ?_) fun _ s' _ hs => ?_
  · cases hrun
    exact ⟨hext, hA, rfl⟩
  · subst hs
    exact h

/-! ## Tokens -/

theorem get {f : ParserState → Parser β} {f' : Halt → ParserState → Parser β}
    (h : Watched A base (f s) (fun h => f' h s) s R) :
    Watched A base ((get : Parser ParserState) >>= f)
      (fun h => (MonadState.get : Parser ParserState) >>= f' h) s R := h.of_eq rfl fun _ => rfl

theorem current {f : Token → Parser β} {f' : Halt → Token → Parser β}
    (h : Watched A base (f s.front) (fun h => f' h s.front) s R) :
    Watched A base (Parser.current >>= f) (fun h => Parser.current >>= f' h) s R :=
  h.of_eq rfl fun _ => rfl

theorem following {f : Token → Parser β} {f' : Halt → Token → Parser β}
    (h : Watched A base (f s.next.front) (fun h => f' h s.next.front) s R) :
    Watched A base (Parser.following >>= f) (fun h => Parser.following >>= f' h) s R :=
  h.of_eq (run_following f s) fun halt => run_following (f' halt) s

theorem isAt {mark : Symbol} {f : Bool → Parser β} {f' : Halt → Bool → Parser β}
    (h : ∀ b, (b = true → s.front.lexeme = .symbol mark) →
      Watched A base (f b) (fun h => f' h b) s R) :
    Watched A base (Parser.isAt mark >>= f) (fun h => Parser.isAt mark >>= f' h) s R :=
  (h (s.front.lexeme == .symbol mark) beq_iff_eq.1).of_eq rfl fun _ => rfl

theorem advances (h : s.front.lexeme.isPlain = true) :
    Watched A base Parser.advance (fun _ => Parser.advance) s
      fun token s' => token = s.front ∧ s' = s.next ∧ base.Clear s' := by
  intro habove
  refine quiet (fun a s' hrun => ?_) habove
  obtain ⟨rfl, rfl⟩ := advance_eq_ok hrun
  exact ⟨.next base h, rfl, rfl, rfl, rfl, (habove.scanned.next h).2⟩

theorem advance {lexeme : Lexeme} {f : Token → Parser β} {f' : Halt → Token → Parser β}
    (hfront : s.front.lexeme = lexeme) (hplain : lexeme.isPlain = true)
    (h : base.Clear s.next → Watched A base (f s.front) (fun h => f' h s.front) s.next R) :
    Watched A base (Parser.advance >>= f) (fun h => Parser.advance >>= f' h) s R := by
  refine (advances (hfront ▸ hplain)).bind fun token s' _ hs => ?_
  obtain ⟨rfl, rfl, hclear⟩ := hs
  exact h hclear

theorem accepts (mark : Symbol) (s : ParserState) :
    Watched A base (Parser.accept mark) (fun _ => Parser.accept mark) s
      fun b s' => b = true ∧ s' = s.next ∧ s.front.lexeme = .symbol mark ∧ base.Clear s' ∨
        b = false ∧ s' = s := by
  refine .current (.ite (fun hmark => ?_) fun _ => ?_)
  · have hfront := beq_iff_eq.1 hmark
    exact .advance hfront rfl fun hclear => .pure (Or.inl ⟨rfl, rfl, hfront, hclear⟩)
  · exact .pure (Or.inr ⟨rfl, rfl⟩)

theorem accept {mark : Symbol} {f : Bool → Parser β} {f' : Halt → Bool → Parser β}
    (hyes : s.front.lexeme = .symbol mark → base.Clear s.next →
      Watched A base (f true) (fun h => f' h true) s.next R)
    (hno : Watched A base (f false) (fun h => f' h false) s R) :
    Watched A base (Parser.accept mark >>= f) (fun h => Parser.accept mark >>= f' h) s R := by
  refine (accepts mark s).bind fun b s' _ hs => ?_
  obtain ⟨rfl, rfl, hfront, hclear⟩ | ⟨rfl, rfl⟩ := hs
  · exact hyes hfront hclear
  · exact hno

theorem expects {lexeme : Lexeme} (hplain : lexeme.isPlain = true) (s : ParserState) :
    Watched A base (Parser.expectLexeme lexeme) (fun _ => Parser.expectLexeme lexeme) s
      fun token s' => token = s.front ∧ s.front.lexeme = lexeme ∧ s' = s.next ∧ base.Clear s' := by
  refine .current (.ite (fun hfront => ?_) fun _ => .fail _)
  have hfront : s.front.lexeme = lexeme := beq_iff_eq.1 hfront
  exact (advances (hfront ▸ hplain)).mono fun token s' _ hs => ⟨hs.1, hfront, hs.2⟩

theorem expectLexeme {lexeme : Lexeme} {f : Token → Parser β} {f' : Halt → Token → Parser β}
    (hplain : lexeme.isPlain = true)
    (h : s.front.lexeme = lexeme → base.Clear s.next →
      Watched A base (f s.front) (fun h => f' h s.front) s.next R) :
    Watched A base (Parser.expectLexeme lexeme >>= f) (fun h => Parser.expectLexeme lexeme >>= f' h)
      s R := by
  refine (expects hplain s).bind fun token s' _ hs => ?_
  obtain ⟨rfl, hfront, rfl, hclear⟩ := hs
  exact h hfront hclear

theorem expectName {f : Token × String → Parser β} {f' : Halt → Token × String → Parser β}
    (h : ∀ name, s.front.lexeme = .name name →
      Watched A base (f (s.front, name)) (fun h => f' h (s.front, name)) s.next R) :
    Watched A base (Parser.expectName >>= f) (fun h => Parser.expectName >>= f' h) s R := by
  refine bind (Q := fun x s' => x.1 = s.front ∧ s.front.lexeme = .name x.2 ∧ s' = s.next) ?_
    fun x s' _ hs => ?_
  · refine .current ?_
    split
    · next name hname => exact .advance hname rfl fun _ => .pure ⟨rfl, hname, rfl⟩
    · exact .fail _
  · obtain ⟨token, name⟩ := x
    obtain ⟨rfl, hname, rfl⟩ := hs
    exact h name hname

/-! ## Nodes -/

theorem found {x : Option α} {f : α → Parser β} {f' : Halt → α → Parser β}
    (h : ∀ a, x = some a → Watched A base (f a) (fun h => f' h a) s R) :
    Watched A base (Parser.found x >>= f) (fun h => Parser.found x >>= f' h) s R := by
  cases x with
  | none => exact .fail_bind
  | some a => exact h a rfl

theorem nodeAt {id : NodeId} {f : Node → Parser β} {f' : Halt → Node → Parser β}
    (h : Watched A base (f (s.node id)) (fun h => f' h (s.node id)) s R) :
    Watched A base (Parser.nodeAt id >>= f) (fun h => Parser.nodeAt id >>= f' h) s R := by
  refine bind (Q := fun n s' => n = s.node id ∧ s' = s) (.quiet fun n s' hrun => ?_)
    fun n s' _ hs => ?_
  · have hnode : (Parser.nodeAt id).Does s fun n s' => n = s.node id ∧ s' = s := by
      rw [← bind_pure (Parser.nodeAt id)]
      exact .nodeAt (.pure ⟨rfl, rfl⟩)
    obtain ⟨-, rfl, rfl⟩ := hnode hrun
    exact ⟨.refl base _, rfl, rfl, rfl, rfl⟩
  · obtain ⟨rfl, rfl⟩ := hs
    exact h

theorem shapeAt {id : NodeId} {f : Shape → Parser β} {f' : Halt → Shape → Parser β}
    (h : Watched A base (f (s.shape id)) (fun h => f' h (s.shape id)) s R) :
    Watched A base (Parser.shapeAt id >>= f) (fun h => Parser.shapeAt id >>= f' h) s R := by
  unfold Parser.shapeAt
  simp only [bind_assoc]
  exact .nodeAt h

theorem addNode {n : Node} {f : NodeId → Parser β} {f' : Halt → NodeId → Parser β}
    (hA : ∀ N, A.holds N s (s.push n))
    (h : Watched A base (f s.nodes.size) (fun h => f' h s.nodes.size) (s.push n) R) :
    Watched A base (Parser.addNode n >>= f) (fun h => Parser.addNode n >>= f' h) s R := by
  refine bind (Q := fun id s' => id = s.nodes.size ∧ s' = s.push n)
    (.nameless fun id s' hrun => ?_) fun id s' _ hs => ?_
  · cases hrun
    exact ⟨.push base s n, hA, rfl, rfl⟩
  · obtain ⟨rfl, rfl⟩ := hs
    exact h

/-- The node that a rule hands out. -/
theorem hand {n : Node} {Q : NodeId → ParserState → Prop} (hA : ∀ N, A.holds N s (s.push n))
    (h : Q s.nodes.size (s.push n)) :
    Watched A base (Parser.addNode n) (fun _ => Parser.addNode n) s Q := by
  refine .nameless fun id s' hrun => ?_
  cases hrun
  exact ⟨.push base s n, hA, h⟩

/-! ## Scopes, repetition and recursion -/

theorem declare (hA : A.Scopeless) {v : Variable} {f : PUnit → Parser β}
    {f' : Halt → PUnit → Parser β} (hv : base.Origin s v)
    (h : Watched A base (f ⟨⟩) (fun h => f' h ⟨⟩) (s.addVariable v) R) :
    Watched A base (Parser.declare v >>= f) (fun h => Parser.declare v >>= f' h) s R := by
  have hext : Extends base s (s.addVariable v) := by
    refine ⟨.addVariable s v, .of_eq List.suffix_rfl rfl, (·.of_eq rfl rfl), rfl, [v], rfl,
      fun v' hv' => ?_⟩
    rw [List.mem_singleton.1 hv']
    exact hv.later List.suffix_rfl
  exact .update hext (fun N => hA N s s s _ rfl rfl (A.quiet rfl rfl)) h

theorem run_inScope (body : Parser α) (s : ParserState) :
    Parser.inScope body s = body s.opened >>= fun x => .ok (x.1, x.2.closed) := rfl

theorem inScope (hA : A.Scopeless) (h : Watched A base p p' s.opened fun _ s' => base.Clear s') :
    Watched A base (Parser.inScope p) (fun h => Parser.inScope (p' h)) s
      fun _ s' => Restores base s s' := by
  intro habove
  obtain ⟨hhalts, hends⟩ := h habove.opened
  have hreads : ∀ r, Reads p' s.opened r → Reads (fun h => Parser.inScope (p' h)) s r := by
    refine fun r hr => ⟨hr.1, fun report => ?_⟩
    simp only [run_inScope, hr.2 report]
    rfl
  have hok : ∀ {a s'}, Parser.inScope p s = .ok (a, s') →
      ∃ s'', p s.opened = .ok (a, s'') ∧ s''.closed = s' := by
    intro a s' hrun
    rw [run_inScope] at hrun
    cases hinner : p s.opened with
    | error e =>
      rw [hinner] at hrun
      cases hrun
    | ok x =>
      rw [hinner] at hrun
      cases hrun
      exact ⟨x.2, rfl, rfl⟩
  constructor
  · intro n
    obtain hsame | ⟨r, hr, hrest, habove', hpast⟩ := hhalts n
    · refine Or.inl fun report => ?_
      rw [run_inScope, run_inScope, hsame]
    · refine Or.inr ⟨r, hreads r hr, hrest, habove', fun a s' hrun => ?_⟩
      obtain ⟨s'', hrun', rfl⟩ := hok hrun
      exact hpast a s'' hrun'
  · intro a s' hrun
    obtain ⟨s'', hrun', rfl⟩ := hok hrun
    obtain ⟨hext, hholds, hclear⟩ := hends a s'' hrun'
    exact ⟨hext.closed, hA _ s.opened s'' s _ rfl rfl (A.mono hreads hholds), hext.scopes_closed,
      hclear⟩

/-- A last change of the state, which counts only together with what comes before. -/
theorem finish (hA : A.Scopeless) {g : α → ParserState → ParserState} {b : α → β}
    (hp : Watched A base p p' s Q)
    (h : ∀ a s', Extends base s s' → Q a s' → Extends base s (g a s') ∧
      (g a s').nodes = s'.nodes ∧ (g a s').rest = s'.rest ∧ R (b a) (g a s')) :
    Watched A base (p >>= fun a => do modify (g a); return b a)
      (fun h => p' h >>= fun a => do modify (g a); return b a) s R := by
  intro habove
  obtain ⟨hhalts, hends⟩ := hp habove
  have hrun : ∀ {q : Parser α} {a s'}, q s = .ok (a, s') →
      (q >>= fun a => do modify (g a); return b a) s = .ok (b a, g a s') := fun hq =>
    bind_of_ok hq _
  have hreads : ∀ r, Reads p' s r →
      Reads (fun h => p' h >>= fun a => do modify (g a); return b a) s r := fun r hr =>
    ⟨hr.1, fun report => bind_of_error (hr.2 report) _⟩
  constructor
  · intro n
    obtain hsame | ⟨r, hr, hrest, habove', hpast⟩ := hhalts n
    · refine Or.inl fun report => ?_
      cases hps : p s with
      | error e => rw [bind_of_error hps, bind_of_error ((hsame report).trans hps)]
      | ok x => rw [hrun hps, hrun ((hsame report).trans hps)]
    · refine Or.inr ⟨r, hreads r hr, hrest, habove', fun c s' hok => ?_⟩
      obtain ⟨a, s'', hps, hlast⟩ := bind_eq_ok hok
      obtain ⟨hext, -, hQ⟩ := hends a s'' hps
      cases hlast
      rw [(h a s'' hext hQ).2.2.1]
      exact hpast a s'' hps
  · intro c s' hok
    obtain ⟨a, s'', hps, hlast⟩ := bind_eq_ok hok
    obtain ⟨hext, hholds, hQ⟩ := hends a s'' hps
    cases hlast
    obtain ⟨hext', hnodes, -, hR⟩ := h a s'' hext hQ
    exact ⟨hext', hA _ s s'' s _ rfl hnodes.symm (A.mono hreads hholds), hR⟩

theorem loop (I : α → ParserState → Prop) {step : α → Parser (Turn α β)}
    {step' : Halt → α → Parser (Turn α β)} {a : α}
    (hstep : ∀ a s, I a s →
      Watched A base (step a) (fun h => step' h a) s (Does.AfterTurn I R)) (ha : I a s) :
    Watched A base (Parser.loop step a) (fun h => Parser.loop (step' h) a) s R := by
  have hwithin : ∀ turns a s, I a s → Watched A base (loopWithin step turns a)
      (fun h => loopWithin (step' h) turns a) s R := by
    intro turns
    induction turns with
    | zero => exact fun a s _ => .fail _
    | succ turns ih =>
      intro a s ha
      refine (hstep a s ha).bind fun turn s' _ hturn => ?_
      cases turn with
      | again a => exact ih a s' hturn
      | stop b => exact .pure hturn
  exact (hwithin (s.rest.length + 1) a s ha).of_eq rfl fun _ => rfl

/-- Rules that call each other, from states of a kind. -/
theorem knot {ρ : Type} {rules : (ρ → Parser α) → ρ → Parser α}
    {rules' : Halt → (ρ → Parser α) → ρ → Parser α} (P : ParserState → Prop)
    {Q : ParserState → α → ParserState → Prop}
    (h : ∀ (self : ρ → Parser α) (self' : Halt → ρ → Parser α),
      (∀ rule s, P s → Watched A base (self rule) (fun h => self' h rule) s (Q s)) →
        ∀ rule s, P s → Watched A base (rules self rule) (fun h => rules' h (self' h) rule) s (Q s))
    (rule : ρ) (s : ParserState) (hs : P s) :
    Watched A base (Parser.knot rules rule) (fun h => Parser.knot (rules' h) rule) s (Q s) := by
  have hwithin : ∀ depth rule s, P s → Watched A base (knotWithin rules depth rule)
      (fun h => knotWithin (rules' h) depth rule) s (Q s) := by
    intro depth
    induction depth with
    | zero => exact fun rule s _ => .fail _
    | succ depth ih => exact h _ _ ih
  exact (hwithin (s.rest.length + 1) rule s hs).of_eq rfl fun _ => rfl

end Watched

end Parser

end ShaderCost
