import ShaderCost.Proofs.Grammar.Totality

/-! # The rules for expressions as equations

The rules call each other through `Parser.knot`, which allows them a depth. Where reading comes to,
the depth does not matter: the grammar reads as if it called itself without a limit (`parse_eq_rules`),
and a rule that is given less depth reads the same or fails (`Tied.parse_eq_ok`).

Both come from one fact. `Parser.Approximates kind p q` says that `p` fails in the given way or does
what `q` does, and a rule keeps it when the rules it calls do. A rule that is kept from calling where
it has no right to never notices, since it never calls there (`rules_congr`).
-/

namespace ShaderCost

namespace Parser

variable {α β : Type}

/-- In every state, `p` fails in the given way or does what `q` does. -/
def Approximates (kind : ParseError → Prop) (p q : Parser α) : Prop :=
  ∀ s, (∃ e, kind e ∧ p s = .error e) ∨ p s = q s

namespace Approximates

variable {kind : ParseError → Prop} {p q : Parser α} {f g : α → Parser β}

theorem refl (p : Parser α) : Approximates kind p p := fun _ => Or.inr rfl

theorem bind (hp : Approximates kind p q) (hf : ∀ a, Approximates kind (f a) (g a)) :
    Approximates kind (p >>= f) (q >>= g) := by
  intro s
  change (∃ e, kind e ∧ (p s >>= fun x => f x.1 x.2) = .error e) ∨
    (p s >>= fun x => f x.1 x.2) = (q s >>= fun x => g x.1 x.2)
  rcases hp s with ⟨e, hkind, herror⟩ | hsame
  · rw [herror]
    exact Or.inl ⟨e, hkind, rfl⟩
  · rw [← hsame]
    cases p s with
    | error e => exact Or.inr rfl
    | ok x => exact hf x.1 x.2

/-- The same beginning. -/
theorem seq (h : ∀ a, Approximates kind (f a) (g a)) : Approximates kind (p >>= f) (p >>= g) :=
  (refl p).bind h

theorem ite {c : Prop} [Decidable c] {p p' q q' : Parser α} (hp : Approximates kind p p')
    (hq : Approximates kind q q') :
    Approximates kind (if c then p else q) (if c then p' else q') := by
  split
  · exact hp
  · exact hq

/-- A check that complains or does nothing. -/
theorem check {c : Prop} [Decidable c] {token : Token} {complaint : Complaint}
    {next next' : Unit → Parser β} (h : Approximates kind (next ()) (next' ())) :
    Approximates kind (if c then failAt token complaint >>= next else next ())
      (if c then failAt token complaint >>= next' else next' ()) :=
  .ite (fun _ => Or.inr rfl) h

/-- A part that is left out where it is not called for. -/
theorem optional {c : Prop} [Decidable c] {next next' : Parser β}
    (h : Approximates kind next next') :
    Approximates kind (if c then p >>= fun _ => next else next)
      (if c then p >>= fun _ => next' else next') :=
  .ite (.seq fun _ => h) h

theorem loop {step step' : α → Parser (Turn α β)}
    (h : ∀ a, Approximates kind (step a) (step' a)) (a : α) :
    Approximates kind (Parser.loop step a) (Parser.loop step' a) := by
  have hwithin : ∀ turns a,
      Approximates kind (loopWithin step turns a) (loopWithin step' turns a) := by
    intro turns
    induction turns with
    | zero => exact fun _ => .refl _
    | succ turns ih =>
      intro a
      refine (h a).bind fun turn => ?_
      cases turn with
      | again a => exact ih a
      | stop b => exact .refl _
  exact fun s => hwithin _ a s

/-- A success is the other's as well. -/
theorem eq_ok (h : Approximates kind p q) {s : ParserState} {r : α × ParserState}
    (hrun : p s = .ok r) : q s = .ok r := by
  rcases h s with ⟨e, -, herror⟩ | hsame
  · rw [hrun] at herror
    cases herror
  · rw [← hsame, hrun]

end Approximates

/-- A depth more changes only how runs fail. -/
theorem knotWithin_mono {ρ : Type} {rules : (ρ → Parser α) → ρ → Parser α}
    (h : ∀ self self' : ρ → Parser α,
      (∀ rule, Approximates (fun _ => True) (self rule) (self' rule)) →
      ∀ rule, Approximates (fun _ => True) (rules self rule) (rules self' rule))
    {depth depth' : Nat} (hle : depth ≤ depth') (rule : ρ) :
    Approximates (fun _ => True) (knotWithin rules depth rule) (knotWithin rules depth' rule) := by
  induction depth generalizing depth' rule with
  | zero =>
    intro s
    exact Or.inl ⟨_, trivial, rfl⟩
  | succ depth ih =>
    obtain ⟨depth', rfl⟩ := Nat.exists_eq_add_of_le' (Nat.lt_of_lt_of_le (Nat.succ_pos depth) hle)
    exact h _ _ (fun rule => ih (Nat.le_of_succ_le_succ hle) rule) rule

end Parser

namespace Expression

open ShaderCost.Parser

/-! ## The rules -/

section

variable {kind : ParseError → Prop} {self self' : Rule → Parser NodeId}
  (hself : ∀ rule, Approximates kind (self rule) (self' rule))

include hself

theorem subscript_approximates (base : NodeId) (token : Token) :
    Approximates kind (subscript self base token) (subscript self' base token) :=
  .seq fun _ => .check ((hself _).bind fun _ => .refl _)

theorem argumentStep_approximates (args : List NodeId) :
    Approximates kind (argumentStep self args) (argumentStep self' args) :=
  .seq fun _ => .ite (.refl _) (.optional ((hself _).bind fun _ => .refl _))

theorem arguments_approximates : Approximates kind (arguments self) (arguments self') := by
  refine .seq fun _ => .seq fun _ => .seq fun _ => .optional ?_
  exact (Approximates.loop (argumentStep_approximates hself) []).bind fun _ => .refl _

theorem call_approximates (token : Token) (name : String) :
    Approximates kind (call self token name) (call self' token name) :=
  (arguments_approximates hself).bind fun _ => .refl _

theorem primary_approximates : Approximates kind (primary self) (primary self') := by
  refine .seq fun token => ?_
  split
  case h_5 => exact .seq fun _ => (hself _).bind fun _ => .refl _
  case h_6 => exact .seq fun _ => .seq fun _ => .ite (call_approximates hself _ _) (.refl _)
  all_goals exact .refl _

theorem suffix_approximates (start : Token) (operand : NodeId) :
    Approximates kind (suffix self start operand) (suffix self' start operand) := by
  refine .seq fun token => ?_
  split
  case h_1 => exact .seq fun _ => (subscript_approximates hself _ _).bind fun _ => .refl _
  all_goals exact .refl _

theorem suffixed_approximates : Approximates kind (suffixed self) (suffixed self') := by
  refine .seq fun start => (primary_approximates hself).bind fun operand => ?_
  exact .loop (suffix_approximates hself start) operand

theorem unary_approximates : Approximates kind (unary self) (unary self') := by
  refine .seq fun token => ?_
  split
  case h_5 | h_6 => exact .seq fun _ => .seq fun _ => (hself _).bind fun _ => .refl _
  case h_7 => exact suffixed_approximates hself
  all_goals exact .seq fun _ => (hself _).bind fun _ => .refl _

theorem binaryStep_approximates (least : Nat) (left : NodeId) :
    Approximates kind (binaryStep self least left) (binaryStep self' least left) := by
  refine .seq fun token => ?_
  split
  · exact .refl _
  · exact .ite (.refl _) (.seq fun _ => (hself _).bind fun _ => .refl _)

theorem binary_approximates (least : Nat) :
    Approximates kind (binary self least) (binary self' least) :=
  (unary_approximates hself).bind fun left => .loop (binaryStep_approximates hself least) left

theorem conditional_approximates : Approximates kind (conditional self) (conditional self') := by
  refine (binary_approximates hself 1).bind fun condition => .seq fun _ => .ite (.refl _) ?_
  refine .seq fun _ => .seq fun _ => .check ((hself _).bind fun yes => ?_)
  exact .seq fun _ => (hself _).bind fun no => .refl _

theorem assignment_approximates : Approximates kind (assignment self) (assignment self') := by
  refine .seq fun _ => (conditional_approximates hself).bind fun left => .seq fun _ => ?_
  split
  · exact .refl _
  · exact .seq fun _ => .seq fun _ => (hself _).bind fun _ => .refl _

theorem commaStep_approximates (left : NodeId) :
    Approximates kind (commaStep self left) (commaStep self' left) :=
  .seq fun _ => .ite (.refl _) (.seq fun _ => (hself _).bind fun _ => .refl _)

theorem expression_approximates : Approximates kind (expression self) (expression self') :=
  (assignment_approximates hself).bind fun first => .loop (commaStep_approximates hself) first

theorem rules_approximates (rule : Rule) :
    Approximates kind (rules self rule) (rules self' rule) := by
  cases rule with
  | expression => exact expression_approximates hself
  | assignment => exact assignment_approximates hself
  | unary => exact unary_approximates hself
  | binary least => exact binary_approximates hself least

end

/-! ## Calls -/

section

variable {ts : List Token} {s : ParserState} {self self' : Rule → Parser NodeId} {n : Nat}

/-- A rule may be called where reading has come to, with fewer tokens left than `n`. -/
def Callable (ts : List Token) (n : Nat) (s : ParserState) : Prop :=
  Reading ts s ∧ s.rest.length < n

open Classical in
/-- The rules, which run out of depth where they may not be called. -/
noncomputable def guarded (ts : List Token) (n : Nat) (self : Rule → Parser NodeId) (rule : Rule) :
    Parser NodeId := fun s =>
  if Callable ts n s then self rule s
  else .error { complaint := .exhausted, line := 0, column := 0 }

theorem guarded_of_callable (h : Callable ts n s) (rule : Rule) :
    guarded ts n self rule s = self rule s := if_pos h

theorem guarded_approximates
    (h : ∀ rule {s}, Callable ts n s → self rule s = self' rule s) (rule : Rule) :
    Approximates (·.complaint = .exhausted) (guarded ts n self rule) (self' rule) := by
  intro s
  by_cases hs : Callable ts n s
  · right
    rw [guarded_of_callable hs, h rule hs]
  · left
    exact ⟨_, rfl, if_neg hs⟩

theorem guarded_descends (h : Descends ts Handed self n) :
    Descends ts Handed (guarded ts n self) n := by
  constructor
  · intro rule s a s' hrun
    exact h.does rule s ((guarded_approximates (fun _ _ _ => rfl) rule).eq_ok hrun)
  · intro rule s hlt hs
    rw [guarded_of_callable ⟨hs, hlt⟩]
    exact h.ends rule hlt hs

/-- A rule never calls where it may not, or else it would run out of depth. -/
theorem rules_guarded (hself : Descends ts Handed self n)
    (h : ∀ rule {s}, Callable ts n s → self rule s = self' rule s) (rule : Rule)
    (hs : Reading ts s) (hn : s.rest.length ≤ n) :
    rules (guarded ts n self) rule s = rules self' rule s := by
  have hend := rules_ends (guarded_descends hself) rule hn hs
  rcases rules_approximates (guarded_approximates h) rule s with ⟨e, hexhausted, herror⟩ | hsame
  · rw [herror] at hend
    exact absurd hexhausted (Refusal.isProper hend).1
  · exact hsame

/-- What the called rules do where they may not be called makes no difference. -/
theorem rules_congr (hself : Descends ts Handed self n)
    (h : ∀ rule {s}, Callable ts n s → self rule s = self' rule s) (rule : Rule)
    (hs : Reading ts s) (hn : s.rest.length ≤ n) : rules self rule s = rules self' rule s :=
  calc
    rules self rule s = rules (guarded ts n self) rule s :=
      (rules_guarded hself (fun _ _ _ => rfl) rule hs hn).symm
    _ = rules self' rule s := rules_guarded hself h rule hs hn

/-- Depth beyond the number of tokens left makes no difference. -/
theorem knotWithin_eq_parse {depth : Nat} (hs : Reading ts s) (hlt : s.rest.length < depth)
    (rule : Rule) : knotWithin rules depth rule s = parse rule s := by
  induction depth using Nat.strong_induction_on generalizing s rule with
  | _ depth ih =>
    -- both sides are unfolded once, and their calls have fewer tokens left
    have hunfold : ∀ depth' < depth, s.rest.length ≤ depth' →
        knotWithin rules (depth' + 1) rule s = rules parse rule s := by
      intro depth' hdepth' hle
      refine (rules_congr (parse_descends ts s.rest.length) ?_ rule hs (Nat.le_refl _)).symm
      rintro rule t ⟨ht, hfewer⟩
      exact (ih depth' hdepth' ht (Nat.lt_of_lt_of_le hfewer hle) rule).symm
    obtain ⟨depth', rfl⟩ := Nat.exists_eq_add_of_le' (Nat.lt_of_le_of_lt (Nat.zero_le _) hlt)
    calc
      knotWithin rules (depth' + 1) rule s = rules parse rule s :=
        hunfold depth' (Nat.lt_succ_self depth') (Nat.le_of_lt_succ hlt)
      _ = knotWithin rules (s.rest.length + 1) rule s :=
        (hunfold s.rest.length hlt (Nat.le_refl _)).symm

/-- The grammar reads as if it called itself without a limit. -/
theorem parse_eq_rules (hs : Reading ts s) (rule : Rule) :
    parse rule s = rules parse rule s := by
  refine (rules_congr (parse_descends ts s.rest.length) ?_ rule hs (Nat.le_refl _)).symm
  rintro rule t ⟨ht, hfewer⟩
  exact (knotWithin_eq_parse ht hfewer rule).symm

/-- The rules that a rule is given in a run: the grammar, to some depth or as a whole. -/
inductive Tied : (Rule → Parser NodeId) → Prop where
  | within (depth : Nat) : Tied (knotWithin rules depth)
  | whole : Tied parse

/-- Whatever depth a rule is given, a success is that of the grammar. -/
theorem Tied.parse_eq_ok (hself : Tied self) (hs : Reading ts s) {rule : Rule}
    {r : NodeId × ParserState} (h : rules self rule s = .ok r) : parse rule s = .ok r := by
  cases hself with
  | whole =>
    rw [parse_eq_rules hs, h]
  | within depth =>
    have hdepth : knotWithin rules (depth + 1) rule s = .ok r := h
    by_cases hlt : s.rest.length < depth + 1
    · rw [← knotWithin_eq_parse hs hlt, hdepth]
    · have hle : depth + 1 ≤ s.rest.length + 1 := by omega
      exact (knotWithin_mono (fun _ _ => rules_approximates) hle rule).eq_ok hdepth

end

end Expression

end ShaderCost
