import ShaderCost.Proofs.Grammar.Unfolding

/-! # Precedence

A chain is a first operand and links, each an operator with the operand behind it. `Grouped` says
what the grammar means by a chain: the last of the weakest operators stands at the top, and the parts
on its two sides are grouped in the same way.

The parser never looks for a weakest operator. It climbs: what it has read so far is the left operand
of the operator in front, and the right operand is a chain of stronger ones. `Climbs` is what holds
between two operators. That no operator before is weaker than the one in front makes it the last
weakest when it is joined, so that climbing groups as the grammar says (`precedence_grouping`).
-/

namespace ShaderCost.Expression

open ShaderCost.Parser

/-! ## Chains -/

/-- A binary operator, with its precedence and the operand behind it. -/
structure Link where
  precedence : Nat
  op : Operator
  operand : NodeId

/-- Reading from `s` has passed over operands, with operators between them. Nodes that join operands
may be made before the next operator. -/
inductive Chain (s : ParserState) : NodeId → List Link → ParserState → Prop where
  | operand {first : NodeId} {t : ParserState} (h : parse .unary s = .ok (first, t)) :
      Chain s first [] t
  | joined {first : NodeId} {links : List Link} {t : ParserState} {n : Node}
      (h : Chain s first links t) (hn : n.form = .binary) : Chain s first links (t.push n)
  | link {first operand : NodeId} {links : List Link} {t t' : ParserState} {mark : Symbol}
      {precedence : Nat} {op : Operator} (h : Chain s first links t)
      (hop : binaryAt? t.front = some (mark, precedence, op))
      (hoperand : parse .unary t.next = .ok (operand, t')) :
      Chain s first (links ++ [⟨precedence, op, operand⟩]) t'

/-- A chain goes on behind an operator with another chain. -/
theorem Chain.append {s t t' : ParserState} {first first' : NodeId} {links links' : List Link}
    {mark : Symbol} {precedence : Nat} {op : Operator} (h : Chain s first links t)
    (hop : binaryAt? t.front = some (mark, precedence, op)) (h' : Chain t.next first' links' t') :
    Chain s first (links ++ ⟨precedence, op, first'⟩ :: links') t' := by
  induction h' with
  | operand hfirst => exact h.link hop hfirst
  | joined _ hn ih => exact ih.joined hn
  | link _ hop' hoperand ih => simpa using ih.link hop' hoperand

/-! ## Grouping -/

/-- The node joins two others by a binary operator. -/
structure Joins (s : ParserState) (id : NodeId) (op : Operator) (left right : NodeId) : Prop where
  has : s.Has id
  form : (s.node id).form = .binary
  op : (s.node id).op = op
  operands : (s.node id).operands = [left, right]

/-- The node of a chain: its only operand, or the node of the last weakest operator, which joins the
chain before it and the chain behind it. -/
inductive Grouped (s : ParserState) : NodeId → List Link → NodeId → Prop where
  | single {first : NodeId} : Grouped s first [] first
  | split {first left right id : NodeId} {before after : List Link} {link : Link}
      (hweakest : ∀ other ∈ before, link.precedence ≤ other.precedence)
      (hlast : ∀ other ∈ after, link.precedence < other.precedence)
      (hleft : Grouped s first before left) (hright : Grouped s link.operand after right)
      (h : Joins s id link.op left right) : Grouped s first (before ++ link :: after) id

theorem Joins.grows {s s' : ParserState} {id left right : NodeId} {op : Operator}
    (h : Joins s id op left right) (hgrows : Grows s s') : Joins s' id op left right := by
  have hnode := hgrows.node_eq h.has
  constructor
  · exact hgrows.has h.has
  · rw [hnode, h.form]
  · rw [hnode, h.op]
  · rw [hnode, h.operands]

/-- Later nodes leave a grouping as it is. -/
theorem Grouped.grows {s s' : ParserState} {first id : NodeId} {links : List Link}
    (h : Grouped s first links id) (hgrows : Grows s s') : Grouped s' first links id := by
  induction h with
  | single => exact .single
  | split hweakest hlast _ _ h ihleft ihright =>
    exact .split hweakest hlast ihleft ihright (h.grows hgrows)

/-! ## Climbing -/

/-- The chain from `s` to `t` is grouped as `left`. Its operators are at least as strong as asked, and
at least as strong as the one in front. -/
structure Climbs (ts : List Token) (s : ParserState) (least : Nat) (first : NodeId)
    (links : List Link) (left : NodeId) (t : ParserState) : Prop where
  reading : Reading ts t
  shorter : t.rest.length ≤ s.rest.length
  chain : Chain s first links t
  has : t.Has left
  grouped : Grouped t first links left
  least_le : ∀ link ∈ links, least ≤ link.precedence
  front_le : ∀ {mark precedence op}, binaryAt? t.front = some (mark, precedence, op) →
    ∀ link ∈ links, precedence ≤ link.precedence

/-- The climb is over: an operator in front is weaker than asked. -/
def Climbed (ts : List Token) (s : ParserState) (least : Nat) (id : NodeId) (t : ParserState) :
    Prop :=
  ∃ first links, Climbs ts s least first links id t ∧
    ∀ mark precedence op, binaryAt? t.front = some (mark, precedence, op) → precedence < least

variable {ts : List Token} {s t : ParserState} {least : Nat} {first left : NodeId}
  {links : List Link}

theorem Climbs.operand (hs : Reading ts s) (h : parse .unary s = .ok (first, t)) :
    Climbs ts s least first [] first t := by
  obtain ⟨hsteps, hhas⟩ := parse_does .unary s h
  have hend : Ending ts s (fun _ => s.rest.length) (parse .unary s) :=
    parse_ends .unary (Nat.le_refl s.rest.length) hs
  rw [h] at hend
  exact {
    reading := ⟨hs.ended, hs.steps.trans hsteps, hend.2.1⟩
    shorter := Nat.le_of_lt hend.2.2
    chain := .operand h
    has := hhas
    grouped := .single
    least_le := by simp
    front_le := by simp }

/-- The operator in front joins what is read so far with a chain of stronger operators. -/
theorem Climbs.join {mark : Symbol} {precedence : Nat} {op : Operator} {right id : NodeId}
    {t' : ParserState} {n : Node} (h : Climbs ts s least first links left t)
    (hop : binaryAt? t.front = some (mark, precedence, op)) (hle : least ≤ precedence)
    (hright : Climbed ts t.next (precedence + 1) right t') (hgrows : Grows t t')
    (hstep : Step t' (t'.push n)) (hform : n.form = .binary)
    (hjoins : Joins (t'.push n) id op left right) :
    ∃ links', Climbs ts s least first links' id (t'.push n) := by
  obtain ⟨first', links', hclimbs, hweaker⟩ := hright
  have hpush : Grows t' (t'.push n) := .push t' n
  have hweakest : ∀ link ∈ links, precedence ≤ link.precedence := h.front_le hop
  have hstronger : ∀ link ∈ links', precedence < link.precedence := hclimbs.least_le
  have hall : ∀ link ∈ links ++ ⟨precedence, op, first'⟩ :: links',
      precedence ≤ link.precedence := by
    rw [List.forall_mem_append, List.forall_mem_cons]
    exact ⟨hweakest, Nat.le_refl precedence, fun link hlink => Nat.le_of_lt (hstronger link hlink)⟩
  refine ⟨links ++ ⟨precedence, op, first'⟩ :: links', ?_⟩
  exact {
    reading := hclimbs.reading.step hstep rfl
    shorter := by
      have hnext : t.next.rest.length < t.rest.length := h.reading.length_next
      exact Nat.le_trans hclimbs.shorter (Nat.le_trans (Nat.le_of_lt hnext) h.shorter)
    chain := (h.chain.append hop hclimbs.chain).joined hform
    has := hjoins.has
    grouped := .split hweakest hstronger (h.grouped.grows (hgrows.trans hpush))
      (hclimbs.grouped.grows hpush) hjoins
    least_le := fun link hlink => Nat.le_trans hle (hall link hlink)
    front_le := by
      -- the operator in front ended the chain on the right, so it is not stronger than this one
      intro mark' precedence' op' hfront link hlink
      have hfalls : precedence' ≤ precedence := Nat.le_of_lt_succ (hweaker _ _ _ hfront)
      exact Nat.le_trans hfalls (hall link hlink) }

end ShaderCost.Expression
