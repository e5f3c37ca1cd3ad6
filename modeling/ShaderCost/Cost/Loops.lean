import ShaderCost.Cost.Options
import ShaderCost.Tree.Basic
import Std.Data.TreeMap

/-! # Loop multipliers

An operation runs as often as the loops around it say. Only a test of the form `… < literal` has a
known bound; any other loop counts for nothing. Going down the tree, the bounds are folded into one
active value, and an operation is given that value, or one where it is zero. A loop counts for its
test, its body and its terminal alike.
-/

namespace ShaderCost

/-- Whether the bound of a loop is known. -/
inductive BoundKind where
  | unknown
  | constant
  deriving DecidableEq, Repr, Inhabited

namespace BoundKind

def all : List BoundKind := [unknown, constant]

def name : BoundKind → String
  | unknown => "unknown"
  | constant => "constant"

end BoundKind

/-- How often a loop runs, as far as its test shows. Negative bounds count as zero. -/
def loopBound (t : Tree) (parts : LoopParts) : Nat × BoundKind :=
  match parts.test with
  | none => (0, .unknown)
  | some id =>
    let test := t.node id
    match test.right? with
    | none => (0, .unknown)
    | some right =>
      match (t.node right).constant? with
      | some (.int bound) =>
        if test.kind == .binary && test.op == .lessThan then (bound.toNat, .constant)
        else (0, .unknown)
      | _ => (0, .unknown)

/-- What is known of one loop: its depth counts the loop itself, and the multiplier is that of the
operations directly inside it. -/
structure LoopFact (α : Type) where
  line : Int
  bound : Nat
  kind : BoundKind
  depth : Nat
  multiplier : α
  deriving DecidableEq, Repr, Inhabited

/-- What a node inherits from the loops around it. -/
structure Nesting (α : Type) where
  active : α
  depth : Nat
  deriving DecidableEq, Repr, Inhabited

namespace Nesting

variable {α : Type} [Tally α]

/-- Outside all loops. -/
def outside : Nesting α := ⟨Tally.zero, 0⟩

/-- The nesting below a node: one loop deeper below a loop, the same below any other. -/
def below (t : Tree) (policy : NestingPolicy) (s : Nesting α) (id : NodeId) : Nesting α :=
  match (t.node id).form with
  | .loop parts =>
    ⟨policy.combine s.active (Tally.ofNat (loopBound t parts).1), s.depth + 1⟩
  | _ => s

/-- How often an operation at this place runs. -/
def multiplier (s : Nesting α) : α := if Tally.isZero s.active then Tally.one else s.active

end Nesting

/-- The multipliers of operations, and what is known of the loops. -/
structure LoopCosts (α : Type) where
  multipliers : Std.TreeMap NodeId α := ∅
  loops : Std.TreeMap NodeId (LoopFact α) := ∅

namespace LoopCosts

variable {α : Type} [Tally α]

/-- Records a visited node; a node visited again is recorded anew. -/
def record (t : Tree) (policy : NestingPolicy) (costs : LoopCosts α)
    (visit : NodeId × Nesting α) : LoopCosts α :=
  let (id, s) := visit
  let n := t.node id
  match n.form with
  | .loop parts =>
    let (bound, kind) := loopBound t parts
    let inner := s.below t policy id
    let fact := { line := n.line, bound, kind, depth := inner.depth, multiplier := inner.multiplier }
    { costs with loops := costs.loops.insert id fact }
  | _ =>
    if n.isOperation then { costs with multipliers := costs.multipliers.insert id s.multiplier }
    else costs

def ofTree (t : Tree) (policy : NestingPolicy) : LoopCosts α :=
  (t.walk (Nesting.below t policy) Nesting.outside).foldl (record t policy) {}

/-- The multiplier of a node; nodes without one count for nothing. -/
def multiplier (costs : LoopCosts α) (id : NodeId) : α := costs.multipliers.getD id Tally.zero

end LoopCosts

end ShaderCost
