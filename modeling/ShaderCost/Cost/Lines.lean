import ShaderCost.Cost.Invocations

/-! # Costs of lines

A counted operation costs its width times its multiplier times the count of the function it belongs
to, on the line where it stands. A call adds nothing there, but its line is listed: the cost lands on
the lines of the function that is called.
-/

namespace ShaderCost

/-- Costs by line number. -/
abbrev LineTable (α : Type) := Std.TreeMap Int α

namespace LineTable

variable {α : Type} [Tally α]

/-- What an operation contributes to its line. -/
def contribution (widths : Widths) (loops : LoopCosts α) (g : CallGraph) (counts : Invocations α)
    (id : NodeId) : α :=
  Tally.mul (placeCost widths loops id) (counts.count (g.owner id))

/-- Adds a visited node to its line. -/
def record (t : Tree) (cost : NodeId → α) (lines : LineTable α) (id : NodeId) : LineTable α :=
  let n := t.node id
  if !n.isOperation || !n.isCounted then lines
  else if n.isCall then lines.insertIfNew n.line Tally.zero
  else lines.insert n.line (Tally.add (lines.getD n.line Tally.zero) (cost id))

def ofTree (t : Tree) (widths : Widths) (loops : LoopCosts α) (g : CallGraph)
    (counts : Invocations α) : LineTable α :=
  t.postOrder.foldl (record t (contribution widths loops g counts)) ∅

/-- The sum of costs, from the entries in any order. -/
def total (entries : List (Int × α)) : α :=
  entries.foldl (fun sum (_, cost) => Tally.add sum cost) Tally.zero

end LineTable

end ShaderCost
