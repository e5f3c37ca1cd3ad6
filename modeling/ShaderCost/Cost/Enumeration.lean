import ShaderCost.Cost.CallGraph

/-! # Orders of enumeration

A table has no order of its own, and whoever goes through one may meet its entries in any order. An
`Enumeration` chooses an order at each place where the analysis goes through a table: those of the
call graph, of the owners of operations, of the costs of functions and of lines. Unless others are
asked for, the orders are those in which the entries are stored.
-/

namespace ShaderCost

/-- One order in which the entries of a table may come. -/
structure Listing (α : Type) where
  list : List α → List α
  perm : ∀ entries, (list entries).Perm entries

namespace Listing

variable {α : Type}

def stored : Listing α := ⟨id, List.Perm.refl⟩

def reversed : Listing α := ⟨List.reverse, List.reverse_perm⟩

@[simp]
theorem list_stored (entries : List α) : stored.list entries = entries := rfl

end Listing

/-- An order for each place where the analysis goes through a table. -/
structure Enumeration (α : Type) where
  /-- The functions, where their raw costs start from zero. -/
  functionKeys : Listing String := .stored
  /-- The operations with their owners, where raw costs are summed. -/
  owners : Listing (NodeId × String) := .stored
  /-- The costs of functions, where they are copied to be set aside as raw; `none` sets the table
  itself aside. -/
  rawCosts : Option (Listing (String × α)) := none
  /-- The functions, where those that call are told from those that do not. -/
  functions : Listing (String × FunctionInfo) := .stored
  /-- The functions, where the leaves that they call are collected. -/
  calls : Listing (String × FunctionInfo) := .stored
  /-- The lines, where their costs are summed. -/
  total : Listing (Int × α) := .stored
  /-- The lines, where the greatest cost is sought. -/
  largest : Listing (Int × α) := .stored
  /-- The lines, where their numbers are listed. -/
  lines : Listing (Int × α) := .stored
  /-- The costs of functions, where functions are summarised. -/
  summaries : Listing (String × α) := .stored

end ShaderCost
