import ShaderCost.Cost.Enumeration
import ShaderCost.Cost.Loops
import ShaderCost.Cost.Width
import Std.Data.TreeSet

/-! # Costs of functions

The raw cost of a function sums width times multiplier over its own operations. A function without
call sites is settled at once; a caller settles when all its callees have, and then takes over their
costs, once for each call site. Rounds over the callers in ascending order of their keys repeat until
one settles nothing; what is left then runs into a circle of calls, one of which a depth-first search
finds.
-/

namespace ShaderCost

/-- Keys in ascending order. -/
def sortKeys (keys : List String) : List String := keys.mergeSort fun a b => a ≤ b

/-- Numbers by function, one for each key that is there. -/
abbrev FunctionTable (α : Type) := Std.TreeMap String α

section

variable {α : Type} [Tally α]

namespace FunctionTable

/-- Adds to the entry of a key, which counts as zero when it is missing. -/
def add (table : FunctionTable α) (key : String) (amount : α) : FunctionTable α :=
  table.insert key (Tally.add (table.getD key Tally.zero) amount)

/-- Makes an entry of zero unless there is one. -/
def touch (table : FunctionTable α) (key : String) : FunctionTable α :=
  table.insertIfNew key Tally.zero

end FunctionTable

/-- What one operation costs where it stands. -/
def placeCost (widths : Widths) (loops : LoopCosts α) (id : NodeId) : α :=
  Tally.mul (Tally.ofNat (widths.getD id 0)) (loops.multiplier id)

/-- The raw costs, from the keys of the call graph and the operations with their owners, both in any
order. -/
def rawCosts (widths : Widths) (loops : LoopCosts α) (keys : List String)
    (owned : List (NodeId × String)) : FunctionTable α :=
  owned.foldl (fun table (id, key) => table.add key (placeCost widths loops id))
    (keys.foldl FunctionTable.touch ∅)

/-- The costs as they are set aside. -/
def Enumeration.setAside (e : Enumeration α) (costs : FunctionTable α) : FunctionTable α :=
  match e.rawCosts with
  | none => costs
  | some listing => .ofList (listing.list costs.toList)

/-- How far the costs have settled: the costs so far, the settled functions, and the callers among
them in the order they settled. -/
structure Resolution (α : Type) where
  raw : FunctionTable α := ∅
  costs : FunctionTable α := ∅
  resolved : Std.TreeSet String := ∅
  order : List String := []

namespace Resolution

def isResolved (r : Resolution α) (key : String) : Bool := r.resolved.contains key

/-- Whether everything that a function calls has settled. -/
def isReady (r : Resolution α) (g : CallGraph) (key : String) : Bool :=
  (g.callees key).all r.isResolved

/-- Settles a caller if that is possible now. -/
def settle (g : CallGraph) (r : Resolution α) (caller : String) : Resolution α :=
  if r.isResolved caller || !r.isReady g caller then r
  else
    let take := fun (costs : FunctionTable α) (callee : String) =>
      costs.add caller (costs.getD callee Tally.zero)
    { r with
      costs := (g.callees caller).foldl take r.costs
      resolved := r.resolved.insert caller
      order := r.order ++ [caller] }

/-- Repeats rounds over the callers until one settles nothing, at most as often as allowed. -/
def rounds (g : CallGraph) (callers : List String) : Nat → Resolution α → Resolution α
  | 0, r => r
  | limit + 1, r =>
    let after := callers.foldl (settle g) r
    if after.order.length == r.order.length then after else rounds g callers limit after

/-- The functions with call sites, in ascending order, from the entries of the graph in any order. -/
def callersOf (entries : List (String × FunctionInfo)) : List String :=
  sortKeys ((entries.filter fun (_, info) => !info.callSites.isEmpty).map (·.1))

/-- The functions without call sites, from the entries of the graph in any order. -/
def leavesOf (entries : List (String × FunctionInfo)) : List String :=
  (entries.filter fun (_, info) => info.callSites.isEmpty).map (·.1)

/-- Before the first round: every function at its raw cost, those without call sites settled. -/
def start (g : CallGraph) (widths : Widths) (loops : LoopCosts α) (e : Enumeration α := {}) :
    Resolution α :=
  let costs := rawCosts widths loops (e.functionKeys.list g.functions.keys)
    (e.owners.list g.owners.toList)
  { raw := e.setAside costs
    costs
    resolved := (leavesOf (e.functions.list g.functions.toList)).foldl (·.insert ·) ∅ }

/-- The costs of all functions as far as they settle. Each round that goes on settles a caller, so one
round more than there are callers is enough. -/
def ofGraph (g : CallGraph) (widths : Widths) (loops : LoopCosts α) (e : Enumeration α := {}) :
    Resolution α :=
  let callers := callersOf (e.functions.list g.functions.toList)
  rounds g callers (callers.length + 1) (start g widths loops e)

/-- The callers that never settled, in ascending order. -/
def unresolved (r : Resolution α) (g : CallGraph) (e : Enumeration α := {}) : List String :=
  (callersOf (e.functions.list g.functions.toList)).filter fun key => !r.isResolved key

end Resolution

/-! ## Circles of calls -/

namespace Cycle

/-- The part of a path from `key` on, closed by `key` itself. -/
def close (path : List String) (key : String) : List String :=
  path.dropWhile (· != key) ++ [key]

/-- The functions met so far, and the circle once it is found. -/
structure Search where
  visited : Std.TreeSet String := ∅
  found : Option (List String) := none

/-- Searches below `key`, which is reached by `path`, to the given depth; `next` gives the functions
to go on with, in order. -/
def searchBelow (next : String → List String) : Nat → List String → Search → String → Search
  | 0, _, s, _ => s
  | depth + 1, path, s, key =>
    let path := path ++ [key]
    let visit := fun (s : Search) (callee : String) =>
      match s.found with
      | some _ => s
      | none =>
        if path.contains callee then { s with found := some (close path callee) }
        else if s.visited.contains callee then s
        else searchBelow next depth path s callee
    (next key).foldl visit { s with visited := s.visited.insert key }

/-- A circle of calls among functions that never settled. -/
def find (g : CallGraph) (isResolved : String → Bool) (unresolved : List String) : List String :=
  let next := fun key => (g.callees key).filter fun callee => !isResolved callee
  let visit := fun (s : Search) (key : String) =>
    match s.found with
    | some _ => s
    | none =>
      if s.visited.contains key then s
      else searchBelow next (g.functions.size + 1) [] s key
  ((unresolved.foldl visit {}).found).getD unresolved

end Cycle

/-- A circle of calls, by the keys of its functions; the first is also the last. -/
structure RecursionError where
  cycle : List String
  deriving DecidableEq, Repr, Inhabited

def RecursionError.message (e : RecursionError) : String :=
  "recursion unsupported: " ++ String.intercalate " -> " e.cycle

namespace Resolution

/-- The circle that keeps costs from settling, where the mode calls for one. -/
def failure? (r : Resolution α) (g : CallGraph) (mode : RecursionMode) (e : Enumeration α := {}) :
    Option RecursionError :=
  let unresolved := r.unresolved g e
  if unresolved.isEmpty || mode == .keep then none
  else some ⟨Cycle.find g r.isResolved unresolved⟩

end Resolution

end

end ShaderCost
