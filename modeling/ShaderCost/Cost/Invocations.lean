import ShaderCost.Cost.Resolution

/-! # Invocation counts

How often a function runs, relative to one run of the shader. A function that nobody calls runs once;
a call site contributes its multiplier times the count of its caller. Functions are processed from
callers to callees, so that a count is complete before it is passed on: this is the reverse of the
order in which costs settle.
-/

namespace ShaderCost

/-- Keeps the first occurrence of each key that is not among those `seen`. -/
def firstOccurrences (seen : List String) : List String → List String
  | [] => []
  | key :: rest =>
    if seen.contains key then firstOccurrences seen rest
    else key :: firstOccurrences (key :: seen) rest

/-- The callees that call nothing, in ascending order, from the entries of the graph in any order. -/
def calledLeaves (g : CallGraph) (entries : List (String × FunctionInfo)) : List String :=
  let callees := entries.flatMap fun (_, info) => info.callSites.map (·.callee)
  sortKeys (firstOccurrences [] (callees.filter fun key => (g.callSites key).isEmpty))

section

variable {α : Type} [Tally α]

/-- Every function that calls or is called, callees before their settled callers: first those that
call nothing, then the callers in the order they settled, then those that never did. -/
def processingOrder (g : CallGraph) (r : Resolution α) (e : Enumeration α := {}) : List String :=
  let leaves := calledLeaves g (e.calls.list g.functions.toList)
  let settled := firstOccurrences leaves r.order
  leaves ++ settled ++ sortKeys (firstOccurrences (leaves ++ settled) g.callers)

/-- Counts by function; a missing count is one. -/
abbrev Invocations (α : Type) := FunctionTable α

namespace Invocations

def count (counts : Invocations α) (key : String) : α := counts.getD key Tally.one

/-- Fixes the count of a function and passes it on to what it calls. -/
def process (g : CallGraph) (loops : LoopCosts α) (counts : Invocations α) (key : String) :
    Invocations α :=
  match g.functions[key]? with
  | none => counts
  | some info =>
    let own := counts.count key
    info.callSites.foldl
      (fun counts site =>
        FunctionTable.add counts site.callee (Tally.mul (loops.multiplier site.node) own))
      (counts.insert key own)

def ofGraph (g : CallGraph) (loops : LoopCosts α) (r : Resolution α) (e : Enumeration α := {}) :
    Invocations α :=
  (processingOrder g r e).reverse.foldl (process g loops) ∅

end Invocations

end

end ShaderCost
