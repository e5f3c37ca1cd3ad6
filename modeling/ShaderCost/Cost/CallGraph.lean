import ShaderCost.Cost.Options
import ShaderCost.Tree.Basic
import Std.Data.TreeMap

/-! # The call graph

Every operation belongs to the function whose definition stands around it, or to the code outside all
functions. A function is known by its key; with name identity, overloads share one. The graph has an
entry for every function that is defined or called, and for every caller, with its call sites in the
order they are met.
-/

namespace ShaderCost

/-- The key of code outside all functions. -/
def noFunction : String := "(no_function)"

/-- The key of a definition or a call. -/
def FunctionIdentity.key (identity : FunctionIdentity) (n : Node) : String :=
  match identity with
  | .name => n.name
  | .signature => if n.signature.isEmpty then n.name else n.signature

structure CallSite where
  callee : String
  node : NodeId
  line : Int
  deriving DecidableEq, Repr, Inhabited

structure FunctionInfo where
  name : String
  definition : Option NodeId := none
  line : Int := 0
  callSites : List CallSite := []
  deriving DecidableEq, Repr, Inhabited

/-- Functions by key, the functions with call sites in the order they are first met, and the function
to which each operation belongs. -/
structure CallGraph where
  functions : Std.TreeMap String FunctionInfo := ∅
  callers : List String := []
  owners : Std.TreeMap NodeId String := ∅

namespace CallGraph

/-- The entry of a key; one that is missing is named like its key. -/
def info (g : CallGraph) (key : String) : FunctionInfo := g.functions.getD key { name := key }

/-- The call sites of a function. -/
def callSites (g : CallGraph) (key : String) : List CallSite := (g.info key).callSites

/-- The functions that a function calls, once for each call site. -/
def callees (g : CallGraph) (key : String) : List String := (g.callSites key).map (·.callee)

/-- The function to which a node belongs. -/
def owner (g : CallGraph) (id : NodeId) : String := g.owners.getD id noFunction

/-- The key below a node, given the key it inherits. -/
def keyBelow (t : Tree) (identity : FunctionIdentity) (key : String) (id : NodeId) : String :=
  let n := t.node id
  if n.kind == .function then identity.key n else key

/-- Adds a definition. -/
def define (g : CallGraph) (key : String) (id : NodeId) (n : Node) : CallGraph :=
  let entry := { g.info key with name := n.name, definition := some id, line := n.line }
  { g with functions := g.functions.insert key entry }

/-- Adds a call from `caller` to `callee`. -/
def addCall (g : CallGraph) (caller callee : String) (id : NodeId) (n : Node) : CallGraph :=
  let g := { g with functions := g.functions.insert callee { g.info callee with name := n.name } }
  let entry := g.info caller
  { g with
    functions := g.functions.insert caller
      { entry with callSites := entry.callSites ++ [{ callee, node := id, line := n.line }] }
    callers := if entry.callSites.isEmpty then g.callers ++ [caller] else g.callers }

/-- Records a visited node with the key it inherits. -/
def record (t : Tree) (identity : FunctionIdentity) (g : CallGraph) (visit : NodeId × String) :
    CallGraph :=
  let (id, key) := visit
  let n := t.node id
  let g :=
    if n.kind == .function then g.define (identity.key n) id n
    else if n.isCall then g.addCall key (identity.key n) id n
    else g
  if n.isOperation then { g with owners := g.owners.insert id key } else g

def ofTree (t : Tree) (identity : FunctionIdentity) : CallGraph :=
  (t.walk (keyBelow t identity) noFunction).foldl (record t identity) {}

end CallGraph

end ShaderCost
