import ShaderCost.Tree.Node

/-! # Trees

A tree is an arena of nodes with an optional root. Links may be shared, and nodes need not be
reachable; the walks below only assume that links do not run in a circle. A path that never returns
to a node it has left visits each node at most once, so the number of nodes bounds the depth of
every walk.
-/

namespace ShaderCost

structure Tree where
  nodes : Array Node
  root : Option NodeId
  deriving DecidableEq, Repr, Inhabited

namespace Tree

def empty : Tree := ⟨#[], none⟩

/-- The node with the given number; a number without a node stands for a blank node. -/
def node (t : Tree) (id : NodeId) : Node := t.nodes.getD id default

def size (t : Tree) : Nat := t.nodes.size

/-- The nodes visited below a node, in order. -/
def children (t : Tree) (id : NodeId) : List NodeId := (t.node id).children

/-- The nodes at or below `id`, children before parents, to the given depth. -/
def postOrderFrom (t : Tree) : Nat → NodeId → List NodeId
  | 0, _ => []
  | depth + 1, id => (t.children id).flatMap (t.postOrderFrom depth) ++ [id]

/-- The nodes reachable from the root, children before parents; a shared node occurs once for each
path to it. -/
def postOrder (t : Tree) : List NodeId :=
  match t.root with
  | none => []
  | some root => t.postOrderFrom t.size root

/-- The nodes at or below `id`, parents before children, each with what it inherits from above:
`down s n` is what the children of `n` inherit when `n` itself has inherited `s`. -/
def walkFrom {σ : Type} (t : Tree) (down : σ → NodeId → σ) :
    Nat → σ → NodeId → List (NodeId × σ)
  | 0, _, _ => []
  | depth + 1, inherited, id =>
    (id, inherited) :: (t.children id).flatMap (t.walkFrom down depth (down inherited id))

/-- The nodes reachable from the root, parents before children, with what they inherit. -/
def walk {σ : Type} (t : Tree) (down : σ → NodeId → σ) (start : σ) : List (NodeId × σ) :=
  match t.root with
  | none => []
  | some root => t.walkFrom down t.size start root

end Tree

end ShaderCost
