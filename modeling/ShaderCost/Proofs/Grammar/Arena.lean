import ShaderCost.Proofs.Grammar.Items
import ShaderCost.Proofs.Grammar.ShaderSteps

/-! # The arena of a shader is a tree

Links of the arena are followed through `Node.children`, which looks at the parts of a loop in place
of its operands. The loops that are read have no operands, so that nothing is passed over
(`Tree.ofTokens_references`), and what holds of the links holds of all references.

A walk is given the number of nodes as its depth. In a tree the numbers fall along every path, so
the depth is never reached and any greater one gives the same walk (`postOrderFrom_depth`,
`walkFrom_depth`): the recursion ends by itself.
-/

namespace ShaderCost

/-! ## References -/

/-- The nodes that only a loop refers to. -/
def NodeForm.parts : NodeForm → List NodeId
  | loop parts => parts.children
  | _ => []

/-- All nodes that a node refers to. -/
def Node.references (n : Node) : List NodeId := n.operands ++ n.form.parts

theorem Node.references_eq {n : Node} (h : ∀ parts, n.form = .loop parts → n.operands = []) :
    n.references = n.children := by
  unfold references children
  cases hform : n.form with
  | loop parts => rw [h parts hform, List.nil_append, NodeForm.parts]
  | _ => exact List.append_nil _

theorem Makes.operands_of_loop {s : ParserState} {n : Node} (hn : Makes s n) {parts : LoopParts}
    (hform : n.form = .loop parts) : n.operands = [] := by
  cases hn with
  | loop _ => rfl
  | builtin _ _ _ _ =>
    simp only at hform
    split at hform <;> cases hform
  | _ => cases hform

theorem Steps.operands_of_loop {s s' : ParserState} (h : Steps s s')
    (hs : ∀ id parts, (s.node id).form = .loop parts → (s.node id).operands = []) :
    ∀ id parts, (s'.node id).form = .loop parts → (s'.node id).operands = [] := by
  induction h with
  | refl => exact hs
  | tail _ hstep ih =>
    cases hstep with
    | node hn _ =>
      intro id parts hform
      rw [ParserState.node_push] at hform ⊢
      split at hform
      · next hid =>
        rw [if_pos hid]
        exact hn.operands_of_loop hform
      · next hid =>
        rw [if_neg hid]
        exact ih id parts hform
    | _ => exact ih

theorem Tree.ofTokens_references {tokens : List Token} {t : Tree}
    (h : Tree.ofTokens tokens = .ok t) (id : NodeId) : (t.node id).references = t.children id := by
  obtain ⟨root, s, -, rfl, hsteps⟩ := Tree.ofTokens_steps h
  exact Node.references_eq (Steps.operands_of_loop hsteps (fun _ _ hform => nomatch hform) id)

/-! ## Depth -/

namespace Tree

variable {t : Tree}

namespace IsTree

theorem postOrderFrom_depth (h : t.IsTree) {depth depth' : Nat} {id : NodeId} (hid : id < depth)
    (hid' : id < depth') : t.postOrderFrom depth id = t.postOrderFrom depth' id := by
  induction depth generalizing depth' id with
  | zero => exact absurd hid (Nat.not_lt_zero id)
  | succ depth ih =>
    cases depth' with
    | zero => exact absurd hid' (Nat.not_lt_zero id)
    | succ depth' =>
      unfold postOrderFrom
      congr 1
      exact List.flatMap_congr fun c hc => ih (h.child_lt hc hid) (h.child_lt hc hid')

theorem walkFrom_depth (h : t.IsTree) {σ : Type} (down : σ → NodeId → σ) {depth depth' : Nat}
    (inherited : σ) {id : NodeId} (hid : id < depth) (hid' : id < depth') :
    t.walkFrom down depth inherited id = t.walkFrom down depth' inherited id := by
  induction depth generalizing depth' inherited id with
  | zero => exact absurd hid (Nat.not_lt_zero id)
  | succ depth ih =>
    cases depth' with
    | zero => exact absurd hid' (Nat.not_lt_zero id)
    | succ depth' =>
      unfold walkFrom
      congr 1
      exact List.flatMap_congr fun c hc => ih _ (h.child_lt hc hid) (h.child_lt hc hid')

theorem lt_size_of_reachable (h : t.IsTree) {id : NodeId} (hid : t.Reachable id) : id < t.size := by
  obtain ⟨root, hroot, hlast⟩ := h.root_last
  obtain ⟨root', hroot', hreaches⟩ := hid
  obtain rfl : root = root' := Option.some.inj (hroot.symm.trans hroot')
  rw [← hlast]
  exact Nat.lt_succ_of_le (h.le_of_reaches hreaches)

/-- With any depth that is at least the number of nodes, a walk is the same. -/
theorem walks_depth (h : t.IsTree) {root depth : Nat} (hroot : t.root = some root)
    (hdepth : t.size ≤ depth) : t.postOrderFrom depth root = t.postOrder ∧
      ∀ {σ : Type} (down : σ → NodeId → σ) (start : σ),
        t.walkFrom down depth start root = t.walk down start := by
  obtain ⟨root', hroot', hlast⟩ := h.root_last
  obtain rfl : root = root' := Option.some.inj (hroot.symm.trans hroot')
  have hsize : root < t.size := hlast ▸ Nat.lt_succ_self root
  have hlt : root < depth := Nat.lt_of_lt_of_le hsize hdepth
  unfold postOrder walk
  rw [hroot]
  exact ⟨h.postOrderFrom_depth hlt hsize, fun down start => h.walkFrom_depth down start hlt hsize⟩

end IsTree

end Tree

/-- The arena of a shader that is read is a tree with the root as its last node: all references go
to earlier nodes, and no node is referred to twice. So walks end, stay in the arena, and visit each
reachable node once. -/
theorem parsed_arena_is_tree {source : Bytes} {t : Tree} (h : Tree.ofSource source = .ok t) :
    (∃ root, t.root = some root ∧ root + 1 = t.size ∧
      -- the depth of a walk is no limit
      ∀ depth, t.size ≤ depth → t.postOrderFrom depth root = t.postOrder ∧
        ∀ {σ : Type} (down : σ → NodeId → σ) (start : σ),
          t.walkFrom down depth start root = t.walk down start) ∧
    (∀ id < t.size, ∀ c ∈ (t.node id).references, c < id) ∧
    (∀ id < t.size, (t.node id).references.Nodup) ∧
    (∀ p < t.size, ∀ q < t.size, ∀ c ∈ (t.node p).references, c ∈ (t.node q).references → p = q) ∧
    t.postOrder.Nodup ∧
    (∀ id, id ∈ t.postOrder ↔ t.Reachable id) ∧
    (∀ id ∈ t.postOrder, id < t.size) ∧
    ∀ {σ : Type} (down : σ → NodeId → σ) (start : σ),
      ((t.walk down start).map Prod.fst).Perm t.postOrder := by
  have ht : t.IsTree := Tree.ofTokens_isTree h
  have href : ∀ id, (t.node id).references = t.children id := Tree.ofTokens_references h
  refine ⟨?_, ?_, ?_, ?_, ht.nodup_postOrder, fun _ => ht.mem_postOrder, ?_, t.walk_perm⟩
  · obtain ⟨root, hroot, hlast⟩ := ht.root_last
    exact ⟨root, hroot, hlast, fun _ hdepth => ht.walks_depth hroot hdepth⟩
  · intro id _ c hc
    rw [href] at hc
    exact ht.down id c hc
  · intro id _
    rw [href]
    exact ht.nodup_children id
  · intro p _ q _ c hp hq
    rw [href] at hp hq
    exact ht.parent_unique hp hq
  · exact fun id hid => ht.lt_size_of_reachable (ht.mem_postOrder.1 hid)

/-- A loop, a constant that is folded, an array size and a sign before a literal. -/
def abandonedNodes : Bytes :=
  Bytes.ofString "const int N = 2; void main() {int a[N]; while (a[0] < N) (a[1])++ + -1;}"

theorem parsed_arena_abandonedNodes : ∃ t, Tree.ofSource abandonedNodes = .ok t ∧
    t.postOrder.length < t.size ∧ t.postOrder.Nodup ∧ (∀ id ∈ t.postOrder, id < t.size) := by
  let t : Tree := (Tree.ofSource abandonedNodes).toOption.getD .empty
  have heval : (Tree.ofSource abandonedNodes).isOk = true ∧ t.postOrder.length < t.size := by
    decide +kernel
  have hsource : Tree.ofSource abandonedNodes = .ok t := Tree.ofSource_of_isOk heval.1
  have htree := parsed_arena_is_tree hsource
  exact ⟨t, hsource, heval.2, htree.2.2.2.2.1, htree.2.2.2.2.2.2.1⟩

end ShaderCost
