import ShaderCost.Proofs.Grammar.Items

/-! # Where nodes hang

The nodes that a run below the top level makes are linked among themselves only, so what is reached
from one of them is one of them (`Runs.reaches_new`). Those that are neither literals nor symbols
hang below what the run leaves at hand (`Runs.hangs`); in particular the header of a function, which
leaves nothing, makes no other nodes.

So a node that is no leaf is made by an item that is no function, or in the body of a definition, or
is the node of the definition itself (`Item.made`).
-/

namespace ShaderCost

/-! ## Leaves -/

theorem Makes.leaf_children {s : ParserState} {n : Node} (h : Makes s n) (hleaf : n.isLeaf = true) :
    n.children = [] := by
  cases h with
  | builtin _ _ _ _ =>
    exfalso
    revert hleaf
    unfold Node.isLeaf Node.kind
    dsimp only
    split <;> simp [NodeForm.kind]
  | _ => first | rfl | (simp [Node.isLeaf, Node.kind, NodeForm.kind] at hleaf)

/-- Literals and symbols have no children. -/
theorem Steps.leaf_children {s s' : ParserState} (h : Steps s s')
    (hs : ∀ id, s.Has id → (s.node id).isLeaf = true → (s.node id).children = []) :
    ∀ id, s'.Has id → (s'.node id).isLeaf = true → (s'.node id).children = [] := by
  induction h with
  | refl => exact hs
  | @tail s₁ s₂ _ hstep ih =>
    cases hstep with
    | @node n hn _ =>
      intro id hid
      rw [s₁.node_push]
      split
      · exact hn.leaf_children
      · next hne => exact ih id (((s₁.has_push_iff n).1 hid).resolve_right hne)
    | _ => exact ih

/-! ## Runs in the tree of a shader -/

theorem Tree.Includes.before {t : Tree} {s s' : ParserState} (h : t.Includes s')
    (hs : Grows s s') : t.Includes s where
  lt_size hid := h.lt_size (hs.has hid)
  node_eq hid := (h.node_eq (hs.has hid)).trans (hs.node_eq hid)

theorem Tree.Includes.congr {t : Tree} {s s' : ParserState} (h : t.Includes s')
    (hnodes : s.nodes = s'.nodes) : t.Includes s := by
  have hnode : ∀ id, s.node id = s'.node id := fun id => by
    unfold ParserState.node
    rw [hnodes]
  have hhas : ∀ {id}, s.Has id → s'.Has id := fun {id} hid => by
    unfold ParserState.Has at hid ⊢
    rwa [← hnodes]
  exact ⟨fun hid => h.lt_size (hhas hid), fun hid => (h.node_eq (hhas hid)).trans (hnode _).symm⟩

/-- A tree whose literals and symbols have no children. -/
structure Tree.Leafy (t : Tree) : Prop extends t.IsTree where
  leaf_children : ∀ id, (t.node id).isLeaf = true → t.children id = []

namespace Runs

variable {t : Tree} {a b : ParserState} {held : List NodeId} {id x : NodeId}

theorem stretch (h : Runs a b held) : Stretch a.nodes.size b.nodes held :=
  h.moves.stretch (.start a.nodes)

theorem not_function (h : Runs a b held) (hid : ¬ a.Has id) (hid' : b.Has id) :
    (b.node id).kind ≠ .function := h.stretch.not_function id (Nat.le_of_not_lt hid) hid'

/-- New nodes lead to new nodes. -/
theorem reaches_new (h : Runs a b held) (ht : t.IsTree) (hb : t.Includes b) (hid : ¬ a.Has id)
    (hid' : b.Has id) (hx : t.Reaches id x) : ¬ a.Has x ∧ b.Has x := by
  induction hx with
  | refl => exact ⟨hid, hid'⟩
  | @tail x c _ hc ih =>
    obtain ⟨hx, hx'⟩ := ih
    have hc' : c ∈ (b.nodes.getD x default).children := by
      have hmem : c ∈ (t.node x).children := hc
      rwa [hb.node_eq hx'] at hmem
    refine ⟨Nat.not_lt.2 (h.stretch.links_ge x (Nat.le_of_not_lt hx) c hc'), ?_⟩
    exact Nat.lt_trans (ht.down x c hc) hx'

/-- New nodes hang below those at hand. -/
theorem hangs (h : Runs a b held) (ht : t.Leafy) (hb : t.Includes b) (hid : ¬ a.Has id)
    (hid' : b.Has id) (hleaf : (t.node id).isLeaf = false) : ∃ top ∈ held, t.Reaches top id := by
  -- upwards: the parent of a node is later and has a child, so it is no leaf
  induction hn : b.nodes.size - id using Nat.strongRecOn generalizing id with
  | ind n ih =>
    have hleaf' : (b.nodes.getD id default).isLeaf = false := by
      rwa [hb.node_eq hid'] at hleaf
    rcases h.stretch.hangs id (Nat.le_of_not_lt hid) hid' hleaf' with hheld | ⟨parent, hparent⟩
    · exact ⟨id, hheld, .refl⟩
    have hhas : b.Has parent := by
      by_contra hnot
      have hdefault : b.node parent = default := ParserState.node_of_not_has hnot
      have hmem : id ∈ (b.node parent).children := hparent
      rw [hdefault] at hmem
      cases hmem
    have hchild : id ∈ t.children parent := by
      unfold Tree.children
      rw [hb.node_eq hhas]
      exact hparent
    have hlt : id < parent := ht.down parent id hchild
    have hnew : ¬ a.Has parent := fun hold => hid (Nat.lt_trans hlt hold)
    have hnode : (t.node parent).isLeaf = false := by
      by_contra hleaf
      rw [ht.leaf_children parent (by simpa using hleaf)] at hchild
      cases hchild
    have hsmaller : b.nodes.size - parent < n := by
      rw [← hn]
      exact Nat.sub_lt_sub_left hid' hlt
    obtain ⟨top, htop, hreaches⟩ := ih _ hsmaller hnew hhas hnode rfl
    exact ⟨top, htop, hreaches.tail hchild⟩

/-- A run that leaves nothing at hand makes literals and symbols only. -/
theorem leaf (h : Runs a b []) (ht : t.Leafy) (hb : t.Includes b) (hid : ¬ a.Has id)
    (hid' : b.Has id) : (t.node id).isLeaf = true := by
  by_contra hleaf
  obtain ⟨top, htop, -⟩ := h.hangs ht hb hid hid' (by simpa using hleaf)
  cases htop

end Runs

theorem Heads.leaf {t : Tree} {s s' : ParserState} {header decl : FunctionDecl} {id : NodeId}
    (h : Heads s header decl s') (ht : t.Leafy) (hs' : t.Includes s') (hid : ¬ s.Has id)
    (hid' : s'.Has id) : (t.node id).isLeaf = true := by
  obtain ⟨hrun, -, -, hdeclares⟩ := h
  have hnodes := hdeclares.nodes_eq.1
  unfold ParserState.Has at hid'
  rw [hnodes] at hid'
  exact hrun.leaf ht (hs'.congr hnodes.symm) hid hid'

namespace Definition

variable {t : Tree} {s s₁ s₂ : ParserState} {header : FunctionDecl} {n : Node} {id x : NodeId}

theorem includes_body (h : Definition s header s₁ s₂ n) (hs : t.Includes (s₂.push n).closed) :
    t.Includes s₂ ∧ t.Includes s₁ := by
  obtain ⟨list, body, hbody, -⟩ := h.body
  have hs₂ : t.Includes s₂ := hs.before ((Grows.push s₂ n).trans Step.closes.grows)
  exact ⟨hs₂, hs₂.before ((Step.defined _ _).grows.trans hbody.steps.grows)⟩

theorem node_eq (hs : t.Includes (s₂.push n).closed) : t.node s₂.nodes.size = n := by
  rw [hs.node_eq (s₂.has_push n)]
  exact s₂.node_push_size n

/-- What is not a leaf belongs to the body, or is the node of the definition. -/
theorem cases (h : Definition s header s₁ s₂ n) (ht : t.Leafy)
    (hs : t.Includes (s₂.push n).closed) (hid : ¬ s.Has id) (hid' : (s₂.push n).closed.Has id)
    (hleaf : (t.node id).isLeaf = false) : id = s₂.nodes.size ∨ ¬ s₁.Has id ∧ s₂.Has id := by
  rcases (s₂.has_push_iff n).1 hid' with hid' | rfl
  · refine Or.inr ⟨fun hhead => ?_, hid'⟩
    obtain ⟨decl, hheads, -⟩ := h.head
    have hall := hheads.leaf ht (h.includes_body hs).2 hid hhead
    rw [hleaf] at hall
    cases hall
  · exact Or.inl rfl

/-- The body hangs below the node of the definition. -/
theorem reaches (h : Definition s header s₁ s₂ n) (ht : t.Leafy)
    (hs : t.Includes (s₂.push n).closed) (hid : ¬ s₁.Has id) (hid' : s₂.Has id)
    (hleaf : (t.node id).isLeaf = false) : t.Reaches s₂.nodes.size id := by
  obtain ⟨list, body, hbody, hchildren⟩ := h.body
  obtain ⟨top, htop, hreaches⟩ := hbody.hangs ht (h.includes_body hs).1 hid hid' hleaf
  refine .head ?_ hreaches
  unfold Tree.children
  rw [node_eq hs, hchildren]
  exact (List.Perm.swap body list []).mem_iff.2 htop

/-- Below the node of the definition there is its body. -/
theorem reaches_cases (h : Definition s header s₁ s₂ n) (ht : t.Leafy)
    (hs : t.Includes (s₂.push n).closed) (hx : t.Reaches s₂.nodes.size x) :
    x = s₂.nodes.size ∨ ¬ s₁.Has x ∧ s₂.Has x := by
  obtain ⟨list, body, hbody, hchildren⟩ := h.body
  rcases Tree.reaches_iff.1 hx with rfl | ⟨c, hc, hx⟩
  · exact Or.inl rfl
  have hlt : s₂.Has c := ht.down _ c hc
  have hheld : c ∈ [body, list] := by
    unfold Tree.children at hc
    rw [node_eq hs, hchildren] at hc
    exact (List.Perm.swap body list []).mem_iff.1 hc
  have hnew : ¬ s₁.Has c := Nat.not_lt.2 (hbody.stretch.held_ge c hheld)
  exact Or.inr (hbody.reaches_new ht.toIsTree (h.includes_body hs).1 hnew hlt hx)

/-- No function is defined in the body. -/
theorem not_function (h : Definition s header s₁ s₂ n) (hs : t.Includes (s₂.push n).closed)
    (hx : ¬ s₁.Has x) (hx' : s₂.Has x) : (t.node x).kind ≠ .function := by
  obtain ⟨list, body, hbody, -⟩ := h.body
  rw [(h.includes_body hs).1.node_eq hx']
  exact hbody.not_function hx hx'

theorem size_le (h : Definition s header s₁ s₂ n) :
    s.nodes.size ≤ s₁.nodes.size ∧ s₁.nodes.size ≤ s₂.nodes.size := by
  obtain ⟨⟨decl, ⟨hrun, -, -, hdeclares⟩, -⟩, ⟨list, body, hbody, -⟩, -, -, -⟩ := h
  rw [hdeclares.nodes_eq.1]
  refine ⟨hrun.steps.grows.size_le, ?_⟩
  rw [← hdeclares.nodes_eq.1]
  exact hbody.steps.grows.size_le

end Definition

/-! ## Items in the tree of a shader -/

/-- A node that is no leaf is made by an item that is no function, or by a definition. -/
theorem Item.made {t : Tree} {s s' : ParserState} {d : Option FunctionDecl} {x : Option NodeId}
    {id : NodeId} (h : Item s d x s') (ht : t.Leafy) (hs' : t.Includes s') (hid : ¬ s.Has id)
    (hid' : s'.Has id) (hleaf : (t.node id).isLeaf = false) :
    (d = none ∧ Runs s s' x.toList) ∨
      ∃ header s₁ s₂ n, d = some header ∧ x = some s₂.nodes.size ∧ s' = (s₂.push n).closed ∧
        Definition s header s₁ s₂ n ∧ (id = s₂.nodes.size ∨ ¬ s₁.Has id ∧ s₂.Has id) := by
  cases h with
  | plain hrun => exact Or.inl ⟨rfl, hrun⟩
  | @prototype header decl s₁ s' hhead hend =>
    have hs₁ : t.Includes s₁ := hs'.before hend.steps.grows
    have hall : (t.node id).isLeaf = true := by
      by_cases hmid : s₁.Has id
      · exact hhead.leaf ht hs₁ hid hmid
      · exact hend.leaf ht hs' hmid hid'
    rw [hleaf] at hall
    cases hall
  | definition h => exact Or.inr ⟨_, _, _, _, rfl, rfl, rfl, h, h.cases ht hs' hid hid' hleaf⟩

/-- Trees that are read from tokens have leaves without children. -/
theorem Tree.ofTokens_leafy {tokens : List Token} {t : Tree} (h : Tree.ofTokens tokens = .ok t) :
    t.Leafy where
  toIsTree := Tree.ofTokens_isTree h
  leaf_children id hleaf := by
    obtain ⟨root, s, -, rfl, hsteps⟩ := Tree.ofTokens_steps h
    by_cases hid : s.Has id
    · exact hsteps.leaf_children (fun id hid => absurd hid (Nat.not_lt_zero _)) id hid hleaf
    · have hdefault : s.node id = default := ParserState.node_of_not_has hid
      have hnode : Tree.node { nodes := s.nodes, root := some root } id = default := hdefault
      unfold Tree.children
      rw [hnode]
      rfl

end ShaderCost
