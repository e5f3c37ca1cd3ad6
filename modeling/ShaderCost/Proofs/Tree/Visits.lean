import Mathlib.Data.List.Nodup
import Mathlib.Data.List.Perm.Basic
import Mathlib.Logic.Relation
import ShaderCost.Tree.Basic

/-! # Visits

A walk goes through an arena by its links, which may be shared and may even run in a circle. Where
the arena is a tree (`Tree.IsTree`) the number of nodes bounds every path, so that a walk visits all
reachable nodes (`mem_postOrder`), and two children of a node never lead to the same node, so that
it visits each of them once (`nodup_postOrder`). A walk from parents to children visits the same
nodes as one from children to parents, in any arena (`walk_perm`).
-/

namespace ShaderCost

/-- All links of an arena. -/
def links (nodes : Array Node) : List NodeId := nodes.toList.flatMap Node.children

namespace Tree

/-- There is a path down from one node to another. -/
def Reaches (t : Tree) : NodeId → NodeId → Prop :=
  Relation.ReflTransGen fun id c => c ∈ t.children id

/-- There is a path down from the root. -/
def Reachable (t : Tree) (id : NodeId) : Prop := ∃ root, t.root = some root ∧ t.Reaches root id

/-- The root comes last, links go to earlier nodes, and no node has two links to it. -/
structure IsTree (t : Tree) : Prop where
  root_last : ∃ root, t.root = some root ∧ root + 1 = t.size
  down : ∀ id, ∀ c ∈ t.children id, c < id
  once : (links t.nodes).Nodup

variable {t : Tree}

/-! ## Paths -/

theorem reaches_iff {id x : NodeId} :
    t.Reaches id x ↔ id = x ∨ ∃ c ∈ t.children id, t.Reaches c x := by
  unfold Reaches
  rw [Relation.ReflTransGen.cases_head_iff]

/-- A node within the arena is one of its entries. -/
theorem children_eq {id : NodeId} (hid : id < t.nodes.toList.length) :
    t.children id = (t.nodes.toList[id]).children := by
  have hid' : id < t.nodes.size := by rwa [Array.length_toList] at hid
  unfold children node
  rw [Array.getD_eq_getD_getElem?, Array.getElem?_eq_getElem hid', Array.getElem_toList]
  rfl

theorem lt_size_of_mem_children {id c : NodeId} (hc : c ∈ t.children id) :
    id < t.nodes.toList.length := by
  by_contra hid
  unfold children node at hc
  rw [Array.length_toList] at hid
  rw [Array.getD_eq_getD_getElem?, Array.getElem?_eq_none (Nat.le_of_not_lt hid)] at hc
  cases hc

namespace IsTree

theorem le_of_reaches (h : t.IsTree) {id x : NodeId} (hx : t.Reaches id x) : x ≤ id := by
  induction hx with
  | refl => exact Nat.le_refl id
  | tail _ hc ih => exact Nat.le_trans (Nat.le_of_lt (h.down _ _ hc)) ih

/-- A depth that suffices for a node leaves one that suffices for its children. -/
theorem child_lt (h : t.IsTree) {id c : NodeId} (hc : c ∈ t.children id) {depth : Nat}
    (hid : id < depth + 1) : c < depth :=
  Nat.lt_of_lt_of_le (h.down id c hc) (Nat.le_of_lt_succ hid)

theorem nodup_children (h : t.IsTree) (id : NodeId) : (t.children id).Nodup := by
  by_cases hid : id < t.nodes.toList.length
  · rw [children_eq hid]
    exact (List.nodup_flatMap.1 h.once).1 _ (List.getElem_mem hid)
  · have hnil : t.children id = [] := by
      rw [List.eq_nil_iff_forall_not_mem]
      exact fun c hc => hid (lt_size_of_mem_children hc)
    rw [hnil]
    exact List.nodup_nil

/-- A node hangs below one other at most. -/
theorem parent_unique (h : t.IsTree) {p q c : NodeId} (hp : c ∈ t.children p)
    (hq : c ∈ t.children q) : p = q := by
  have hlp := lt_size_of_mem_children hp
  have hlq := lt_size_of_mem_children hq
  have hdisjoint := List.pairwise_iff_getElem.1 (List.nodup_flatMap.1 h.once).2
  rw [children_eq hlp] at hp
  rw [children_eq hlq] at hq
  rcases Nat.lt_trichotomy p q with hlt | heq | hlt
  · exact absurd hq (hdisjoint p q hlp hlq hlt hp)
  · exact heq
  · exact absurd hp (hdisjoint q p hlq hlp hlt hq)

/-- Two children of a node lead to different nodes: the paths up from a common one would go through
both, and so through their parent below one of them. -/
theorem not_reaches_both (h : t.IsTree) {id c d x : NodeId} (hc : c ∈ t.children id)
    (hd : d ∈ t.children id) (hne : c ≠ d) (hcx : t.Reaches c x) : ¬ t.Reaches d x := by
  intro hdx
  have hunique : Relator.RightUnique fun c p => c ∈ t.children p := fun _ _ _ hp hq =>
    h.parent_unique hp hq
  -- one of two siblings below the other
  have hbelow : ∀ {c d : NodeId}, c ∈ t.children id → d ∈ t.children id → c ≠ d →
      ¬ Relation.ReflTransGen (fun c p => c ∈ t.children p) c d := by
    intro c d hc hd hne hcd
    rcases Relation.ReflTransGen.cases_head hcd with heq | ⟨p, hp, hpd⟩
    · exact hne heq
    · rw [h.parent_unique hp hc] at hpd
      have hle := h.le_of_reaches (Relation.reflTransGen_swap.1 hpd)
      exact absurd (h.down id d hd) (Nat.not_lt.2 hle)
  rcases Relation.ReflTransGen.total_of_right_unique hunique (Relation.reflTransGen_swap.1 hcx)
    (Relation.reflTransGen_swap.1 hdx) with hcd | hdc
  · exact hbelow hc hd hne hcd
  · exact hbelow hd hc hne.symm hdc

/-! ## From children to parents -/

/-- The depth is never reached: it exceeds the number of the node, and numbers fall along paths. -/
theorem mem_postOrderFrom (h : t.IsTree) {depth : Nat} {id x : NodeId} (hid : id < depth) :
    x ∈ t.postOrderFrom depth id ↔ t.Reaches id x := by
  induction depth generalizing id with
  | zero => exact absurd hid (Nat.not_lt_zero id)
  | succ depth ih =>
    have hchild : ∀ c ∈ t.children id, (x ∈ t.postOrderFrom depth c ↔ t.Reaches c x) := fun c hc =>
      ih (h.child_lt hc hid)
    unfold postOrderFrom
    rw [List.mem_append, List.mem_singleton, List.mem_flatMap, reaches_iff]
    constructor
    · rintro (⟨c, hc, hx⟩ | rfl)
      · exact Or.inr ⟨c, hc, (hchild c hc).1 hx⟩
      · exact Or.inl rfl
    · rintro (rfl | ⟨c, hc, hx⟩)
      · exact Or.inr rfl
      · exact Or.inl ⟨c, hc, (hchild c hc).2 hx⟩

theorem nodup_postOrderFrom (h : t.IsTree) {depth : Nat} {id : NodeId} (hid : id < depth) :
    (t.postOrderFrom depth id).Nodup := by
  induction depth generalizing id with
  | zero => exact absurd hid (Nat.not_lt_zero id)
  | succ depth ih =>
    have hlt : ∀ c ∈ t.children id, c < depth := fun c hc => h.child_lt hc hid
    unfold postOrderFrom
    refine List.nodup_append'.2 ⟨List.nodup_flatMap.2 ⟨fun c hc => ih (hlt c hc), ?_⟩,
      List.nodup_singleton id, ?_⟩
    · refine (h.nodup_children id).pairwise_of_forall_ne fun c hc d hd hne x hx hx' => ?_
      rw [h.mem_postOrderFrom (hlt c hc)] at hx
      rw [h.mem_postOrderFrom (hlt d hd)] at hx'
      exact h.not_reaches_both hc hd hne hx hx'
    · intro x hx hx'
      rw [List.mem_singleton] at hx'
      obtain ⟨c, hc, hx⟩ := List.mem_flatMap.1 hx
      rw [h.mem_postOrderFrom (hlt c hc), hx'] at hx
      exact absurd (h.down id c hc) (Nat.not_lt.2 (h.le_of_reaches hx))

/-- All reachable nodes are visited, and no others. -/
theorem mem_postOrder (h : t.IsTree) {id : NodeId} : id ∈ t.postOrder ↔ t.Reachable id := by
  obtain ⟨root, hroot, hlast⟩ := h.root_last
  unfold postOrder Reachable
  rw [hroot]
  simp only
  rw [h.mem_postOrderFrom (hlast ▸ Nat.lt_succ_self root)]
  constructor
  · exact fun hx => ⟨root, rfl, hx⟩
  · rintro ⟨_, ⟨⟩, hx⟩
    exact hx

/-- No node is visited twice. -/
theorem nodup_postOrder (h : t.IsTree) : t.postOrder.Nodup := by
  obtain ⟨root, hroot, hlast⟩ := h.root_last
  unfold postOrder
  rw [hroot]
  exact h.nodup_postOrderFrom (hlast ▸ Nat.lt_succ_self root)

end IsTree

/-! ## From parents to children -/

theorem walkFrom_perm {σ : Type} (t : Tree) (down : σ → NodeId → σ) (depth : Nat) (s : σ)
    (id : NodeId) :
    ((t.walkFrom down depth s id).map Prod.fst).Perm (t.postOrderFrom depth id) := by
  induction depth generalizing s id with
  | zero => exact List.Perm.refl []
  | succ depth ih =>
    unfold walkFrom postOrderFrom
    rw [List.map_cons, List.map_flatMap]
    have hbelow := List.Perm.flatMap_left (t.children id) fun c _ => ih (down s id) c
    exact (hbelow.cons id).trans (List.perm_append_singleton id _).symm

/-- Both walks visit the same nodes, each as often as the other. -/
theorem walk_perm {σ : Type} (t : Tree) (down : σ → NodeId → σ) (start : σ) :
    ((t.walk down start).map Prod.fst).Perm t.postOrder := by
  unfold walk postOrder
  split
  · exact List.Perm.refl []
  · exact t.walkFrom_perm down _ start _

end Tree

end ShaderCost
