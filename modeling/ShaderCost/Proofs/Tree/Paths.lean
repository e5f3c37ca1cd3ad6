import Mathlib.Data.List.Induction
import Mathlib.Data.List.Perm.Subperm
import ShaderCost.Proofs.Tree.Visits

/-! # Paths

What a node inherits on a walk is folded along the path that leads to it, so a walk is known when the
paths of the arena are: a visit is a path that is not too long, with what is inherited along it
(`mem_walkFrom`). Where no node is reached by two paths (`Tree.Unshared`) no path comes back to a
node it has left. A path then has at most as many nodes as the arena, the depth of a walk is no
limit, and every reachable node inherits one thing only (`Unshared.mem_walk`).

The arena of a shader is of that kind (`IsTree.unshared`).
-/

namespace ShaderCost.Tree

/-- A way down from one node to another, given by the nodes above the second, the first on top. -/
inductive Descent (t : Tree) : NodeId → List NodeId → NodeId → Prop where
  | here (id : NodeId) : Descent t id [] id
  | child {id c x : NodeId} {above : List NodeId} (hc : c ∈ t.children id)
      (h : Descent t c above x) : Descent t id (id :: above) x

/-- A way down from the root. -/
def PathTo (t : Tree) (above : List NodeId) (id : NodeId) : Prop :=
  ∃ root, t.root = some root ∧ t.Descent root above id

/-- No node is reached by two paths. -/
def Unshared (t : Tree) : Prop :=
  ∀ ⦃id above above'⦄, t.PathTo above id → t.PathTo above' id → above = above'

variable {t : Tree}

namespace Descent

variable {id p c x : NodeId} {above rest : List NodeId}

theorem snoc (h : t.Descent id above p) (hc : c ∈ t.children p) :
    t.Descent id (above ++ [p]) c := by
  induction h with
  | here id => exact .child hc (.here c)
  | child hchild _ ih => exact .child hchild (ih hc)

/-- A path goes through the nodes above its end. -/
theorem stopAt (h : t.Descent id (above ++ p :: rest) x) : t.Descent id above p := by
  induction above generalizing id with
  | nil =>
    cases h with
    | child _ _ => exact .here p
  | cons q above ih =>
    cases h with
    | child hc h => exact .child hc (ih h)

theorem mem_children (h : t.Descent id (above ++ [p]) x) : x ∈ t.children p := by
  induction above generalizing id with
  | nil =>
    cases h with
    | child hc h =>
      cases h with
      | here _ => exact hc
  | cons q above ih =>
    cases h with
    | child _ h => exact ih h

theorem lt_size (h : t.Descent id above x) : ∀ p ∈ above, p < t.size := by
  induction h with
  | here id =>
    intro p hp
    cases hp
  | child hc _ ih =>
    intro p hp
    rcases List.mem_cons.1 hp with rfl | hp
    · rw [size, ← Array.length_toList]
      exact lt_size_of_mem_children hc
    · exact ih p hp

theorem reaches (h : t.Descent id above x) : t.Reaches id x := by
  induction h with
  | here id => exact .refl
  | child hc _ ih => exact .head hc ih

theorem reaches_of_mem (h : t.Descent id above x) (hp : p ∈ above) : t.Reaches p x := by
  induction h with
  | here id => cases hp
  | child hc h ih =>
    rcases List.mem_cons.1 hp with rfl | hp
    · exact .head hc h.reaches
    · exact ih hp

theorem trans (h : t.Descent id above p) (h' : t.Descent p rest x) :
    t.Descent id (above ++ rest) x := by
  induction h with
  | here id => exact h'
  | child hc _ ih => exact .child hc (ih h')

end Descent

theorem reaches_iff_descent {id x : NodeId} : t.Reaches id x ↔ ∃ above, t.Descent id above x := by
  constructor
  · intro h
    induction h with
    | refl => exact ⟨[], .here id⟩
    | tail _ hc ih =>
      obtain ⟨above, h⟩ := ih
      exact ⟨_, h.snoc hc⟩
  · rintro ⟨above, h⟩
    exact h.reaches

theorem reachable_iff_pathTo {id : NodeId} : t.Reachable id ↔ ∃ above, t.PathTo above id := by
  unfold Reachable PathTo
  simp only [reaches_iff_descent]
  exact ⟨fun ⟨root, hroot, above, h⟩ => ⟨above, root, hroot, h⟩,
    fun ⟨above, root, hroot, h⟩ => ⟨root, hroot, above, h⟩⟩

/-! ## Walks follow paths -/

section

variable {σ : Type} {down : σ → NodeId → σ}

/-- A visit to a node is a path to it, with what is inherited along the path. -/
theorem mem_walkFrom {depth : Nat} {start s : σ} {id x : NodeId} :
    (x, s) ∈ t.walkFrom down depth start id ↔
      ∃ above, t.Descent id above x ∧ above.length < depth ∧ s = above.foldl down start := by
  induction depth generalizing start id with
  | zero => simp [walkFrom]
  | succ depth ih =>
    rw [walkFrom, List.mem_cons, List.mem_flatMap]
    constructor
    · rintro (heq | ⟨c, hc, hvisit⟩)
      · cases heq
        exact ⟨[], .here _, Nat.succ_pos depth, rfl⟩
      · obtain ⟨above, hpath, hlength, hs⟩ := ih.1 hvisit
        exact ⟨id :: above, .child hc hpath, Nat.succ_lt_succ hlength, hs⟩
    · rintro ⟨above, hpath, hlength, hs⟩
      cases hpath with
      | here _ => exact Or.inl (by rw [hs]; rfl)
      | child hc hpath =>
        exact Or.inr ⟨_, hc, ih.2 ⟨_, hpath, Nat.lt_of_succ_lt_succ hlength, hs⟩⟩

theorem pathTo_of_mem_walk {start s : σ} {id : NodeId} (h : (id, s) ∈ t.walk down start) :
    ∃ above, t.PathTo above id ∧ s = above.foldl down start := by
  unfold walk at h
  cases hroot : t.root with
  | none =>
    rw [hroot] at h
    cases h
  | some root =>
    rw [hroot] at h
    obtain ⟨above, hpath, -, hs⟩ := mem_walkFrom.1 h
    exact ⟨above, ⟨root, hroot, hpath⟩, hs⟩

end

/-! ## One path to each node -/

namespace Unshared

variable {id : NodeId} {above : List NodeId}

/-- A path that came back to a node would reach it a second time. -/
theorem nodup (h : t.Unshared) (hpath : t.PathTo above id) : (above ++ [id]).Nodup := by
  obtain ⟨root, hroot, hpath⟩ := hpath
  induction above using List.reverseRecOn generalizing id with
  | nil => exact List.nodup_singleton id
  | append_singleton above p ih =>
    have hp : t.Descent root above p := hpath.stopAt
    refine List.nodup_append'.2 ⟨ih hp, List.nodup_singleton id, ?_⟩
    rw [List.disjoint_singleton]
    intro hid
    obtain ⟨before, after, heq⟩ := List.append_of_mem hid
    have hback : t.Descent root before id := (heq ▸ hpath).stopAt
    have hsame : before = above ++ [p] := h ⟨root, hroot, hback⟩ ⟨root, hroot, hpath⟩
    rw [hsame] at heq
    exact List.cons_ne_nil id after (List.self_eq_append_right.1 heq)

theorem length_lt (h : t.Unshared) (hpath : t.PathTo above id) (hid : id < t.size) :
    above.length < t.size := by
  have hsub : above ++ [id] ⊆ List.range t.size := by
    obtain ⟨root, -, hpath⟩ := hpath
    intro p hp
    rw [List.mem_range]
    rcases List.mem_append.1 hp with hp | hp
    · exact hpath.lt_size p hp
    · rwa [List.mem_singleton.1 hp]
  have hle := ((h.nodup hpath).subperm hsub).length_le
  rw [List.length_append, List.length_range] at hle
  exact hle

/-- A node on the way to another is on the path to it. -/
theorem mem_above (h : t.Unshared) {p : NodeId} (hp : t.Reachable p) (hreaches : t.Reaches p id)
    (hne : p ≠ id) (hpath : t.PathTo above id) : p ∈ above := by
  obtain ⟨root, hroot, hdown⟩ := hp
  obtain ⟨upper, hupper⟩ := reaches_iff_descent.1 hdown
  obtain ⟨lower, hlower⟩ := reaches_iff_descent.1 hreaches
  rw [h hpath ⟨root, hroot, hupper.trans hlower⟩]
  cases hlower with
  | here _ => exact absurd rfl hne
  | child _ _ => exact List.mem_append_right _ List.mem_cons_self

/-- Every reachable node of the arena is visited, and always inherits the same. -/
theorem mem_walk (h : t.Unshared) {σ : Type} {down : σ → NodeId → σ} {start s : σ}
    (hpath : t.PathTo above id) (hid : id < t.size) :
    (id, s) ∈ t.walk down start ↔ s = above.foldl down start := by
  constructor
  · intro hvisit
    obtain ⟨above', hpath', hs⟩ := pathTo_of_mem_walk hvisit
    rw [hs, h hpath' hpath]
  · intro hs
    have hlength := h.length_lt hpath hid
    obtain ⟨root, hroot, hpath⟩ := hpath
    unfold walk
    rw [hroot]
    exact mem_walkFrom.2 ⟨above, hpath, hlength, hs⟩

end Unshared

/-- Where every node hangs below one other at most, the path up from a node is the only one. -/
theorem IsTree.unshared (h : t.IsTree) : t.Unshared := by
  rintro id above above' ⟨root, hroot, hpath⟩ ⟨root', hroot', hpath'⟩
  obtain rfl : root = root' := Option.some.inj (hroot.symm.trans hroot')
  -- the root hangs below no node that it leads to
  have htop : ∀ {p above}, t.Descent root (above ++ [p]) root → False := by
    intro p above hloop
    have hle := h.le_of_reaches hloop.stopAt.reaches
    exact absurd (h.down p root hloop.mem_children) (Nat.not_lt.2 hle)
  induction above using List.reverseRecOn generalizing id above' with
  | nil =>
    cases hpath with
    | here _ =>
      cases above' using List.reverseRecOn with
      | nil => rfl
      | append_singleton above' p => exact (htop hpath').elim
  | append_singleton above p ih =>
    cases above' using List.reverseRecOn with
    | nil =>
      cases hpath' with
      | here _ => exact (htop hpath).elim
    | append_singleton above' q =>
      obtain rfl : p = q := h.parent_unique hpath.mem_children hpath'.mem_children
      rw [ih hpath.stopAt hpath'.stopAt]

end ShaderCost.Tree
