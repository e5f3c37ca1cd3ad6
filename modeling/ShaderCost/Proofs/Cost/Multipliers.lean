import Mathlib.Algebra.BigOperators.Group.Multiset.Basic
import ShaderCost.Proofs.Cost.Exactness
import ShaderCost.Proofs.Tree.Paths

/-! # Multipliers in closed form

Going down the tree, the bounds of the loops are folded one by one into an active value, in which
zero has three meanings: no loop yet, a bound that is not known, and a bound below zero. Over the
natural numbers the fold is a sum, or a product of the bounds that are not zero
(`NestingPolicy.repetitions`), so neither the order of the loops nor the place of a zero among them
matters (`Nesting.multiplier_along`). The words follow the natural numbers up to the cap.

What is recorded of a node is decided by the visits to it (`entry_foldl_visits`). In an arena without
sharing they are all alike, so the tables hold the closed form for the path to the node
(`multipliers_closed_form`).
-/

namespace ShaderCost

/-- How often an operation runs below loops with the given bounds: their sum, or the product of
those that are not zero; once where they come to nothing. -/
def NestingPolicy.repetitions (policy : NestingPolicy) (bounds : Multiset Nat) : Nat :=
  match policy with
  | additive => if bounds.sum = 0 then 1 else bounds.sum
  | multiplicative => (bounds.filter (· ≠ 0)).prod

theorem Node.form_of_kind_loop {n : Node} (h : n.kind = .loop) : ∃ parts, n.form = .loop parts := by
  unfold kind at h
  cases hform : n.form with
  | loop parts => exact ⟨parts, rfl⟩
  | _ =>
    rw [hform] at h
    cases h

namespace Tree

/-- The bound of a node that is a loop. -/
def bound? (t : Tree) (id : NodeId) : Option Nat :=
  match (t.node id).form with
  | .loop parts => some (loopBound t parts).1
  | _ => none

/-- The bounds of the loops among some nodes. -/
def bounds (t : Tree) (ids : List NodeId) : List Nat := ids.filterMap t.bound?

variable {t : Tree} {id : NodeId}

theorem lt_size_of_node_ne (h : t.node id ≠ default) : id < t.size := by
  by_contra hid
  apply h
  unfold node
  rw [Array.getD_eq_getD_getElem?, Array.getElem?_eq_none (Nat.le_of_not_lt hid), Option.getD_none]

theorem lt_size_of_isOperation (h : (t.node id).isOperation = true) : id < t.size := by
  apply lt_size_of_node_ne
  intro hnode
  rw [hnode] at h
  cases h

theorem lt_size_of_loop {parts : LoopParts} (h : (t.node id).form = .loop parts) : id < t.size := by
  apply lt_size_of_node_ne
  intro hnode
  rw [hnode] at h
  cases h

end Tree

/-! ## The active value -/

theorem NestingPolicy.foldl_additive (bounds : List Nat) (active : Nat) :
    bounds.foldl additive.combine active = active + bounds.sum := by
  induction bounds generalizing active with
  | nil => rfl
  | cons bound bounds ih =>
    rw [List.foldl_cons, ih, List.sum_cons]
    exact Nat.add_assoc active bound bounds.sum

namespace Nesting

variable {t : Tree} {policy : NestingPolicy}

theorem multiplier_eq (active depth : Nat) :
    multiplier ⟨active, depth⟩ = if active = 0 then 1 else active := by
  simp [multiplier, Tally.isZero]

/-- Each bound that is not zero is a factor of the multiplier, whatever came before it. -/
theorem multiplier_foldl_multiplicative (bounds : List Nat) (active depth : Nat) :
    multiplier ⟨bounds.foldl NestingPolicy.multiplicative.combine active, depth⟩ =
      multiplier ⟨active, depth⟩ * (bounds.filter (· ≠ 0)).prod := by
  induction bounds generalizing active with
  | nil => simp
  | cons bound bounds ih =>
    rw [List.foldl_cons, ih]
    simp only [multiplier_eq, NestingPolicy.combine, Tally.isZero, beq_iff_eq, Tally.mul_nat]
    by_cases hbound : bound = 0
    · simp [hbound]
    · by_cases hactive : active = 0
      · simp [hbound, hactive]
      · simp [hbound, hactive, Nat.mul_assoc]

/-- A nesting that has gone past some nodes has folded in the bounds of the loops among them. -/
theorem foldl_below (ids : List NodeId) (s : Nesting Nat) :
    ids.foldl (below t policy) s =
      ⟨(t.bounds ids).foldl policy.combine s.active, s.depth + (t.bounds ids).length⟩ := by
  induction ids generalizing s with
  | nil => rfl
  | cons id ids ih =>
    rw [List.foldl_cons, ih]
    unfold Tree.bounds
    rw [List.filterMap_cons]
    unfold below Tree.bound?
    cases (t.node id).form with
    | loop parts =>
      simp only [List.foldl_cons, List.length_cons, Tally.ofNat_nat]
      rw [Nat.add_assoc, Nat.add_comm 1]
    | _ => rfl

/-- The multiplier below some nodes, whatever the order of the loops among them. -/
theorem multiplier_along (ids : List NodeId) :
    (ids.foldl (below t policy) outside : Nesting Nat).multiplier =
      policy.repetitions (t.bounds ids) := by
  rw [foldl_below]
  cases policy with
  | additive =>
    rw [NestingPolicy.foldl_additive, multiplier_eq]
    by_cases hsum : (t.bounds ids).sum = 0
    · simp [outside, NestingPolicy.repetitions, hsum]
    · simp [outside, NestingPolicy.repetitions, hsum]
  | multiplicative =>
    rw [multiplier_foldl_multiplicative, multiplier_eq]
    simp [outside, NestingPolicy.repetitions]

theorem depth_along (policy : NestingPolicy) (ids : List NodeId) :
    (ids.foldl (below t policy) outside : Nesting Nat).depth = (t.bounds ids).length := by
  rw [foldl_below]
  exact Nat.zero_add _

end Nesting

/-! ## The tables -/

/-- An entry that only the visits to one node set, all of which are alike. -/
theorem entry_foldl_visits {β γ σ : Type} {step : β → NodeId × σ → β} {id : NodeId}
    (entry : β → Option γ) {value : σ → γ}
    (hstep : ∀ b v, entry (step b v) = if v.1 = id then some (value v.2) else entry b) {s : σ}
    (visits : List (NodeId × σ)) (hsame : ∀ v ∈ visits, v.1 = id → v.2 = s) (b : β) :
    entry (visits.foldl step b) =
      if id ∈ visits.map Prod.fst then some (value s) else entry b := by
  induction visits generalizing b with
  | nil => simp
  | cons v visits ih =>
    rw [List.foldl_cons, ih fun u hu => hsame u (List.mem_cons_of_mem v hu), hstep]
    by_cases hv : v.1 = id
    · simp [hv, hsame v List.mem_cons_self hv]
    · have hmem : id ∈ (v :: visits).map Prod.fst ↔ id ∈ visits.map Prod.fst := by
        simp [Ne.symm hv]
      rw [if_neg hv]
      simp only [hmem]

namespace LoopCosts

variable {t : Tree} {policy : NestingPolicy} {id : NodeId} {above : List NodeId}

/-- What is recorded of a loop that inherits the given nesting. -/
def factOf (t : Tree) (policy : NestingPolicy) (id : NodeId) (parts : LoopParts)
    (s : Nesting Nat) : LoopFact Nat :=
  { line := (t.node id).line, bound := (loopBound t parts).1, kind := (loopBound t parts).2
    depth := (s.below t policy id).depth, multiplier := (s.below t policy id).multiplier }

/-- A visit to a loop notes what is known of it, one to an operation notes its multiplier, and any
other notes nothing. -/
theorem record_cases (t : Tree) (policy : NestingPolicy) (costs : LoopCosts Nat)
    (v : NodeId × Nesting Nat) :
    (∃ parts, (t.node v.1).form = .loop parts ∧ record t policy costs v =
      { costs with loops := costs.loops.insert v.1 (factOf t policy v.1 parts v.2) }) ∨
    ((t.node v.1).kind ≠ .loop ∧ (t.node v.1).isOperation = true ∧ record t policy costs v =
      { costs with multipliers := costs.multipliers.insert v.1 v.2.multiplier }) ∨
    ((t.node v.1).kind ≠ .loop ∧ (t.node v.1).isOperation = false ∧
      record t policy costs v = costs) := by
  unfold record Node.kind
  cases hform : (t.node v.1).form with
  | loop parts => exact Or.inl ⟨parts, rfl, by simp [hform, factOf]⟩
  | _ => cases hop : (t.node v.1).isOperation <;> simp [hform, hop, NodeForm.kind]

/-- A visit to an operation sets its multiplier. -/
theorem record_multipliers (hid : (t.node id).isOperation = true) (costs : LoopCosts Nat)
    (v : NodeId × Nesting Nat) :
    (record t policy costs v).multipliers[id]? =
      if v.1 = id then some v.2.multiplier else costs.multipliers[id]? := by
  rcases record_cases t policy costs v with ⟨parts, hform, heq⟩ | ⟨-, hop, heq⟩ | ⟨-, hop, heq⟩
  · rw [heq, if_neg]
    rintro rfl
    simp [Node.isOperation, Node.kind, hform, NodeForm.kind, NodeKind.isOperation] at hid
  · rw [heq, Std.TreeMap.getElem?_insert]
    simp only [compare_eq_iff_eq]
  · rw [heq, if_neg]
    rintro rfl
    rw [hid] at hop
    cases hop

/-- A visit to a loop sets what is known of it. -/
theorem record_loops {parts : LoopParts} (hid : (t.node id).form = .loop parts)
    (costs : LoopCosts Nat) (v : NodeId × Nesting Nat) :
    (record t policy costs v).loops[id]? =
      if v.1 = id then some (factOf t policy id parts v.2) else costs.loops[id]? := by
  have hother : (t.node v.1).kind ≠ .loop → v.1 ≠ id := by
    rintro hkind rfl
    exact hkind (by simp [Node.kind, hid, NodeForm.kind])
  rcases record_cases t policy costs v with ⟨parts', hform, heq⟩ | ⟨hkind, -, heq⟩ | ⟨hkind, -, heq⟩
  · rw [heq, Std.TreeMap.getElem?_insert]
    by_cases hv : v.1 = id
    · subst hv
      obtain rfl : parts = parts' := by simpa [hid] using hform
      simp
    · rw [if_neg hv, if_neg (by simpa using hv)]
  · rw [heq, if_neg (hother hkind)]
  · rw [heq, if_neg (hother hkind)]

/-- Nothing is noted of nodes that are not visited, and of a visited node only what its kind calls
for. -/
theorem reachable_of_noted (t : Tree) (policy : NestingPolicy) :
    (∀ id ∈ (ofTree t policy : LoopCosts Nat).multipliers,
      t.Reachable id ∧ (t.node id).isOperation = true) ∧
    ∀ id ∈ (ofTree t policy : LoopCosts Nat).loops,
      t.Reachable id ∧ ∃ parts, (t.node id).form = .loop parts := by
  unfold ofTree
  refine List.foldlRecOn (motive := fun costs : LoopCosts Nat =>
    (∀ id ∈ costs.multipliers, t.Reachable id ∧ (t.node id).isOperation = true) ∧
    ∀ id ∈ costs.loops, t.Reachable id ∧ ∃ parts, (t.node id).form = .loop parts) _ _ ?_ ?_
  · constructor
    · intro id hid
      exact absurd hid Std.TreeMap.not_mem_emptyc
    · intro id hid
      exact absurd hid Std.TreeMap.not_mem_emptyc
  · intro costs hcosts v hv
    obtain ⟨above, hpath, -⟩ := Tree.pathTo_of_mem_walk (s := v.2) hv
    have hreach : t.Reachable v.1 := Tree.reachable_iff_pathTo.2 ⟨above, hpath⟩
    rcases record_cases t policy costs v with ⟨parts, hform, heq⟩ | ⟨-, hop, heq⟩ | ⟨-, -, heq⟩
    · rw [heq]
      refine ⟨hcosts.1, fun id hid => ?_⟩
      rcases Std.TreeMap.mem_insert.1 hid with hv | hid
      · obtain rfl := compare_eq_iff_eq.1 hv
        exact ⟨hreach, parts, hform⟩
      · exact hcosts.2 id hid
    · rw [heq]
      refine ⟨fun id hid => ?_, hcosts.2⟩
      rcases Std.TreeMap.mem_insert.1 hid with hv | hid
      · obtain rfl := compare_eq_iff_eq.1 hv
        exact ⟨hreach, hop⟩
      · exact hcosts.1 id hid
    · rw [heq]
      exact hcosts

section

variable (h : t.Unshared) (hpath : t.PathTo above id)

include h hpath

/-- An entry that visits to a node set is the one for the path to it. -/
theorem entry_ofTree {γ : Type} (hid : id < t.size) (entry : LoopCosts Nat → Option γ)
    {value : Nesting Nat → γ}
    (hrecord : ∀ costs v, entry (record t policy costs v) =
      if v.1 = id then some (value v.2) else entry costs) :
    entry (ofTree t policy) = some (value (above.foldl (Nesting.below t policy) .outside)) := by
  have hwalk : ∀ s : Nesting Nat, (id, s) ∈ t.walk (Nesting.below t policy) .outside ↔
      s = above.foldl (Nesting.below t policy) .outside := fun s => h.mem_walk hpath hid
  unfold ofTree
  rw [entry_foldl_visits entry hrecord _ ?_, if_pos (List.mem_map_of_mem ((hwalk _).2 rfl))]
  rintro v hv rfl
  exact (hwalk v.2).1 hv

theorem getElem?_multipliers (hop : (t.node id).isOperation = true) :
    (ofTree t policy : LoopCosts Nat).multipliers[id]? =
      some (policy.repetitions (t.bounds above)) := by
  rw [← Nesting.multiplier_along]
  exact entry_ofTree h hpath (Tree.lt_size_of_isOperation hop) (·.multipliers[id]?)
    (record_multipliers hop)

/-- The path to a loop, with the loop at its end, is the path to what is directly inside it. -/
theorem getElem?_loops {parts : LoopParts} (hform : (t.node id).form = .loop parts) :
    (ofTree t policy : LoopCosts Nat).loops[id]? =
      some { line := (t.node id).line, bound := (loopBound t parts).1,
             kind := (loopBound t parts).2, depth := (t.bounds (above ++ [id])).length,
             multiplier := policy.repetitions (t.bounds (above ++ [id])) } := by
  rw [← Nesting.multiplier_along, ← Nesting.depth_along policy, List.foldl_append]
  exact entry_ofTree h hpath (Tree.lt_size_of_loop hform) (·.loops[id]?) (record_loops hform)

end

end LoopCosts

/-- **Multipliers do not depend on the order of nesting.** Where no node is reached by two paths, the
multiplier of an operation is given by the bounds of the loops above it, as a multiset: their sum, or
the product of those that are not zero, cut off at the cap; and one where there is nothing to add or
multiply. A loop that is reached has one entry, with its depth and the same formula for the loops
above it and itself. -/
theorem multipliers_closed_form {t : Tree} (h : t.Unshared) (policy : NestingPolicy) :
    let costs : LoopCosts Int64 := .ofTree t policy
    (∀ id, id ∈ costs.multipliers ↔ t.Reachable id ∧ (t.node id).isOperation = true) ∧
    (∀ id above, t.PathTo above id → (t.node id).isOperation = true →
      ∃ multiplier, costs.multipliers[id]? = some multiplier ∧
        multiplier.toInt =
          min Saturating.cap.toInt (policy.repetitions (t.bounds above) : Nat)) ∧
    (∀ id, id ∈ costs.loops ↔ t.Reachable id ∧ (t.node id).kind = .loop) ∧
    (∀ id above, t.PathTo above id → (t.node id).kind = .loop →
      ∃ fact, costs.loops[id]? = some fact ∧
        fact.depth = (t.bounds (above ++ [id])).length ∧
        fact.multiplier.toInt =
          min Saturating.cap.toInt (policy.repetitions (t.bounds (above ++ [id])) : Nat)) := by
  intro costs
  have hrun := LoopCosts.ofTree_related Saturating.ofNat_hom t policy
  have hnoted := LoopCosts.reachable_of_noted t policy
  have hmultiplier : ∀ id above, t.PathTo above id → (t.node id).isOperation = true →
      costs.multipliers[id]? = some (Saturating.ofNat (policy.repetitions (t.bounds above))) := by
    intro id above hpath hop
    rw [hrun.multipliers, LoopCosts.getElem?_multipliers h hpath hop, Option.map_some]
  have hloop : ∀ id above, t.PathTo above id → (t.node id).kind = .loop → ∃ fact,
      costs.loops[id]? = some fact ∧ fact.depth = (t.bounds (above ++ [id])).length ∧
        fact.multiplier = Saturating.ofNat (policy.repetitions (t.bounds (above ++ [id]))) := by
    intro id above hpath hkind
    obtain ⟨parts, hform⟩ := Node.form_of_kind_loop hkind
    rw [hrun.loops, LoopCosts.getElem?_loops h hpath hform, Option.map_some]
    exact ⟨_, rfl, rfl, rfl⟩
  refine ⟨fun id => ⟨fun hid => ?_, ?_⟩, ?_, fun id => ⟨fun hid => ?_, ?_⟩, ?_⟩
  · exact hnoted.1 id ((image_iff.1 hrun.multipliers).mem_iff id |>.1 hid)
  · rintro ⟨hreach, hop⟩
    obtain ⟨above, hpath⟩ := Tree.reachable_iff_pathTo.1 hreach
    rw [Std.TreeMap.mem_iff_isSome_getElem?, hmultiplier id above hpath hop]
    rfl
  · intro id above hpath hop
    exact ⟨_, hmultiplier id above hpath hop, Saturating.toInt_ofNat _⟩
  · obtain ⟨hreach, parts, hform⟩ := hnoted.2 id ((image_iff.1 hrun.loops).mem_iff id |>.1 hid)
    exact ⟨hreach, by simp [Node.kind, hform, NodeForm.kind]⟩
  · rintro ⟨hreach, hkind⟩
    obtain ⟨above, hpath⟩ := Tree.reachable_iff_pathTo.1 hreach
    obtain ⟨fact, hfact, -⟩ := hloop id above hpath hkind
    rw [Std.TreeMap.mem_iff_isSome_getElem?, hfact]
    rfl
  · intro id above hpath hkind
    obtain ⟨fact, hfact, hdepth, hmult⟩ := hloop id above hpath hkind
    exact ⟨fact, hfact, hdepth, by rw [hmult, Saturating.toInt_ofNat]⟩

/-- Two loops with great bounds and one without a bound between them, around a sum. -/
def unboundedBetween : Tree where
  root := some 9
  nodes := #[
    { form := .symbol, name := "i" },
    { form := .constant (.int 0x100000000000) },
    { form := .binary, op := .lessThan, operands := [0, 1] },
    { form := .symbol, name := "j" },
    { form := .constant (.int 0x100000000000) },
    { form := .binary, op := .lessThan, operands := [3, 4] },
    { form := .binary, op := .add },
    { form := .loop ⟨some 5, some 6, none, false⟩ },
    { form := .loop ⟨none, some 7, none, false⟩ },
    { form := .loop ⟨some 2, some 8, none, true⟩ }]

theorem unboundedBetween_isTree : unboundedBetween.IsTree := by
  have hdown : ∀ id < 10, ∀ c ∈ unboundedBetween.children id, c < id := by decide
  exact ⟨⟨9, rfl, rfl⟩, fun id c hc => hdown id (Tree.lt_size_of_mem_children hc) c hc, by decide⟩

/-- The product of the bounds does not fit, and the loop between them is no factor. -/
theorem multipliers_unboundedBetween :
    let costs : LoopCosts Int64 := .ofTree unboundedBetween .multiplicative
    unboundedBetween.Unshared ∧
      (∃ multiplier, costs.multipliers[6]? = some multiplier ∧
        multiplier.toInt = Saturating.cap.toInt) ∧
      ∃ fact, costs.loops[8]? = some fact ∧ fact.depth = 2 ∧
        fact.multiplier.toInt = 0x100000000000 := by
  intro costs
  have hunshared := unboundedBetween_isTree.unshared
  obtain ⟨-, hmultiplier, -, hloop⟩ := multipliers_closed_form hunshared .multiplicative
  have hpath : unboundedBetween.PathTo [9] 8 :=
    ⟨9, rfl, .child (by decide) (.here 8)⟩
  have hpath' : unboundedBetween.PathTo [9, 8, 7] 6 :=
    ⟨9, rfl, .child (by decide) (.child (by decide) (.child (by decide) (.here 6)))⟩
  refine ⟨hunshared, ?_, ?_⟩
  · obtain ⟨multiplier, hentry, hvalue⟩ := hmultiplier 6 _ hpath' rfl
    refine ⟨multiplier, hentry, ?_⟩
    rw [hvalue]
    decide
  · obtain ⟨fact, hentry, hdepth, hvalue⟩ := hloop 8 _ hpath rfl
    refine ⟨fact, hentry, hdepth, ?_⟩
    rw [hvalue]
    decide

end ShaderCost
