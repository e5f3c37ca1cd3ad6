import ShaderCost.Proofs.Cost.Exactness

/-! # Greater bounds, greater costs

An int literal enters the analysis as the bound of a loop and nowhere else. So two trees that differ
only in such literals have the same widths and the same call graph (`Tree.Raised`), and their runs
take the same steps. Where the literals of the second are greater, so are its bounds
(`loopBound_raised`).

A product of bounds leaves out those that are zero and stands for one where all are, so it is not
clear that a greater bound makes it greater; it does (`NestingPolicy.combine_le_combine`,
`Nesting.multiplier_le_multiplier`). From the multipliers on there are only sums and products.
-/

namespace ShaderCost

/-! ## Trees -/

/-- The nodes are the same, or they are int literals that differ in their values only, the second
being as great or greater. -/
inductive Node.Raised : Node → Node → Prop where
  | same (n : Node) : Raised n n
  | int (n : Node) (value value' : Int) (h : value ≤ value') :
    Raised { n with form := .constant (.int value) } { n with form := .constant (.int value') }

/-- The trees are the same but for int literals, which may be greater in the second. -/
structure Tree.Raised (t t' : Tree) : Prop where
  root : t'.root = t.root
  size : t'.size = t.size
  node : ∀ id, (t.node id).Raised (t'.node id)

/-! ## What stays the same

No function here looks at the value of an int literal, so both cases of `Node.Raised` hold by
definition. -/

section

variable {t t' : Tree} (h : t.Raised t')

include h

theorem Tree.Raised.sameLinks : t.SameLinks t' := by
  refine ⟨h.root, h.size, fun id => ?_⟩
  unfold children
  exact (h.node id).casesOn (fun _ => rfl) fun _ _ _ _ => rfl

theorem Widths.ofBinary_raised : ofBinary t' = ofBinary t := by
  have hselected : selected? t' = selected? t := by
    funext n
    unfold selected?
    cases n.right? with
    | none => rfl
    | some right =>
      simp only
      exact (h.node right).casesOn (fun _ => rfl) fun _ _ _ _ => rfl
  have hshape : ∀ id, (t'.node id).shape = (t.node id).shape := by
    intro id
    exact (h.node id).casesOn (fun _ => rfl) fun _ _ _ _ => rfl
  funext w n
  unfold ofBinary
  simp only [hselected, hshape]

theorem Widths.ofTree_raised : Widths.ofTree t' = Widths.ofTree t := by
  have hrecord : record t' = record t := by
    funext w id
    unfold record ofNode?
    rw [ofBinary_raised h]
    exact (h.node id).casesOn (fun _ => rfl) fun _ _ _ _ => rfl
  unfold ofTree
  rw [h.sameLinks.postOrder, hrecord]

theorem CallGraph.ofTree_raised (identity : FunctionIdentity) :
    CallGraph.ofTree t' identity = CallGraph.ofTree t identity := by
  have hbelow : keyBelow t' identity = keyBelow t identity := by
    funext key id
    unfold keyBelow
    exact (h.node id).casesOn (fun _ => rfl) fun _ _ _ _ => rfl
  have hrecord : record t' identity = record t identity := by
    funext g ⟨id, key⟩
    unfold record
    simp only
    exact (h.node id).casesOn (fun _ => rfl) fun _ _ _ _ => rfl
  unfold ofTree
  rw [hbelow, hrecord, h.sameLinks.walk]

theorem LineTable.record_raised {α : Type} [Tally α] :
    (LineTable.record t' : (NodeId → α) → _) = LineTable.record t := by
  funext cost lines id
  unfold record
  exact (h.node id).casesOn (fun _ => rfl) fun _ _ _ _ => rfl

/-! ## Loops -/

theorem loopBound_raised (parts : LoopParts) :
    (loopBound t parts).1 ≤ (loopBound t' parts).1 := by
  unfold loopBound
  cases parts.test with
  | none => exact Nat.le_refl 0
  | some id =>
    have hright : (t'.node id).right? = (t.node id).right? :=
      (h.node id).casesOn (fun _ => rfl) fun _ _ _ _ => rfl
    have hkind : (t'.node id).kind = (t.node id).kind :=
      (h.node id).casesOn (fun _ => rfl) fun _ _ _ _ => rfl
    have hop : (t'.node id).op = (t.node id).op :=
      (h.node id).casesOn (fun _ => rfl) fun _ _ _ _ => rfl
    simp only [hright, hkind, hop]
    cases (t.node id).right? with
    | none => exact Nat.le_refl 0
    | some right =>
      have hnode := h.node right
      simp only
      generalize t.node right = bound, t'.node right = bound' at hnode
      cases hnode with
      | same => exact Nat.le_refl _
      | int bound value value' hle =>
        simp only [Node.constant?]
        split
        · exact Int.toNat_le_toNat hle
        · exact Nat.le_refl 0

end

/-- The value of the loops around a place grows with each bound, also where bounds of zero are left
out of a product. -/
theorem NestingPolicy.combine_le_combine (policy : NestingPolicy) {a b a' b' : Nat} (ha : a ≤ a')
    (hb : b ≤ b') : policy.combine a b ≤ policy.combine a' b' := by
  cases policy with
  | additive => exact Nat.add_le_add ha hb
  | multiplicative =>
    have hzero : ∀ n : Nat, Tally.isZero n = (n == 0) := fun _ => rfl
    have hright : 0 < b' → a' ≤ a' * b' := Nat.le_mul_of_pos_right a'
    have hleft : 0 < a' → b' ≤ a' * b' := Nat.le_mul_of_pos_left b'
    have hboth : a * b ≤ a' * b' := Nat.mul_le_mul ha hb
    simp only [combine, hzero, beq_iff_eq, Tally.mul_nat]
    split_ifs <;> omega

namespace Nesting

variable {t t' : Tree} {s s' : Nesting Nat}

theorem below_raised (h : t.Raised t') (policy : NestingPolicy) (hs : s.active ≤ s'.active)
    (id : NodeId) : (s.below t policy id).active ≤ (s'.below t' policy id).active := by
  have hnode := h.node id
  unfold below
  generalize t.node id = n, t'.node id = n' at hnode
  cases hnode with
  | int => exact hs
  | same =>
    split
    · next parts _ => exact policy.combine_le_combine hs (loopBound_raised h parts)
    · exact hs

/-- A value of zero stands for one, and one is the least that any other can be. -/
theorem multiplier_le_multiplier (hs : s.active ≤ s'.active) :
    s.multiplier ≤ s'.multiplier := by
  have hzero : ∀ n : Nat, Tally.isZero n = (n == 0) := fun _ => rfl
  simp only [multiplier, hzero, beq_iff_eq, Tally.one_nat]
  split_ifs <;> omega

end Nesting

namespace LoopCosts

variable {t t' : Tree} {c c' : LoopCosts Nat}

theorem record_raised (h : t.Raised t') (policy : NestingPolicy)
    (hc : Entrywise (· ≤ ·) c.multipliers c'.multipliers) (id : NodeId) {s s' : Nesting Nat}
    (hs : s.active ≤ s'.active) :
    Entrywise (· ≤ ·) (record t policy c (id, s)).multipliers
      (record t' policy c' (id, s')).multipliers := by
  have hnode := h.node id
  unfold record
  simp only
  generalize t.node id = n, t'.node id = n' at hnode
  cases hnode with
  | int => exact hc
  | same =>
    split
    · exact hc
    · split
      · exact hc.insert id (Nesting.multiplier_le_multiplier hs)
      · exact hc

theorem ofTree_raised (h : t.Raised t') (policy : NestingPolicy) :
    Entrywise (· ≤ ·) (ofTree t policy : LoopCosts Nat).multipliers
      (ofTree t' policy : LoopCosts Nat).multipliers := by
  have hwalk := h.sameLinks.walk_rel (r := fun s s' : Nesting Nat => s.active ≤ s'.active)
    (fun _ _ id hs => Nesting.below_raised h policy hs id) (Nat.le_refl Nesting.outside.active)
  refine List.rel_foldl (P := fun c c' : LoopCosts Nat =>
    Entrywise (· ≤ ·) c.multipliers c'.multipliers) ?_ .empty hwalk
  rintro c c' hc ⟨id, s⟩ ⟨id', s'⟩ ⟨hid, hs⟩
  obtain rfl : id' = id := hid
  exact record_raised h policy hc id' hs

end LoopCosts

/-! ## Runs -/

/-- Sums and products of natural numbers grow with their parts. -/
theorem Tally.le_respects : Tally.Respects fun a b : Nat => a ≤ b where
  ofNat _ := Nat.le_refl _
  add := Nat.add_le_add
  mul := Nat.mul_le_mul

/-- Words that follow the natural numbers keep their order. -/
theorem Entrywise.words_le {κ : Type} [Ord κ] [Std.TransOrd κ] {m m' : Std.TreeMap κ Nat}
    {words words' : Std.TreeMap κ Int64} (h : Entrywise (· ≤ ·) m m')
    (hwords : Image Saturating.ofNat m words) (hwords' : Image Saturating.ofNat m' words') :
    Entrywise (· ≤ ·) words words' := by
  intro k
  rw [hwords k, hwords' k]
  rcases h.entries k with ⟨a, b, ha, hb, hab⟩ | ⟨ha, hb⟩
  · rw [ha, hb]
    refine .some ?_
    rw [Int64.le_iff_toInt_le, Saturating.toInt_ofNat, Saturating.toInt_ofNat]
    omega
  · rw [ha, hb]
    exact .none

/-- **Costs grow with the bounds of loops.** Of two trees that differ only in int literals, those of
the second being as great or greater, the analyses under any options both fail, with the same circle
of calls, or both succeed; multipliers, counts, costs of functions and costs of lines have the same
keys, and those of the first are at most those of the second. -/
theorem costs_monotone_in_bounds {t t' : Tree} (h : t.Raised t') (options : CostOptions) :
    let run : CostRun Int64 := .ofTree options t
    let run' : CostRun Int64 := .ofTree options t'
    run'.failure = run.failure ∧
      Entrywise (· ≤ ·) run.loops.multipliers run'.loops.multipliers ∧
      Entrywise (· ≤ ·) run.counts run'.counts ∧
      Entrywise (· ≤ ·) run.resolution.costs run'.resolution.costs ∧
      Entrywise (· ≤ ·) run.lines run'.lines ∧
      run'.lines.keys = run.lines.keys := by
  intro run run'
  have hloops := LoopCosts.ofTree_raised h options.nesting
  have hideal := CostRun.ofTree_corresponds Tally.le_respects options (Widths.ofTree_raised h)
    (CallGraph.ofTree_raised h options.identity) h.sameLinks.postOrder (LineTable.record_raised h)
    fun id => hloops.getD id (Nat.le_refl _)
  have hrun : (CostRun.ofTree options t : CostRun Nat).Related Saturating.ofNat run :=
    CostRun.ofTree_related Saturating.ofNat_hom options t
  have hrun' : (CostRun.ofTree options t' : CostRun Nat).Related Saturating.ofNat run' :=
    CostRun.ofTree_related Saturating.ofNat_hom options t'
  have hlines := hideal.lines.words_le hrun.lines hrun'.lines
  refine ⟨?_, ?_, hideal.counts.words_le hrun.counts hrun'.counts,
    hideal.resolution.costs.words_le hrun.resolution.costs hrun'.resolution.costs, hlines,
    hlines.keys⟩
  · rw [hrun'.failure, hideal.failure, hrun.failure]
  · rw [← CostRun.ofTree_loops options t, ← CostRun.ofTree_loops options t'] at hloops
    exact hloops.words_le hrun.loops.multipliers hrun'.loops.multipliers

/-- A function that calls itself from inside two loops. -/
def nestedLoops (outer inner : Int) : Tree where
  root := some 9
  nodes := #[
    { form := .symbol, name := "i" },
    { form := .constant (.int outer) },
    { form := .binary, op := .lessThan, operands := [0, 1] },
    { form := .symbol, name := "j" },
    { form := .constant (.int inner) },
    { form := .binary, op := .lessThan, operands := [3, 4] },
    { form := .aggregate, op := .call, name := "f" },
    { form := .loop ⟨some 5, some 6, none, false⟩ },
    { form := .loop ⟨some 2, some 7, none, false⟩ },
    { form := .function, name := "f", operands := [8] }]

theorem nestedLoops_raised {outer outer' inner inner' : Int} (houter : outer ≤ outer')
    (hinner : inner ≤ inner') : (nestedLoops outer inner).Raised (nestedLoops outer' inner') := by
  refine ⟨rfl, rfl, fun id => ?_⟩
  match id with
  | 1 => exact .int { form := .symbol } outer outer' houter
  | 4 => exact .int { form := .symbol } inner inner' hinner
  | 0 | 2 | 3 | 5 | 6 | 7 | 8 | 9 => exact .same _
  | id + 10 => exact .same _

/-- Two bounds that count for nothing become two and three, around a circle of calls. -/
theorem costs_monotone_nestedLoops :
    let options : CostOptions := { nesting := .multiplicative, recursion := .keep }
    let run : CostRun Int64 := .ofTree options (nestedLoops (-1) 0)
    let run' : CostRun Int64 := .ofTree options (nestedLoops 2 3)
    (nestedLoops (-1) 0).Raised (nestedLoops 2 3) ∧
      run.loops.multiplier 6 = 1 ∧ run'.loops.multiplier 6 = 6 ∧
      Entrywise (· ≤ ·) run.counts run'.counts ∧ Entrywise (· ≤ ·) run.lines run'.lines := by
  intro options run run'
  have hraised : (nestedLoops (-1) 0).Raised (nestedLoops 2 3) :=
    nestedLoops_raised (by decide) (by decide)
  obtain ⟨-, -, hcounts, -, hlines, -⟩ := costs_monotone_in_bounds hraised options
  refine ⟨hraised, ?_, ?_, hcounts, hlines⟩
  · simp only [run, CostRun.ofTree_loops]
    decide +kernel
  · simp only [run', CostRun.ofTree_loops]
    decide +kernel

end ShaderCost
