import ShaderCost.Proofs.Cost.Correspondence

/-! # One analysis in two kinds of numbers

The analysis is written for any kind of numbers. A homomorphism `φ` between two kinds takes every
table of the one run to the same table of the other (`Image`), and the runs agree in all that is not
a number: the call graph, the order in which functions settle, the failure. For the loops this is
shown here; the rest follows from them.

The words follow the natural numbers up to the cap (`Saturating.ofNat_hom`), so the saturating run
is the exact run cut off at the cap, entry by entry (`saturating_run_exact`). No stage looks at a
number in a way that the cap could change: a product leaves out factors that are zero, an active
value of zero stands for one and a missing count is one, and neither zero nor one is ever the result
of cutting off.
-/

namespace ShaderCost

variable {α β : Type} [Tally α] [Tally β] {φ : α → β}

/-! ## Loops -/

theorem NestingPolicy.combine_hom (hφ : Tally.Hom φ) (policy : NestingPolicy) (a b : α) :
    policy.combine (φ a) (φ b) = φ (policy.combine a b) := by
  cases policy with
  | additive => exact (hφ.add a b).symm
  | multiplicative =>
    simp only [combine, hφ.isZero]
    split
    · rfl
    · split
      · rfl
      · exact (hφ.mul a b).symm

def Nesting.map (φ : α → β) (s : Nesting α) : Nesting β := ⟨φ s.active, s.depth⟩

def LoopFact.map (φ : α → β) (f : LoopFact α) : LoopFact β :=
  { line := f.line, bound := f.bound, kind := f.kind, depth := f.depth,
    multiplier := φ f.multiplier }

namespace Nesting

theorem below_map (hφ : Tally.Hom φ) (t : Tree) (policy : NestingPolicy) (s : Nesting α)
    (id : NodeId) : (s.map φ).below t policy id = (s.below t policy id).map φ := by
  unfold below
  split
  · simp only [map, ← hφ.ofNat, NestingPolicy.combine_hom hφ]
  · rfl

theorem multiplier_map (hφ : Tally.Hom φ) (s : Nesting α) :
    (s.map φ).multiplier = φ s.multiplier := by
  unfold multiplier
  simp only [map, hφ.isZero]
  split
  · exact hφ.one.symm
  · rfl

theorem outside_map (hφ : Tally.Hom φ) : (outside : Nesting α).map φ = outside := by
  unfold outside map
  rw [hφ.zero]

end Nesting

namespace LoopCosts

/-- The same loops and operations, with related multipliers. -/
structure Related (φ : α → β) (c : LoopCosts α) (c' : LoopCosts β) : Prop where
  multipliers : Image φ c.multipliers c'.multipliers
  loops : Image (LoopFact.map φ) c.loops c'.loops

theorem record_related (hφ : Tally.Hom φ) (t : Tree) (policy : NestingPolicy) {c : LoopCosts α}
    {c' : LoopCosts β} (h : Related φ c c') (id : NodeId) (s : Nesting α) :
    Related φ (record t policy c (id, s)) (record t policy c' (id, s.map φ)) := by
  unfold record
  simp only
  split
  · rw [Nesting.below_map hφ, Nesting.multiplier_map hφ]
    exact ⟨h.multipliers, h.loops.insert id _⟩
  · split
    · rw [Nesting.multiplier_map hφ]
      exact ⟨h.multipliers.insert id _, h.loops⟩
    · exact h

theorem ofTree_related (hφ : Tally.Hom φ) (t : Tree) (policy : NestingPolicy) :
    Related φ (ofTree t policy : LoopCosts α) (ofTree t policy : LoopCosts β) := by
  unfold ofTree
  rw [← Nesting.outside_map hφ, (Tree.SameLinks.refl t).walk_map (Nesting.below_map hφ t policy),
    List.foldl_map]
  exact List.foldl_rel ⟨.empty, .empty⟩ fun v _ _ _ h => record_related hφ t policy h v.1 v.2

theorem Related.multiplier (hφ : Tally.Hom φ) {c : LoopCosts α} {c' : LoopCosts β}
    (h : Related φ c c') (id : NodeId) : c'.multiplier id = φ (c.multiplier id) := by
  unfold LoopCosts.multiplier
  rw [← hφ.zero, h.multipliers.getD]

end LoopCosts

/-! ## Functions, counts and lines -/

namespace Resolution

/-- The same functions settled in the same order, with related costs. -/
structure Related (φ : α → β) (r : Resolution α) (r' : Resolution β) : Prop where
  raw : Image φ r.raw r'.raw
  costs : Image φ r.costs r'.costs
  resolved : r'.resolved = r.resolved
  order : r'.order = r.order

variable {r : Resolution α} {r' : Resolution β}

omit [Tally α] [Tally β] in
theorem Corresponds.related (h : r.Corresponds (fun a b => b = φ a) r') : r.Related φ r' :=
  ⟨image_iff.2 h.raw, image_iff.2 h.costs, h.resolved, h.order⟩

omit [Tally α] [Tally β] in
theorem Related.isResolved (h : Related φ r r') : r'.isResolved = r.isResolved := by
  funext key
  unfold Resolution.isResolved
  rw [h.resolved]

theorem ofGraph_related (hφ : Tally.Hom φ) (g : CallGraph) (widths : Widths) {loops : LoopCosts α}
    {loops' : LoopCosts β} (hl : loops.Related φ loops') :
    Related φ (ofGraph g widths loops) (ofGraph g widths loops') :=
  (ofGraph_corresponds hφ.respects (hl.multiplier hφ) g widths).related

end Resolution

theorem Invocations.count_image (hφ : Tally.Hom φ) {counts : Invocations α}
    {counts' : Invocations β} (h : Image φ counts counts') (key : String) :
    counts'.count key = φ (counts.count key) := by
  unfold count
  rw [← hφ.one, h.getD]

theorem LineTable.total_image (hφ : Tally.Hom φ) {lines : LineTable α} {lines' : LineTable β}
    (h : Image φ lines lines') : total lines'.toList = φ (total lines.toList) := by
  unfold total
  rw [h.toList, List.foldl_map]
  refine List.foldl_rel (r := fun a b => b = φ a) hφ.zero.symm fun e _ _ _ hs => ?_
  rw [hs, hφ.add]

/-! ## The run -/

namespace CostRun

section

variable {α : Type} [Tally α] (options : CostOptions) (t : Tree)

/-! The stages up to the fourth do not depend on whether it fails. -/

@[simp] theorem ofTree_widths : (ofTree options t : CostRun α).widths = .ofTree t := by
  unfold ofTree
  simp only
  split <;> rfl

@[simp] theorem ofTree_loops :
    (ofTree options t : CostRun α).loops = .ofTree t options.nesting := by
  unfold ofTree
  simp only
  split <;> rfl

@[simp] theorem ofTree_graph :
    (ofTree options t : CostRun α).graph = .ofTree t options.identity := by
  unfold ofTree
  simp only
  split <;> rfl

@[simp] theorem ofTree_resolution : (ofTree options t : CostRun α).resolution =
    .ofGraph (.ofTree t options.identity) (.ofTree t) (.ofTree t options.nesting) := by
  unfold ofTree
  simp only
  split <;> rfl

theorem ofTree_failure : (ofTree options t : CostRun α).failure =
    (ofTree options t : CostRun α).resolution.failure? (ofTree options t : CostRun α).graph
      options.recursion := by
  rw [ofTree_resolution, ofTree_graph]
  unfold ofTree
  simp only
  split
  · next failure h => exact h.symm
  · next h => exact h.symm

variable {options t} (h : (ofTree options t : CostRun α).failure = none)
include h

theorem ofTree_counts : (ofTree options t : CostRun α).counts =
    .ofGraph (.ofTree t options.identity) (.ofTree t options.nesting)
      (ofTree options t : CostRun α).resolution := by
  rw [ofTree_failure, ofTree_resolution, ofTree_graph] at h
  rw [ofTree_resolution]
  unfold ofTree
  simp only [h]

theorem ofTree_lines : (ofTree options t : CostRun α).lines =
    .ofTree t (.ofTree t) (.ofTree t options.nesting) (.ofTree t options.identity)
      (ofTree options t : CostRun α).counts := by
  rw [ofTree_counts h, ofTree_resolution]
  rw [ofTree_failure, ofTree_resolution, ofTree_graph] at h
  unfold ofTree
  simp only [h]

end

/-- The same run in other numbers. -/
structure Related (φ : α → β) (run : CostRun α) (run' : CostRun β) : Prop where
  widths : run'.widths = run.widths
  graph : run'.graph = run.graph
  failure : run'.failure = run.failure
  loops : run.loops.Related φ run'.loops
  resolution : run.resolution.Related φ run'.resolution
  counts : Image φ run.counts run'.counts
  lines : Image φ run.lines run'.lines

theorem ofTree_related (hφ : Tally.Hom φ) (options : CostOptions) (t : Tree) :
    Related φ (ofTree options t : CostRun α) (ofTree options t : CostRun β) := by
  have hl := LoopCosts.ofTree_related hφ t options.nesting
  have h := ofTree_corresponds hφ.respects options (t := t) rfl rfl rfl rfl (hl.multiplier hφ)
  refine ⟨?_, ?_, h.failure, ?_, h.resolution.related, image_iff.2 h.counts, image_iff.2 h.lines⟩
  · rw [ofTree_widths, ofTree_widths]
  · rw [ofTree_graph, ofTree_graph]
  · rw [ofTree_loops, ofTree_loops]
    exact hl

end CostRun

/-- The words of `m'` are the numbers of `m`, each cut off at the cap. -/
def CutOff {κ : Type} [Ord κ] (m : Std.TreeMap κ Nat) (m' : Std.TreeMap κ Int64) : Prop :=
  ∀ k : κ, m'[k]?.map Int64.toInt = m[k]?.map fun n : Nat => min Saturating.cap.toInt (n : Int)

theorem Image.cutOff {κ : Type} [Ord κ] [Std.TransOrd κ] {m : Std.TreeMap κ Nat}
    {m' : Std.TreeMap κ Int64} (h : Image Saturating.ofNat m m') : CutOff m m' := by
  intro k
  rw [h k, Option.map_map]
  congr 1
  funext n
  exact Saturating.toInt_ofNat n

/-- **Saturation is exact.** The run in 64-bit words and the run in natural numbers fail on the same
trees with the same circle of calls, and every number of the first is that of the second, cut off at
the cap. -/
theorem saturating_run_exact (options : CostOptions) (t : Tree) :
    let run : CostRun Int64 := .ofTree options t
    let ideal : CostRun Nat := .ofTree options t
    run.failure = ideal.failure ∧
      CutOff ideal.loops.multipliers run.loops.multipliers ∧
      CutOff ideal.resolution.raw run.resolution.raw ∧
      CutOff ideal.resolution.costs run.resolution.costs ∧
      CutOff ideal.counts run.counts ∧
      CutOff ideal.lines run.lines ∧
      (LineTable.total run.lines.toList).toInt =
        min Saturating.cap.toInt (LineTable.total ideal.lines.toList : Nat) := by
  intro run ideal
  have h : ideal.Related Saturating.ofNat run :=
    CostRun.ofTree_related Saturating.ofNat_hom options t
  refine ⟨h.failure, h.loops.multipliers.cutOff, h.resolution.raw.cutOff, h.resolution.costs.cutOff,
    h.counts.cutOff, h.lines.cutOff, ?_⟩
  rw [LineTable.total_image Saturating.ofNat_hom h.lines, Saturating.toInt_ofNat]

end ShaderCost
