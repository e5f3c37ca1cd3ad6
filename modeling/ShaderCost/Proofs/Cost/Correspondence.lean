import Mathlib.Data.List.Forall2
import ShaderCost.Cost.Analysis
import ShaderCost.Proofs.Cost.Table

/-! # Analyses that run alongside each other

Trees with the same links are walked alike, and what the nodes inherit stays related on the way
(`Tree.SameLinks.walk_rel`).

Once the multipliers of the loops are known, the analysis only adds and multiplies, and no number
decides what is done next. Two analyses over the same call graph therefore take the same steps, and
a relation between their numbers that sums and products respect (`Tally.Respects`) holds in every
table of the two if it holds of the multipliers (`CostRun.ofTree_corresponds`).

There are two uses of this. A homomorphism between two kinds of numbers is such a relation, and so
is the order of the natural numbers.
-/

namespace ShaderCost

/-! ## Walks -/

/-- The trees have the same root and the same links, whatever else their nodes hold. -/
structure Tree.SameLinks (t t' : Tree) : Prop where
  root : t'.root = t.root
  size : t'.size = t.size
  children : ∀ id, t'.children id = t.children id

namespace Tree.SameLinks

variable {t t' : Tree} (h : t.SameLinks t')

theorem refl (t : Tree) : t.SameLinks t := ⟨rfl, rfl, fun _ => rfl⟩

include h

theorem postOrderFrom (depth : Nat) : t'.postOrderFrom depth = t.postOrderFrom depth := by
  induction depth with
  | zero => rfl
  | succ depth ih =>
    funext id
    unfold Tree.postOrderFrom
    rw [h.children, ih]

theorem postOrder : t'.postOrder = t.postOrder := by
  unfold Tree.postOrder
  rw [h.size, h.root, h.postOrderFrom]

variable {σ τ : Type} {down : σ → NodeId → σ} {down' : τ → NodeId → τ}

/-- What is inherited stays related if every node passes it on so. -/
theorem walkFrom_rel {r : σ → τ → Prop}
    (hdown : ∀ s s' id, r s s' → r (down s id) (down' s' id)) (depth : Nat) {s : σ} {s' : τ}
    (hs : r s s') (id : NodeId) :
    List.Forall₂ (fun v v' => v'.1 = v.1 ∧ r v.2 v'.2) (t.walkFrom down depth s id)
      (t'.walkFrom down' depth s' id) := by
  induction depth generalizing s s' id with
  | zero => exact .nil
  | succ depth ih =>
    refine .cons ⟨rfl, hs⟩ ?_
    rw [h.children]
    refine List.rel_flatMap (List.forall₂_same.2 fun c _ => Eq.refl c) ?_
    rintro c _ rfl
    exact ih (hdown s s' id hs) c

theorem walk_rel {r : σ → τ → Prop} (hdown : ∀ s s' id, r s s' → r (down s id) (down' s' id))
    {s : σ} {s' : τ} (hs : r s s') :
    List.Forall₂ (fun v v' => v'.1 = v.1 ∧ r v.2 v'.2) (t.walk down s) (t'.walk down' s') := by
  unfold Tree.walk
  rw [h.root, h.size]
  cases t.root with
  | none => exact .nil
  | some root => exact h.walkFrom_rel hdown t.size hs root

theorem walk_map {f : σ → τ} (hdown : ∀ s id, down' (f s) id = f (down s id)) (s : σ) :
    t'.walk down' (f s) = (t.walk down s).map fun v => (v.1, f v.2) := by
  have hstep : ∀ s s' id, s' = f s → down' s' id = f (down s id) := by
    rintro s _ id rfl
    exact hdown s id
  have hrel : List.Forall₂ (fun v v' => v'.1 = v.1 ∧ v'.2 = f v.2) (t.walk down s)
      (t'.walk down' (f s)) := h.walk_rel (r := fun s s' => s' = f s) hstep rfl
  have hmap : List.Forall₂ Eq ((t.walk down s).map fun v => (v.1, f v.2)) (t'.walk down' (f s)) :=
    List.forall₂_map_left_iff.2 (hrel.imp fun v v' hv => Prod.ext hv.1.symm hv.2.symm)
  rw [List.forall₂_eq_eq_eq] at hmap
  exact hmap.symm

theorem walk (down : σ → NodeId → σ) (s : σ) : t'.walk down s = t.walk down s :=
  (h.walk_map (f := fun s => s) (fun _ _ => rfl) s).trans (List.map_id _)

end Tree.SameLinks

variable {α β : Type} [Tally α] [Tally β] {r : α → β → Prop} (hr : Tally.Respects r)

/-! ## Functions -/

section

variable {loops : LoopCosts α} {loops' : LoopCosts β}
  (hl : ∀ id, r (loops.multiplier id) (loops'.multiplier id))

include hr hl in
theorem placeCost_respects (widths : Widths) (id : NodeId) :
    r (placeCost widths loops id) (placeCost widths loops' id) :=
  hr.mul (hr.ofNat _) (hl id)

include hr hl in
theorem rawCosts_entrywise (widths : Widths) (keys : List String)
    (owned : List (NodeId × String)) :
    Entrywise r (rawCosts widths loops keys owned) (rawCosts widths loops' keys owned) := by
  unfold rawCosts
  refine List.foldl_rel (List.foldl_rel .empty fun key _ _ _ h => ?_) fun ⟨id, key⟩ _ _ _ h => ?_
  · exact FunctionTable.touch_entrywise hr h key
  · exact FunctionTable.add_entrywise hr h key (placeCost_respects hr hl widths id)

namespace Resolution

/-- Sets of keys that answer alike, and go on to do so when a key is added to both. -/
structure AnswersAlike (q : Std.TreeSet String → Std.TreeSet String → Prop) : Prop where
  contains : ∀ {a b}, q a b → ∀ key, a.contains key = b.contains key
  insert : ∀ {a b}, q a b → ∀ key, q (a.insert key) (b.insert key)

theorem AnswersAlike.eq : AnswersAlike (· = ·) where
  contains := by
    rintro a _ rfl key
    rfl
  insert := by
    rintro a _ rfl key
    rfl

theorem AnswersAlike.equiv : AnswersAlike Std.TreeSet.Equiv where
  contains h _ := h.contains_eq
  insert h key := h.insert key

/-- The same functions settled in the same order, with related costs. The sets that hold them may
differ up to `q`. -/
structure CorrespondsUpTo (q : Std.TreeSet String → Std.TreeSet String → Prop) (r : α → β → Prop)
    (x : Resolution α) (x' : Resolution β) : Prop where
  raw : Entrywise r x.raw x'.raw
  costs : Entrywise r x.costs x'.costs
  resolved : q x'.resolved x.resolved
  order : x'.order = x.order

/-- The same functions settled in the same order, with related costs. -/
abbrev Corresponds (r : α → β → Prop) (x : Resolution α) (x' : Resolution β) : Prop :=
  CorrespondsUpTo (· = ·) r x x'

variable {q : Std.TreeSet String → Std.TreeSet String → Prop} (hq : AnswersAlike q)
  {x : Resolution α} {x' : Resolution β}

include hq in
omit [Tally α] [Tally β] in
theorem CorrespondsUpTo.isResolved (h : CorrespondsUpTo q r x x') :
    x'.isResolved = x.isResolved := by
  funext key
  exact hq.contains h.resolved key

include hr hq in
theorem settle_corresponds (g : CallGraph) (h : CorrespondsUpTo q r x x') (caller : String) :
    CorrespondsUpTo q r (settle g x caller) (settle g x' caller) := by
  unfold settle isReady
  rw [h.isResolved hq]
  split
  · exact h
  · refine ⟨h.raw, List.foldl_rel h.costs fun callee _ _ _ hc => ?_,
      hq.insert h.resolved caller, ?_⟩
    · exact FunctionTable.add_entrywise hr hc caller (hc.getD callee (hr.ofNat 0))
    · rw [h.order]

include hr hq in
theorem rounds_corresponds (g : CallGraph) (callers : List String) (limit : Nat)
    (h : CorrespondsUpTo q r x x') :
    CorrespondsUpTo q r (rounds g callers limit x) (rounds g callers limit x') := by
  induction limit generalizing x x' with
  | zero => exact h
  | succ limit ih =>
    have hround : CorrespondsUpTo q r (callers.foldl (settle g) x) (callers.foldl (settle g) x') :=
      List.foldl_rel h fun caller _ _ _ hc => settle_corresponds hr hq g hc caller
    simp only [rounds, hround.order, h.order]
    split
    · exact hround
    · exact ih hround

include hr hl in
theorem ofGraph_corresponds (g : CallGraph) (widths : Widths) :
    Corresponds r (ofGraph g widths loops) (ofGraph g widths loops') := by
  have hraw := rawCosts_entrywise hr hl widths g.functions.keys g.owners.toList
  exact rounds_corresponds hr .eq g _ _ ⟨hraw, hraw, rfl, rfl⟩

include hq in
omit [Tally α] [Tally β] in
theorem CorrespondsUpTo.failure? (h : CorrespondsUpTo q r x x') (g : CallGraph)
    (mode : RecursionMode) : x'.failure? g mode = x.failure? g mode := by
  unfold Resolution.failure? unresolved
  rw [h.isResolved hq]

end Resolution

/-! ## Counts -/

namespace Invocations

variable {counts : Invocations α} {counts' : Invocations β}

include hr in
theorem count_respects (h : Entrywise r counts counts') (key : String) :
    r (counts.count key) (counts'.count key) :=
  h.getD key (hr.ofNat 1)

include hr hl in
theorem process_entrywise (g : CallGraph) (h : Entrywise r counts counts') (key : String) :
    Entrywise r (process g loops counts key) (process g loops' counts' key) := by
  have hown := count_respects hr h key
  unfold process
  split
  · exact h
  · refine List.foldl_rel (h.insert key hown) fun site _ _ _ hc => ?_
    exact FunctionTable.add_entrywise hr hc site.callee (hr.mul (hl site.node) hown)

include hr hl in
theorem ofGraph_entrywise (g : CallGraph) {x : Resolution α} {x' : Resolution β}
    (hx : x.Corresponds r x') : Entrywise r (ofGraph g loops x) (ofGraph g loops' x') := by
  unfold ofGraph processingOrder
  rw [hx.order]
  exact List.foldl_rel .empty fun key _ _ _ h => process_entrywise hr hl g h key

end Invocations

end

/-! ## Lines -/

namespace LineTable

include hr in
theorem record_entrywise (t : Tree) {cost : NodeId → α} {cost' : NodeId → β}
    (hcost : ∀ id, r (cost id) (cost' id)) {lines : LineTable α} {lines' : LineTable β}
    (h : Entrywise r lines lines') (id : NodeId) :
    Entrywise r (record t cost lines id) (record t cost' lines' id) := by
  unfold record
  simp only
  split
  · exact h
  · split
    · exact h.insertIfNew _ (hr.ofNat 0)
    · exact h.insert _ (hr.add (h.getD _ (hr.ofNat 0)) (hcost id))

include hr in
/-- Lines follow what the operations contribute to them. -/
theorem ofTree_entrywise (t : Tree) {widths : Widths} {loops : LoopCosts α} {loops' : LoopCosts β}
    {g g' : CallGraph} {counts : Invocations α} {counts' : Invocations β}
    (hcost : ∀ id, r (contribution widths loops g counts id)
      (contribution widths loops' g' counts' id)) :
    Entrywise r (ofTree t widths loops g counts) (ofTree t widths loops' g' counts') :=
  List.foldl_rel .empty fun id _ _ _ h => record_entrywise hr t hcost h id

end LineTable

/-! ## The run -/

namespace CostRun

/-- Runs with the same steps and related numbers. -/
structure Corresponds (r : α → β → Prop) (run : CostRun α) (run' : CostRun β) : Prop where
  failure : run'.failure = run.failure
  resolution : run.resolution.Corresponds r run'.resolution
  counts : Entrywise r run.counts run'.counts
  lines : Entrywise r run.lines run'.lines

include hr in
/-- Trees with the same widths, call graphs and operations have corresponding runs, once the
multipliers of their operations are related. -/
theorem ofTree_corresponds (options : CostOptions) {t t' : Tree}
    (hwidths : Widths.ofTree t' = Widths.ofTree t)
    (hgraph : CallGraph.ofTree t' options.identity = CallGraph.ofTree t options.identity)
    (horder : t'.postOrder = t.postOrder)
    (hrecord : (LineTable.record t' : (NodeId → β) → _) = LineTable.record t)
    (hl : ∀ id, r ((LoopCosts.ofTree t options.nesting).multiplier id)
      ((LoopCosts.ofTree t' options.nesting).multiplier id)) :
    Corresponds r (ofTree options t : CostRun α) (ofTree options t' : CostRun β) := by
  have hx := Resolution.ofGraph_corresponds hr hl (.ofTree t options.identity) (.ofTree t)
  unfold ofTree
  simp only [hwidths, hgraph, hx.failure? .eq]
  split
  · exact ⟨rfl, hx, .empty, .empty⟩
  · have hc := Invocations.ofGraph_entrywise hr hl (.ofTree t options.identity) hx
    refine ⟨rfl, hx, hc, ?_⟩
    unfold LineTable.ofTree
    rw [horder, hrecord]
    refine LineTable.ofTree_entrywise hr t fun id => ?_
    exact hr.mul (placeCost_respects hr hl _ id) (Invocations.count_respects hr hc _)

end CostRun

end ShaderCost
