import Mathlib.Algebra.BigOperators.Ring.Finset
import Mathlib.Algebra.Order.BigOperators.Group.Finset
import ShaderCost.Proofs.Cost.Invocations
import ShaderCost.Proofs.Cost.Summation

/-! # The cost at the roots

A root is a function that no call site names. Costs are folded up towards the roots, once for each
call site; counts are pushed down from them, each call site as often as its loops say. Both count
the paths of the call graph, but no path has to be followed: weigh the cost of every function by its
count, and what the callers take over from their callees is what the callees receive from their
callers (`sum_callees_mul`). What is left of the sum is the cost of the roots on one side and the
raw costs times the counts on the other, which is the total of the lines.

A call in a loop takes over the cost of its callee once but runs it more often, so in general the
roots cost at most as much as the lines (`root_costs_le_total`).
-/

namespace ShaderCost

/-! ## Call sites are calls -/

theorem Node.isOperation_of_isCall {n : Node} (h : n.isCall = true) : n.isOperation = true := by
  simp only [isCall, Bool.and_eq_true, beq_iff_eq] at h
  simp [isOperation, h.1, NodeKind.isOperation]

theorem Node.form_of_isCall {n : Node} (h : n.isCall = true) : n.form = .aggregate := by
  simp only [isCall, kind, Bool.and_eq_true, beq_iff_eq] at h
  cases hform : n.form <;> simp_all [NodeForm.kind]

namespace CallGraph

variable {t : Tree} {identity : FunctionIdentity} {g : CallGraph}

/-- The call sites of a tree are visited calls. -/
theorem mem_callSites_ofTree {k : String} {site : CallSite}
    (h : site ∈ (ofTree t identity).callSites k) :
    site.node ∈ t.postOrder ∧ (t.node site.node).isCall = true := by
  rw [callSites_ofTree] at h
  obtain ⟨v, hv, rfl⟩ := List.mem_map.1 h
  obtain ⟨hvisit, hcall⟩ := List.mem_filter.1 (List.mem_filter.1 hv).1
  exact ⟨(t.walk_perm _ _).mem_iff.1 (List.mem_map_of_mem hvisit), hcall⟩

end CallGraph

/-! ## Operations run at least once -/

theorem Nesting.multiplier_pos (s : Nesting Nat) : 0 < s.multiplier := by
  unfold multiplier
  split
  · exact Nat.one_pos
  · next h =>
    apply Nat.pos_of_ne_zero
    intro hzero
    exact h (beq_iff_eq.2 hzero)

namespace LoopCosts

variable {t : Tree} {policy : NestingPolicy} {id : NodeId}

/-- Recording a node leaves a positive multiplier positive, and gives one to a call. -/
theorem record_multiplier_pos {loops : LoopCosts Nat} {visit : NodeId × Nesting Nat}
    (h : 0 < loops.multiplier id ∨ (id = visit.1 ∧ (t.node id).isCall = true)) :
    0 < (record t policy loops visit).multiplier id := by
  have hinsert : ∀ value, 0 < value → (0 < loops.multiplier id ∨ id = visit.1) →
      0 < (loops.multipliers.insert visit.1 value).getD id 0 := by
    intro value hvalue h
    rw [Std.TreeMap.getD_insert]
    split
    · exact hvalue
    · next hne =>
      refine h.resolve_right fun heq => hne ?_
      rw [heq, Std.LawfulEqOrd.compare_eq_iff_eq]
  have hold : (t.node visit.1).isCall = false → 0 < loops.multiplier id := by
    intro hcall
    refine h.resolve_right ?_
    rintro ⟨rfl, hid⟩
    rw [hcall] at hid
    cases hid
  unfold record
  simp only
  split
  · next parts hform =>
    apply hold
    cases hcall : (t.node visit.1).isCall with
    | false => rfl
    | true =>
      rw [Node.form_of_isCall hcall] at hform
      cases hform
  · split
    · exact hinsert _ visit.2.multiplier_pos (h.imp_right And.left)
    · next hop =>
      apply hold
      cases hcall : (t.node visit.1).isCall with
      | false => rfl
      | true => exact absurd (Node.isOperation_of_isCall hcall) hop

/-- A call that is visited runs at least once for each run of its function. -/
theorem multiplier_pos (hvisit : id ∈ t.postOrder) (hcall : (t.node id).isCall = true) :
    0 < (ofTree t policy : LoopCosts Nat).multiplier id := by
  have hfold : ∀ (visits : List (NodeId × Nesting Nat)) (loops : LoopCosts Nat),
      0 < loops.multiplier id ∨ id ∈ visits.map Prod.fst →
        0 < (visits.foldl (record t policy) loops).multiplier id := by
    intro visits
    induction visits with
    | nil => intro loops h; simpa using h
    | cons visit visits ih =>
      intro loops h
      rw [List.foldl_cons]
      apply ih
      rw [List.map_cons, List.mem_cons] at h
      rcases h with h | h | h
      · exact Or.inl (record_multiplier_pos (Or.inl h))
      · exact Or.inl (record_multiplier_pos (Or.inr ⟨h, hcall⟩))
      · exact Or.inr h
  apply hfold
  right
  exact (t.walk_perm _ _).mem_iff.2 hvisit

end LoopCosts

/-! ## Callers and callees -/

namespace CallGraph

variable {g : CallGraph} {keys : Finset String}

theorem length_sitesFrom (k f : String) :
    (g.sitesFrom k f).length = (g.callees k).count f := by
  rw [sitesFrom, callees, List.count, List.countP_map, List.countP_eq_length_filter]
  rfl

/-- What the callees of a function cost together, callee by callee. -/
theorem sum_callees (hg : g.WellFormed) (hkeys : ∀ k, k ∈ g.functions → k ∈ keys)
    (cost : String → Nat) (k : String) :
    ((g.callees k).map cost).sum = ∑ f ∈ keys, (g.callees k).count f * cost f := by
  have hsub : (g.callees k).toFinset ⊆ keys := by
    intro f hf
    exact hkeys f (hg.callee_mem (List.mem_toFinset.1 hf))
  rw [Finset.sum_list_map_count]
  refine Finset.sum_subset hsub fun f _ hf => ?_
  rw [List.count_eq_zero_of_not_mem (mt List.mem_toFinset.2 hf), zero_nsmul]

/-- What a function receives from its callers, caller by caller. -/
theorem sum_callers (hkeys : ∀ k, k ∈ g.functions → k ∈ keys) (count : String → Nat) (f : String) :
    ((g.sitesTo f).map fun s => count s.1).sum = ∑ k ∈ keys, (g.callees k).count f * count k := by
  have hsub : g.functions.keys.toFinset ⊆ keys := by
    intro k hk
    exact hkeys k (Std.TreeMap.mem_keys.1 (List.mem_toFinset.1 hk))
  have hshare : ∀ k, ((g.sitesFrom k f).map fun _ => count k).sum =
      (g.callees k).count f * count k := by
    intro k
    rw [List.map_const', List.sum_replicate, length_sitesFrom, nsmul_eq_mul, Nat.cast_id]
  rw [g.sum_sitesTo f fun k _ => count k, ← List.sum_toFinset _ Std.TreeMap.nodup_keys]
  simp only [hshare]
  refine Finset.sum_subset hsub fun k _ hk => ?_
  have hnil : g.callSites k = [] := by
    by_contra hne
    rw [List.mem_toFinset, Std.TreeMap.mem_keys] at hk
    exact hk (mem_functions_of_callSites hne)
  rw [callees, hnil, List.map_nil, List.count_nil, Nat.zero_mul]

/-- Every call site is counted twice: what the callers take over from their callees, each as often
as it runs, is what the callees receive from their callers, each at its cost. -/
theorem sum_callees_mul (hg : g.WellFormed) (hkeys : ∀ k, k ∈ g.functions → k ∈ keys)
    (cost count : String → Nat) :
    ∑ k ∈ keys, ((g.callees k).map cost).sum * count k =
      ∑ f ∈ keys, cost f * ((g.sitesTo f).map fun s => count s.1).sum := by
  simp only [sum_callees hg hkeys, sum_callers hkeys, Finset.sum_mul, Finset.mul_sum]
  rw [Finset.sum_comm]
  refine Finset.sum_congr rfl fun f _ => Finset.sum_congr rfl fun k _ => ?_
  rw [Nat.mul_assoc, Nat.mul_left_comm]

end CallGraph

/-! ## Roots -/

/-- The functions with a cost that no call site names. -/
def CostRun.roots {α : Type} (run : CostRun α) : List String :=
  run.resolution.costs.keys.filter fun f => (run.graph.sitesTo f).isEmpty

namespace CostRun

variable {t : Tree} {options : CostOptions} {run : CostRun Nat}

/-- The cost of a function is its raw cost and what it takes over. A key outside the graph has no
call sites and keeps its raw cost. -/
theorem cost_eq (hrun : run = .ofTree options t)
    (hall : run.resolution.unresolved run.graph = []) (k : String) :
    run.resolution.costs.getD k 0 = run.resolution.raw.getD k 0 +
      ((run.graph.callees k).map fun c => run.resolution.costs.getD c 0).sum := by
  have hbalanced : run.resolution.Balanced run.graph := by
    rw [hrun, ofTree_graph, ofTree_resolution]
    exact Resolution.ofGraph_balanced (CallGraph.ofTree_wellFormed t options.identity) _ _
  cases hk : run.resolution.isResolved k with
  | true => exact hbalanced.settled k hk
  | false =>
    have hnil : run.graph.callSites k = [] := by
      by_contra hne
      have hmem := Resolution.mem_unresolved.2 ⟨hne, hk⟩
      rw [hall] at hmem
      cases hmem
    rw [CallGraph.callees, hnil, Std.TreeMap.getD_eq_getD_getElem?, hbalanced.unsettled k hk,
      ← Std.TreeMap.getD_eq_getD_getElem?]
    rfl

/-- Every function of the graph and every owner of an operation has a cost. -/
theorem mem_costs (hrun : run = .ofTree options t) {k : String}
    (h : k ∈ run.graph.functions ∨ k ∈ run.resolution.raw) : k ∈ run.resolution.costs := by
  subst hrun
  rw [ofTree_graph, ofTree_resolution] at h
  rw [ofTree_resolution]
  have hbalanced := Resolution.ofGraph_balanced (CallGraph.ofTree_wellFormed t options.identity)
    (Widths.ofTree t) (.ofTree t options.nesting)
  apply hbalanced.entry
  rcases h with h | h
  · rw [Resolution.ofGraph_raw]
    exact mem_rawCosts (Std.TreeMap.mem_keys.2 h)
  · exact h

/-- The raw costs, each as often as its function runs, over all functions with a cost. -/
theorem sum_raw_mul_count (hrun : run = .ofTree options t) (ht : t.IsTree) :
    ∑ k ∈ run.resolution.costs.keys.toFinset,
      run.resolution.raw.getD k 0 * run.counts.count k = (run.charges t).sum := by
  have hsub : run.resolution.raw.keys.toFinset ⊆ run.resolution.costs.keys.toFinset := by
    intro k hk
    rw [List.mem_toFinset, Std.TreeMap.mem_keys] at hk ⊢
    exact mem_costs hrun (Or.inr hk)
  rw [← weighted_raw ht hrun, weighted_eq_sum_keys, ← List.sum_toFinset _ Std.TreeMap.nodup_keys]
  refine (Finset.sum_subset hsub fun k _ hk => ?_).symm
  rw [List.mem_toFinset, Std.TreeMap.mem_keys] at hk
  rw [Std.TreeMap.getD_eq_fallback hk, Nat.zero_mul]

/-- What a call site passes on is at least the count of its caller. -/
theorem site_multiplier_pos (hrun : run = .ofTree options t) {k : String} {site : CallSite}
    (h : (k, site) ∈ run.graph.recorded) : 0 < run.loops.multiplier site.node := by
  subst hrun
  rw [ofTree_graph, CallGraph.mem_recorded] at h
  rw [ofTree_loops]
  obtain ⟨hvisit, hcall⟩ := CallGraph.mem_callSites_ofTree h
  exact LoopCosts.multiplier_pos hvisit hcall

/-- How often the callers of a function run, once for each call site. -/
def received (run : CostRun Nat) (f : String) : Nat :=
  ((run.graph.sitesTo f).map fun s => run.counts.count s.1).sum

/-- Costs weighed by counts: the raw costs, and what is passed from callers to callees. -/
theorem sum_cost_mul_count (hrun : run = .ofTree options t) (ht : t.IsTree)
    (hall : run.resolution.unresolved run.graph = []) :
    ∑ k ∈ run.resolution.costs.keys.toFinset,
        run.resolution.costs.getD k 0 * run.counts.count k =
      (run.charges t).sum + ∑ f ∈ run.resolution.costs.keys.toFinset,
        run.resolution.costs.getD f 0 * run.received f := by
  have hg : run.graph.WellFormed := by
    rw [hrun, ofTree_graph]
    exact CallGraph.ofTree_wellFormed t options.identity
  have hkeys : ∀ k, k ∈ run.graph.functions → k ∈ run.resolution.costs.keys.toFinset := by
    intro k hk
    rw [List.mem_toFinset, Std.TreeMap.mem_keys]
    exact mem_costs hrun (Or.inl hk)
  unfold received
  rw [← sum_raw_mul_count hrun ht, ← CallGraph.sum_callees_mul hg hkeys, ← Finset.sum_add_distrib]
  refine Finset.sum_congr rfl fun k _ => ?_
  rw [← Nat.add_mul, ← cost_eq hrun hall]

theorem sum_roots (run : CostRun Nat) (cost : String → Nat) :
    (run.roots.map cost).sum =
      ∑ f ∈ run.resolution.costs.keys.toFinset, if run.graph.sitesTo f = [] then cost f else 0 := by
  rw [roots, ← List.sum_toFinset _ (Std.TreeMap.nodup_keys.filter _), List.toFinset_filter,
    Finset.sum_filter]
  simp only [List.isEmpty_iff]

/-- A root counts once, and any other function as often as its call sites run. -/
theorem count_eq (hrun : run = .ofTree options t)
    (hall : run.resolution.unresolved run.graph = []) (f : String) :
    run.counts.count f = (if run.graph.sitesTo f = [] then 1 else 0) +
      ((run.graph.sitesTo f).map fun s =>
        run.loops.multiplier s.2.node * run.counts.count s.1).sum := by
  obtain ⟨hone, hsum⟩ := counts_ideal hrun hall f
  split
  · next hroot => rw [hone hroot, hroot, List.map_nil, List.sum_nil, Nat.add_zero]
  · next hcalled => rw [hsum hcalled, Nat.zero_add]

/-- Call sites run at least as often as they are met. -/
theorem received_le (hrun : run = .ofTree options t) (f : String) :
    run.received f ≤ ((run.graph.sitesTo f).map fun s =>
      run.loops.multiplier s.2.node * run.counts.count s.1).sum := by
  apply List.sum_le_sum
  rintro ⟨k, site⟩ hs
  exact Nat.le_mul_of_pos_left _ (site_multiplier_pos hrun (List.mem_filter.1 hs).1)

theorem received_eq (honce : ∀ s ∈ run.graph.recorded, run.loops.multiplier s.2.node = 1)
    (f : String) : run.received f = ((run.graph.sitesTo f).map fun s =>
      run.loops.multiplier s.2.node * run.counts.count s.1).sum := by
  unfold received
  congr 1
  apply List.map_congr_left
  intro s hs
  rw [honce s (List.mem_filter.1 hs).1, Nat.one_mul]

/-- What the roots cost, with what the functions receive at their costs. -/
theorem sum_roots_add (run : CostRun Nat) (cost : String → Nat) :
    (run.roots.map cost).sum + ∑ f ∈ run.resolution.costs.keys.toFinset, cost f * run.received f =
      ∑ f ∈ run.resolution.costs.keys.toFinset,
        cost f * ((if run.graph.sitesTo f = [] then 1 else 0) + run.received f) := by
  rw [sum_roots, ← Finset.sum_add_distrib]
  refine Finset.sum_congr rfl fun f _ => ?_
  split <;> simp [Nat.mul_add]

theorem sum_roots_le (hrun : run = .ofTree options t) (ht : t.IsTree)
    (hall : run.resolution.unresolved run.graph = []) :
    (run.roots.map fun r => run.resolution.costs.getD r 0).sum ≤ (run.charges t).sum := by
  have hle : (run.roots.map fun r => run.resolution.costs.getD r 0).sum +
      ∑ f ∈ run.resolution.costs.keys.toFinset, run.resolution.costs.getD f 0 * run.received f ≤
        ∑ f ∈ run.resolution.costs.keys.toFinset,
          run.resolution.costs.getD f 0 * run.counts.count f := by
    rw [sum_roots_add]
    apply Finset.sum_le_sum
    intro f _
    rw [count_eq hrun hall f]
    exact Nat.mul_le_mul_left _ (Nat.add_le_add_left (received_le hrun f) _)
  rw [sum_cost_mul_count hrun ht hall] at hle
  exact Nat.le_of_add_le_add_right hle

theorem sum_roots_eq (hrun : run = .ofTree options t) (ht : t.IsTree)
    (hall : run.resolution.unresolved run.graph = [])
    (honce : ∀ s ∈ run.graph.recorded, run.loops.multiplier s.2.node = 1) :
    (run.roots.map fun r => run.resolution.costs.getD r 0).sum = (run.charges t).sum := by
  have heq := sum_roots_add run fun f => run.resolution.costs.getD f 0
  have hcount : ∀ f, (if run.graph.sitesTo f = [] then 1 else 0) + run.received f =
      run.counts.count f := by
    intro f
    rw [count_eq hrun hall f, received_eq honce f]
  simp only [hcount, sum_cost_mul_count hrun ht hall] at heq
  exact Nat.add_right_cancel heq

end CostRun

/-- A word that counts one stands for one. -/
theorem Saturating.ofNat_eq_one {n : Nat} (h : Saturating.ofNat n = 1) : n = 1 := by
  have hcap := toInt_cap
  have hint := congrArg Int64.toInt h
  rw [toInt_ofNat, show (1 : Int64).toInt = 1 from rfl] at hint
  omega

/-- **Every cost is accounted for at the roots.** For every source that is read and whose functions
do not call each other in a circle, the roots cost together, cut off at the cap, at most what the
lines cost; and exactly that where no call stands in a loop that repeats it. -/
theorem root_costs_le_total {source : Bytes} {t : Tree} (hsource : Tree.ofSource source = .ok t)
    (options : CostOptions) :
    let run : CostRun Int64 := .ofTree options t
    let rootCost := min Saturating.cap.toInt
      (run.roots.map fun r => (run.resolution.costs.getD r 0).toInt).sum
    let total := (LineTable.total run.lines.toList).toInt
    (¬ ∃ f, Relation.TransGen run.graph.Calls f f) →
      rootCost ≤ total ∧
      ((∀ id, t.Reachable id → (t.node id).isCall = true → run.loops.multiplier id = 1) →
        rootCost = total) := by
  intro run rootCost total hacyclic
  have ht : t.IsTree := Tree.ofTokens_isTree hsource
  let ideal : CostRun Nat := .ofTree options t
  have hrel : ideal.Related Saturating.ofNat run :=
    CostRun.ofTree_related Saturating.ofNat_hom options t
  have hall : ideal.resolution.unresolved ideal.graph = [] := by
    by_contra hne
    have hgraph : run.graph = CallGraph.ofTree t options.identity := CostRun.ofTree_graph _ _
    rw [CostRun.ofTree_graph, CostRun.ofTree_resolution, ← ne_eq,
      Resolution.ofGraph_unresolved_ne_nil_iff (CallGraph.ofTree_wellFormed t options.identity),
      ← hgraph] at hne
    exact hacyclic hne
  have hideal : ideal.failure = none := by
    rw [CostRun.ofTree_failure]
    exact Resolution.failure?_of_resolved hall _
  have htotal : total = (Saturating.ofNat (ideal.charges t).sum).toInt := by
    rw [← CostRun.total_lines rfl hideal, ← LineTable.total_image Saturating.ofNat_hom hrel.lines]
  have hroots : run.roots = ideal.roots := by
    unfold CostRun.roots
    rw [hrel.graph, hrel.resolution.costs.keys]
  have hcost : ∀ f, run.resolution.costs.getD f 0 =
      Saturating.ofNat (ideal.resolution.costs.getD f 0) := fun f => hrel.resolution.costs.getD f 0
  have hrootCost : rootCost = (Saturating.ofNat
      (ideal.roots.map fun r => ideal.resolution.costs.getD r 0).sum).toInt := by
    simp only [rootCost, hroots, hcost]
    exact (Saturating.Agrees.toInt_ofNat (Saturating.Agrees.sum fun f _ => .ofNat _)).symm
  constructor
  · have hle : (ideal.roots.map fun r => ideal.resolution.costs.getD r 0).sum ≤
        (ideal.charges t).sum := CostRun.sum_roots_le rfl ht hall
    rw [hrootCost, htotal, Saturating.toInt_ofNat, Saturating.toInt_ofNat]
    omega
  · intro honce
    rw [hrootCost, htotal, CostRun.sum_roots_eq rfl ht hall]
    rintro ⟨k, site⟩ hs
    rw [CallGraph.mem_recorded, CostRun.ofTree_graph] at hs
    obtain ⟨hvisit, hcall⟩ := CallGraph.mem_callSites_ofTree hs
    have hword := honce site.node (ht.mem_postOrder.1 hvisit) hcall
    rw [hrel.loops.multiplier Saturating.ofNat_hom] at hword
    exact Saturating.ofNat_eq_one hword

/-- Two roots and code outside all functions, above a function that is reached by several paths. -/
def sharedBelowRoots : Bytes :=
  Bytes.ofString ("float g = 1.0 / 3.0;\nfloat d() {return g * g;}\n" ++
    "float b() {return d() + d();}\nfloat c() {return d() - 1.0;}\n" ++
    "float spare() {return b();}\nvoid main() {b(); c();}")

/-- The square runs five times, the quotient and the difference once. -/
theorem root_costs_sharedBelowRoots : ∃ t, Tree.ofSource sharedBelowRoots = .ok t ∧
    let run : CostRun Int64 := .ofTree {} t
    run.roots = ["(no_function)", "main", "spare"] ∧
      (run.roots.map fun r => (run.resolution.costs.getD r 0).toInt) = [1, 4, 2] ∧
      (LineTable.total run.lines.toList).toInt = 7 := by
  let t : Tree := (Tree.ofSource sharedBelowRoots).toOption.getD .empty
  have heval : (Tree.ofSource sharedBelowRoots).isOk = true ∧
      (CostRun.ofTree {} t : CostRun Int64).resolution.unresolved
        (CostRun.ofTree {} t : CostRun Int64).graph = [] ∧
      (∀ id ∈ t.postOrder, (t.node id).isCall = true →
        (CostRun.ofTree {} t : CostRun Int64).loops.multiplier id = 1) ∧
      (CostRun.ofTree {} t : CostRun Int64).roots = ["(no_function)", "main", "spare"] ∧
      ((CostRun.ofTree {} t : CostRun Int64).roots.map fun r =>
        ((CostRun.ofTree {} t : CostRun Int64).resolution.costs.getD r 0).toInt) = [1, 4, 2] := by
    simp only [CostRun.ofTree_graph, CostRun.ofTree_loops, CostRun.ofTree_resolution, CostRun.roots,
      Resolution.ofGraph, Resolution.unresolved, Resolution.callersOf, sortKeys_eq_insertionSort]
    decide +kernel
  obtain ⟨hok, hall, honce, hroots, hcosts⟩ := heval
  have hsource : Tree.ofSource sharedBelowRoots = .ok t := Tree.ofSource_of_isOk hok
  have ht : t.IsTree := Tree.ofTokens_isTree hsource
  generalize t = t at hall honce hroots hcosts hsource ht
  have hacyclic :
      ¬ ∃ f, Relation.TransGen (CostRun.ofTree {} t : CostRun Int64).graph.Calls f f := by
    rw [CostRun.ofTree_graph, CostRun.ofTree_resolution] at hall
    rw [CostRun.ofTree_graph]
    intro hcircle
    have hg := CallGraph.ofTree_wellFormed t ({} : CostOptions).identity
    exact (Resolution.ofGraph_unresolved_ne_nil_iff hg).2 hcircle hall
  refine ⟨t, hsource, hroots, hcosts, ?_⟩
  rw [← (root_costs_le_total hsource {} hacyclic).2 fun id hid => honce id (ht.mem_postOrder.2 hid),
    hcosts]
  decide

end ShaderCost
