import Mathlib.Algebra.BigOperators.Group.Finset.Basic
import ShaderCost.Proofs.Cost.ProcessingOrder
import ShaderCost.Proofs.Grammar.Items

/-! # The summation law

The cost of a shader is summed up twice. The lines sum it visit by visit: every charged operation
adds its cost, times the count of its function, to its line. The functions sum it entry by entry:
the raw cost of a function collects its operations, and is then taken as often as the function runs.
In a tree both come to the sum over all charged operations that can be reached (`total_lines`,
`weighted_raw`), because every operation is visited once and has one owner, and because operations
that are not charged have no width. In words the sums are cut off at the cap, and it makes no
difference where (`summation_law`).
-/

namespace ShaderCost

/-- An operation with a cost of its own: one that is counted and does not call a function. -/
def Node.isCharged (n : Node) : Bool := n.isOperation && n.isCounted && !n.isCall

theorem Node.isCharged_iff {n : Node} :
    n.isCharged = true ↔ n.isOperation = true ∧ n.isCounted = true ∧ n.isCall = false := by
  simp [isCharged, and_assoc]

/-! ## Widths -/

/-- Only nodes that are counted and are no calls have a width. -/
theorem Widths.getD_ofTree_of_free {t : Tree} {id : NodeId}
    (h : (t.node id).isCounted = false ∨ (t.node id).isCall = true) :
    (Widths.ofTree t).getD id 0 = 0 := by
  have hkeys : ∀ k ∈ Widths.ofTree t, (t.node k).isCounted = true ∧ (t.node k).isCall = false := by
    refine List.foldlRecOn (motive := fun w : Widths => ∀ k ∈ w,
      (t.node k).isCounted = true ∧ (t.node k).isCall = false) _ _ (fun k hk => ?_)
      fun w hw id _ k hk => ?_
    · exact absurd hk Std.TreeMap.not_mem_emptyc
    · unfold record at hk
      split at hk
      · next width hwidth =>
        rcases Std.TreeMap.mem_insert.1 hk with heq | hk
        · rw [← Std.LawfulEqOrd.compare_eq_iff_eq.1 heq]
          unfold ofNode? at hwidth
          split at hwidth
          · cases hwidth
          · next hfree => simpa using hfree
        · exact hw k hk
      · exact hw k hk
  refine Std.TreeMap.getD_eq_fallback fun hid => ?_
  obtain ⟨hcounted, hcall⟩ := hkeys id hid
  rcases h with h | h
  · rw [h] at hcounted
    cases hcounted
  · rw [h] at hcall
    cases hcall

/-! ## Owners -/

namespace CallGraph

variable {t : Tree} {identity : FunctionIdentity} {id : NodeId}

theorem owners_record (g : CallGraph) (visit : NodeId × String) :
    (record t identity g visit).owners =
      if (t.node visit.1).isOperation then g.owners.insert visit.1 visit.2 else g.owners := by
  obtain ⟨_, -, -, -, howners⟩ := record_cases t identity g visit
  exact howners

theorem mem_owners_record (g : CallGraph) (visit : NodeId × String) :
    id ∈ (record t identity g visit).owners ↔
      id ∈ g.owners ∨ (id = visit.1 ∧ (t.node id).isOperation = true) := by
  rw [owners_record]
  split
  · next hop =>
    rw [Std.TreeMap.mem_insert, Std.LawfulEqOrd.compare_eq_iff_eq]
    constructor
    · rintro (rfl | h)
      · exact Or.inr ⟨rfl, hop⟩
      · exact Or.inl h
    · rintro (h | ⟨rfl, -⟩)
      · exact Or.inr h
      · exact Or.inl rfl
  · next hop =>
    refine ⟨Or.inl, fun h => h.resolve_right ?_⟩
    rintro ⟨rfl, hid⟩
    exact hop hid

theorem mem_owners_foldl_record (visits : List (NodeId × String)) (g : CallGraph) :
    id ∈ (visits.foldl (record t identity) g).owners ↔
      id ∈ g.owners ∨ (id ∈ visits.map Prod.fst ∧ (t.node id).isOperation = true) := by
  induction visits generalizing g with
  | nil => simp
  | cons visit visits ih =>
    rw [List.foldl_cons, ih, mem_owners_record, List.map_cons, List.mem_cons, or_and_right,
      or_assoc]

/-- Every operation that is visited has an owner. -/
theorem mem_owners_ofTree : id ∈ (ofTree t identity).owners ↔
    id ∈ t.postOrder ∧ (t.node id).isOperation = true := by
  unfold ofTree
  rw [mem_owners_foldl_record, (t.walk_perm _ _).mem_iff]
  simp

/-- In a tree the operations with an owner are those that are visited, each once. -/
theorem keys_owners_perm (h : t.IsTree) (identity : FunctionIdentity) :
    (ofTree t identity).owners.keys.Perm
      (t.postOrder.filter fun id => (t.node id).isOperation) := by
  refine (List.perm_ext_iff_of_nodup Std.TreeMap.nodup_keys (h.nodup_postOrder.filter _)).2
    fun id => ?_
  rw [Std.TreeMap.mem_keys, mem_owners_ofTree, List.mem_filter]

/-- A sum over the operations with their owners. -/
theorem sum_owners (h : t.IsTree) (identity : FunctionIdentity) (amount : NodeId → String → Nat) :
    ((ofTree t identity).owners.toList.map fun e => amount e.1 e.2).sum =
      ((t.postOrder.filter fun id => (t.node id).isOperation).map fun id =>
        amount id ((ofTree t identity).owner id)).sum := by
  rw [← ((keys_owners_perm h identity).map _).sum_eq, toList_eq_map_keys _ noFunction,
    List.map_map]
  rfl

end CallGraph

/-! ## Sums in natural numbers -/

/-- Terms of zero may be left out of a sum. -/
theorem sum_filter_eq {ι : Type} {p : ι → Bool} {f : ι → Nat} {l : List ι}
    (h : ∀ i ∈ l, p i = false → f i = 0) : ((l.filter p).map f).sum = (l.map f).sum := by
  induction l with
  | nil => rfl
  | cons i l ih =>
    have ih := ih fun j hj => h j (List.mem_cons_of_mem i hj)
    rw [List.map_cons, List.sum_cons]
    cases hi : p i with
    | true => rw [List.filter_cons_of_pos hi, List.map_cons, List.sum_cons, ih]
    | false =>
      rw [List.filter_cons_of_neg (by rw [hi]; exact Bool.false_ne_true), ih,
        h i List.mem_cons_self hi, Nat.zero_add]

/-- The raw costs sum up what the operations cost, whoever owns them. -/
theorem weighted_rawCosts (w : String → Nat) (widths : Widths) (loops : LoopCosts Nat)
    (keys : List String) (owned : List (NodeId × String)) :
    weighted w (rawCosts widths loops keys owned) =
      (owned.map fun e => placeCost widths loops e.1 * w e.2).sum := by
  have htouched : weighted w (keys.foldl FunctionTable.touch ∅) = 0 :=
    List.foldlRecOn (motive := fun table => weighted w table = 0) _ _ rfl fun table h key _ => by
      rw [FunctionTable.touch, Tally.zero_nat, weighted_insertIfNew_zero, h]
  have hfold : ∀ (owned : List (NodeId × String)) (table : FunctionTable Nat),
      weighted w (owned.foldl (fun (table : FunctionTable Nat) e =>
          table.add e.2 (placeCost widths loops e.1)) table) =
        weighted w table + (owned.map fun e => placeCost widths loops e.1 * w e.2).sum := by
    intro owned
    induction owned with
    | nil => intro table; rfl
    | cons e owned ih =>
      intro table
      rw [List.foldl_cons, ih, FunctionTable.add, Tally.add_nat, Tally.zero_nat, weighted_add,
        List.map_cons, List.sum_cons, Nat.add_assoc]
  have h := hfold owned (keys.foldl FunctionTable.touch ∅)
  rw [htouched, Nat.zero_add] at h
  exact h

namespace LineTable

variable {t : Tree}

theorem total_eq_weighted (lines : LineTable Nat) :
    total lines.toList = weighted (fun _ => 1) lines := by
  have hfold : ∀ (entries : List (Int × Nat)) (sum : Nat),
      entries.foldl (fun sum e => Tally.add sum e.2) sum =
        sum + (entries.map fun e => e.2 * 1).sum := by
    intro entries
    induction entries with
    | nil => intro sum; rfl
    | cons e entries ih =>
      intro sum
      rw [List.foldl_cons, ih, Tally.add_nat, List.map_cons, List.sum_cons, Nat.mul_one,
        Nat.add_assoc]
  exact (hfold lines.toList 0).trans (Nat.zero_add _)

/-- A charged operation adds to its line; a call makes sure that it is listed. -/
theorem record_eq (cost : NodeId → Nat) (lines : LineTable Nat) (id : NodeId) :
    record t cost lines id =
      if (t.node id).isCharged then
        lines.insert (t.node id).line (lines.getD (t.node id).line 0 + cost id)
      else if (t.node id).isOperation && (t.node id).isCounted then
        lines.insertIfNew (t.node id).line 0
      else lines := by
  unfold record Node.isCharged
  simp only
  generalize t.node id = n
  cases n.isOperation <;> cases n.isCounted <;> cases n.isCall <;> rfl

/-- The lines sum up what the charged operations contribute. -/
theorem weighted_foldl_record (cost : NodeId → Nat) (visits : List NodeId) (lines : LineTable Nat) :
    weighted (fun _ => 1) (visits.foldl (record t cost) lines) = weighted (fun _ => 1) lines +
      ((visits.filter fun id => (t.node id).isCharged).map cost).sum := by
  induction visits generalizing lines with
  | nil => rfl
  | cons id visits ih =>
    rw [List.foldl_cons, ih, record_eq]
    split
    · next hcharged =>
      rw [weighted_add, List.filter_cons_of_pos (p := fun id => (t.node id).isCharged) hcharged,
        List.map_cons, List.sum_cons, Nat.mul_one, Nat.add_assoc]
    · next hfree =>
      rw [List.filter_cons_of_neg (p := fun id => (t.node id).isCharged) hfree]
      split
      · rw [weighted_insertIfNew_zero]
      · rfl

theorem mem_record (cost : NodeId → Nat) (lines : LineTable Nat) (id : NodeId) (line : Int) :
    line ∈ record t cost lines id ↔ line ∈ lines ∨ ((t.node id).isOperation = true ∧
      (t.node id).isCounted = true ∧ (t.node id).line = line) := by
  rw [record_eq]
  split
  · next hcharged =>
    obtain ⟨hop, hcounted, -⟩ := Node.isCharged_iff.1 hcharged
    rw [Std.TreeMap.mem_insert, Std.LawfulEqOrd.compare_eq_iff_eq]
    simp [hop, hcounted, or_comm]
  · split
    · next hlisted =>
      obtain ⟨hop, hcounted⟩ := Bool.and_eq_true_iff.1 hlisted
      rw [Std.TreeMap.mem_insertIfNew, Std.LawfulEqOrd.compare_eq_iff_eq]
      simp [hop, hcounted, or_comm]
    · next hfree =>
      rw [Bool.and_eq_true_iff] at hfree
      exact ⟨Or.inl, fun h => h.resolve_right fun hid => hfree ⟨hid.1, hid.2.1⟩⟩

/-- The lines that are listed. -/
theorem mem_foldl_record (cost : NodeId → Nat) (visits : List NodeId) (lines : LineTable Nat)
    (line : Int) : line ∈ visits.foldl (record t cost) lines ↔ line ∈ lines ∨
      ∃ id ∈ visits, (t.node id).isOperation = true ∧ (t.node id).isCounted = true ∧
        (t.node id).line = line := by
  induction visits generalizing lines with
  | nil => simp
  | cons id visits ih =>
    rw [List.foldl_cons, ih, mem_record, or_assoc]
    simp only [List.mem_cons, exists_eq_or_imp]

end LineTable

/-! ## The two paths in natural numbers -/

namespace CostRun

/-- What an operation costs over a whole run of the shader. -/
def charge (run : CostRun Nat) (id : NodeId) : Nat :=
  run.widths.getD id 0 * run.loops.multiplier id * run.counts.count (run.graph.owner id)

/-- The charges of the operations that are visited. -/
def charges (run : CostRun Nat) (t : Tree) : List Nat :=
  (t.postOrder.filter fun id => (t.node id).isCharged).map run.charge

variable {t : Tree} {options : CostOptions} {run : CostRun Nat}

theorem total_lines (hrun : run = .ofTree options t) (h : run.failure = none) :
    LineTable.total run.lines.toList = (run.charges t).sum := by
  subst hrun
  rw [LineTable.total_eq_weighted, ofTree_lines h, LineTable.ofTree,
    LineTable.weighted_foldl_record]
  refine (Nat.zero_add _).trans ?_
  unfold charges charge
  simp only [ofTree_widths, ofTree_loops, ofTree_graph]
  rfl

/-- Operations that are not charged have no width. -/
theorem charge_of_free (hrun : run = .ofTree options t) {id : NodeId}
    (hop : (t.node id).isOperation = true) (hfree : (t.node id).isCharged = false) :
    run.charge id = 0 := by
  have hwidth : run.widths.getD id 0 = 0 := by
    rw [hrun, ofTree_widths]
    refine Widths.getD_ofTree_of_free ?_
    unfold Node.isCharged at hfree
    rw [hop, Bool.true_and, Bool.and_eq_false_iff, Bool.not_eq_false'] at hfree
    exact hfree
  rw [charge, hwidth, Nat.zero_mul, Nat.zero_mul]

theorem weighted_raw (ht : t.IsTree) (hrun : run = .ofTree options t) :
    weighted run.counts.count run.resolution.raw = (run.charges t).sum := by
  have hcharge : ∀ id, placeCost run.widths run.loops id *
      run.counts.count ((CallGraph.ofTree t options.identity).owner id) = run.charge id := by
    intro id
    rw [charge, hrun, ofTree_graph]
    rfl
  have hraw : run.resolution.raw = rawCosts run.widths run.loops
      (CallGraph.ofTree t options.identity).functions.keys
      (CallGraph.ofTree t options.identity).owners.toList := by
    rw [hrun, ofTree_resolution, Resolution.ofGraph_raw, ofTree_widths, ofTree_loops]
  calc weighted run.counts.count run.resolution.raw
    _ = ((t.postOrder.filter fun id => (t.node id).isOperation).map run.charge).sum := by
      rw [hraw, weighted_rawCosts, CallGraph.sum_owners ht options.identity fun id key =>
        placeCost run.widths run.loops id * run.counts.count key]
      simp only [hcharge]
    _ = (((t.postOrder.filter fun id => (t.node id).isOperation).filter fun id =>
          (t.node id).isCharged).map run.charge).sum := by
      refine (sum_filter_eq fun id hid hfree => ?_).symm
      exact charge_of_free hrun (List.mem_filter.1 hid).2 hfree
    _ = (run.charges t).sum := by
      rw [charges, List.filter_filter]
      congr 3
      funext id
      unfold Node.isCharged
      cases (t.node id).isOperation <;> simp

theorem mem_lines (ht : t.IsTree) (hrun : run = .ofTree options t) (h : run.failure = none)
    (line : Int) : line ∈ run.lines ↔ ∃ id, t.Reachable id ∧ (t.node id).isOperation = true ∧
      (t.node id).isCounted = true ∧ (t.node id).line = line := by
  subst hrun
  rw [ofTree_lines h, LineTable.ofTree, LineTable.mem_foldl_record]
  simp only [ht.mem_postOrder]
  exact or_iff_right Std.TreeMap.not_mem_emptyc

end CostRun

/-! ## The law in words -/

/-- **The summation law.** For every source that is read and whose analysis does not fail, the lines
cost together what the charged operations cost that can be reached, each as often as it runs, and
what the functions cost, each as often as it runs; and the lines that are listed are those of the
counted operations that can be reached, calls among them. -/
theorem summation_law {source : Bytes} {t : Tree} (hsource : Tree.ofSource source = .ok t)
    (options : CostOptions) :
    let run : CostRun Int64 := .ofTree options t
    let total := (LineTable.total run.lines.toList).toInt
    run.failure = none →
      (∃ charged : Finset NodeId,
        (∀ id, id ∈ charged ↔ t.Reachable id ∧ (t.node id).isOperation = true ∧
          (t.node id).isCounted = true ∧ (t.node id).isCall = false) ∧
        total = min Saturating.cap.toInt (∑ id ∈ charged, (run.widths.getD id 0 : Int) *
          (run.loops.multiplier id).toInt * (run.counts.count (run.graph.owner id)).toInt)) ∧
      total = min Saturating.cap.toInt (run.resolution.raw.keys.map fun f =>
        (run.resolution.raw.getD f 0).toInt * (run.counts.count f).toInt).sum ∧
      ∀ line, line ∈ run.lines ↔ ∃ id, t.Reachable id ∧ (t.node id).isOperation = true ∧
        (t.node id).isCounted = true ∧ (t.node id).line = line := by
  intro run total hfailure
  have ht : t.IsTree := Tree.ofTokens_isTree hsource
  let ideal : CostRun Nat := .ofTree options t
  have hrel : ideal.Related Saturating.ofNat run :=
    CostRun.ofTree_related Saturating.ofNat_hom options t
  have hideal : ideal.failure = none := hrel.failure ▸ hfailure
  have hcount := Invocations.count_image Saturating.ofNat_hom hrel.counts
  have hmultiplier := hrel.loops.multiplier Saturating.ofNat_hom
  have hraw : ∀ f, run.resolution.raw.getD f 0 =
      Saturating.ofNat (ideal.resolution.raw.getD f 0) := fun f => hrel.resolution.raw.getD f 0
  have htotal : total = (Saturating.ofNat (ideal.charges t).sum).toInt := by
    rw [← CostRun.total_lines rfl hideal, ← LineTable.total_image Saturating.ofNat_hom hrel.lines]
  refine ⟨⟨(t.postOrder.filter fun id => (t.node id).isCharged).toFinset, fun id => ?_, ?_⟩, ?_, ?_⟩
  · rw [List.mem_toFinset, List.mem_filter, ht.mem_postOrder, Node.isCharged_iff]
  · rw [htotal, List.sum_toFinset _ (ht.nodup_postOrder.filter _), hrel.widths, hrel.graph]
    simp only [hcount, hmultiplier]
    exact (Saturating.Agrees.sum fun id _ =>
      ((Saturating.Agrees.natCast _).mul (.ofNat _)).mul (.ofNat _)).toInt_ofNat
  · rw [htotal, ← CostRun.weighted_raw ht rfl, weighted_eq_sum_keys, hrel.resolution.raw.keys]
    simp only [hcount, hraw]
    exact (Saturating.Agrees.sum fun f _ => (Saturating.Agrees.ofNat _).mul (.ofNat _)).toInt_ofNat
  · intro line
    rw [hrel.lines.mem_iff]
    exact CostRun.mem_lines ht rfl hideal line

/-- A function that is called in a loop. -/
def loopedCall : Bytes :=
  Bytes.ofString "int f() {return 1 + 1;}\nvoid main() {for (int i = 0; i < 3; i++) f();}"

/-- The sum and the step of the loop each run three times. -/
theorem summation_law_loopedCall : ∃ t, Tree.ofSource loopedCall = .ok t ∧
    (CostRun.ofTree {} t : CostRun Int64).failure = none ∧
    (LineTable.total (CostRun.ofTree {} t : CostRun Int64).lines.toList).toInt = 6 := by
  let t : Tree := (Tree.ofSource loopedCall).toOption.getD .empty
  have heval : (Tree.ofSource loopedCall).isOk = true ∧
      (CostRun.ofTree {} t : CostRun Int64).failure = none ∧
      ((CostRun.ofTree {} t : CostRun Int64).resolution.raw.keys.map fun f =>
        ((CostRun.ofTree {} t : CostRun Int64).resolution.raw.getD f 0).toInt *
          ((CostRun.ofTree {} t : CostRun Int64).counts.count f).toInt).sum = 6 := by
    simp only [CostRun.ofTree, Resolution.ofGraph, Resolution.unresolved, Resolution.failure?,
      Resolution.callersOf, Invocations.ofGraph, processingOrder, calledLeaves,
      sortKeys_eq_insertionSort]
    decide +kernel
  obtain ⟨hok, hfailure, hsum⟩ := heval
  have hsource : Tree.ofSource loopedCall = .ok t := Tree.ofSource_of_isOk hok
  refine ⟨t, hsource, hfailure, ?_⟩
  rw [(summation_law hsource {} hfailure).2.1, hsum]
  decide

end ShaderCost
