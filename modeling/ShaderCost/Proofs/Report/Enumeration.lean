import ShaderCost.Analysis.Source
import ShaderCost.Proofs.Cost.Correspondence
import ShaderCost.Proofs.Cost.ProcessingOrder
import ShaderCost.Proofs.Grammar.ShaderSteps

/-! # Results do not depend on how tables are listed

The analysis and its summary take an `Enumeration`, which chooses an order at each place where they
go through a table. Whatever the choices are, the results are those of the stored orders
(`results_same_in_any_order`). There are three reasons: saturating sums can be reordered
(`Saturating.add_right_comm`), keys are sorted before their order matters (`sortKeys_eq_of_perm`),
and functions and lines are ranked by orders in which no two entries of one table tie
(`mergeSort_eq_of_perm`).
-/

namespace ShaderCost

/-! ## Sums -/

/-- Saturating sums can be reordered, whatever is summed. -/
theorem Saturating.add_right_comm (a b c : Int64) :
    Saturating.add (Saturating.add a b) c = Saturating.add (Saturating.add a c) b := by
  have hcap := toInt_cap
  apply Int64.toInt_inj.1
  simp only [toInt_add]
  omega

theorem Saturating.max_cases (a b : Int64) :
    a ≤ max a b ∧ b ≤ max a b ∧ (max a b = a ∨ max a b = b) := by
  have hmax : max a b = if a ≤ b then b else a := rfl
  rw [hmax]
  split
  · next h => exact ⟨h, Int64.le_refl b, Or.inr rfl⟩
  · next h => exact ⟨Int64.le_refl a, Int64.le_of_lt (Int64.not_le.1 h), Or.inl rfl⟩

namespace FunctionTable

/-- An addition, seen from the entry under `k`. -/
def addTo (k key : String) (amount : Int64) (entry : Option Int64) : Option Int64 :=
  if key = k then some (Saturating.add (entry.getD 0) amount) else entry

/-- A new entry of zero, seen from the entry under `k`. -/
def touchTo (k key : String) (entry : Option Int64) : Option Int64 :=
  if key = k then some (entry.getD 0) else entry

theorem getElem?_add (table : FunctionTable Int64) (key : String) (amount : Int64) (k : String) :
    (table.add key amount)[k]? = addTo k key amount table[k]? := by
  unfold add addTo
  simp only [Std.TreeMap.getElem?_insert, Std.LawfulEqOrd.compare_eq_iff_eq]
  split
  · next hk =>
    rw [Std.TreeMap.getD_eq_getD_getElem?, hk]
    rfl
  · rfl

theorem getElem?_touch (table : FunctionTable Int64) (key k : String) :
    (table.touch key)[k]? = touchTo k key table[k]? := by
  unfold touch touchTo
  simp only [Std.TreeMap.getElem?_insertIfNew, Std.LawfulEqOrd.compare_eq_iff_eq,
    Std.TreeMap.mem_iff_isSome_getElem?]
  by_cases hk : key = k
  · subst hk
    cases table[key]? with
    | none => simp [Tally.zero, Tally.ofNat, Saturating.ofNat]
    | some cost => simp
  · simp only [hk, false_and, if_false]

theorem addTo_comm (k key key' : String) (a b : Int64) (entry : Option Int64) :
    addTo k key' b (addTo k key a entry) = addTo k key a (addTo k key' b entry) := by
  unfold addTo
  split
  · split
    · rw [Option.getD_some, Option.getD_some, Saturating.add_right_comm]
    · rfl
  · rfl

theorem touchTo_comm (k key key' : String) (entry : Option Int64) :
    touchTo k key' (touchTo k key entry) = touchTo k key (touchTo k key' entry) := by
  unfold touchTo
  split
  · split <;> rfl
  · rfl

end FunctionTable

/-- Under each key the raw costs are folded over that entry alone. -/
theorem getElem?_rawCosts (widths : Widths) (loops : LoopCosts Int64) (keys : List String)
    (owned : List (NodeId × String)) (k : String) :
    (rawCosts widths loops keys owned)[k]? =
      owned.foldl (fun entry o => FunctionTable.addTo k o.2 (placeCost widths loops o.1) entry)
        (keys.foldl (fun entry key => FunctionTable.touchTo k key entry) none) := by
  have htouched : (keys.foldl FunctionTable.touch (∅ : FunctionTable Int64))[k]? =
      keys.foldl (fun entry key => FunctionTable.touchTo k key entry)
        (∅ : FunctionTable Int64)[k]? :=
    (List.foldl_hom (fun table : FunctionTable Int64 => table[k]?) fun table key =>
      (FunctionTable.getElem?_touch table key k).symm).symm
  rw [Std.TreeMap.getElem?_emptyc] at htouched
  rw [← htouched]
  exact (List.foldl_hom (fun table : FunctionTable Int64 => table[k]?) fun table o =>
    (FunctionTable.getElem?_add table o.2 _ k).symm).symm

/-- The raw costs are the same for functions and operations in any order. -/
theorem rawCosts_equiv (widths : Widths) (loops : LoopCosts Int64) {keys keys' : List String}
    {owned owned' : List (NodeId × String)} (hkeys : keys.Perm keys') (howned : owned.Perm owned') :
    (rawCosts widths loops keys owned).Equiv (rawCosts widths loops keys' owned') := by
  -- insertions into a table commute only in what they leave under each key
  refine Std.TreeMap.Equiv.of_forall_constGet?_eq fun k => ?_
  rw [getElem?_rawCosts, getElem?_rawCosts,
    hkeys.foldl_eq' fun _ _ _ _ _ => FunctionTable.touchTo_comm ..]
  exact howned.foldl_eq' (fun _ _ _ _ _ => FunctionTable.addTo_comm ..) _

/-- A table read off the entries of another is the same table. -/
theorem ofList_equiv {m : FunctionTable Int64} {entries : List (String × Int64)}
    (h : entries.Perm m.toList) : (Std.TreeMap.ofList entries).Equiv m := by
  refine Std.TreeMap.Equiv.of_forall_constGet?_eq fun k => ?_
  have hdistinct : entries.Pairwise fun a b => ¬ compare a.1 b.1 = .eq :=
    h.symm.pairwise Std.TreeMap.distinct_keys_toList fun hab hba =>
      hab (Std.OrientedCmp.eq_symm hba)
  cases hk : m[k]? with
  | some v =>
    have hmem : (k, v) ∈ entries := h.mem_iff.2 (Std.TreeMap.mem_toList_iff_getElem?_eq_some.2 hk)
    exact Std.TreeMap.getElem?_ofList_of_mem Std.ReflCmp.compare_self hdistinct hmem
  | none =>
    refine Std.TreeMap.getElem?_ofList_of_contains_eq_false ?_
    rw [← Bool.not_eq_true, List.contains_iff_mem]
    intro hmem
    obtain ⟨⟨k', v⟩, hentry, rfl⟩ := List.mem_map.1 hmem
    have hentry := Std.TreeMap.mem_toList_iff_getElem?_eq_some.1 (h.mem_iff.1 hentry)
    rw [hk] at hentry
    cases hentry

theorem entrywise_eq_iff {κ α : Type} [Ord κ] [Std.TransOrd κ] [Std.LawfulEqOrd κ]
    {m m' : Std.TreeMap κ α} : Entrywise (· = ·) m m' ↔ m'.Equiv m := by
  constructor
  · intro h
    refine Std.TreeMap.Equiv.of_forall_constGet?_eq fun k => ?_
    rcases h.entries k with ⟨a, b, ha, hb, rfl⟩ | ⟨ha, hb⟩
    · rw [ha, hb]
    · rw [ha, hb]
  · intro h k
    rw [h.getElem?_eq]
    cases m[k]? with
    | none => exact .none
    | some v => exact .some rfl

theorem Tally.Respects.eq {α : Type} [Tally α] : Tally.Respects fun a b : α => a = b where
  ofNat _ := rfl
  add := by
    rintro a b _ _ rfl rfl
    rfl
  mul := by
    rintro a b _ _ rfl rfl
    rfl

/-! ## Sorting -/

/-- Entries that no order ties are sorted in one way. -/
theorem mergeSort_eq_of_perm {α : Type} {le : α → α → Bool}
    (htrans : ∀ a b c, le a b = true → le b c = true → le a c = true)
    (htotal : ∀ a b, (le a b || le b a) = true) {l l' : List α} (h : l.Perm l')
    (hanti : ∀ a ∈ l, ∀ b ∈ l, le a b = true → le b a = true → a = b) :
    l.mergeSort le = l'.mergeSort le := by
  refine List.Perm.eq_of_pairwise ?_ (List.pairwise_mergeSort htrans htotal l)
    (List.pairwise_mergeSort htrans htotal l') ?_
  · intro a b ha hb
    rw [List.mem_mergeSort] at ha hb
    exact hanti a ha b (h.mem_iff.2 hb)
  · exact ((List.mergeSort_perm l le).trans h).trans (List.mergeSort_perm l' le).symm

theorem sortKeys_eq_of_perm {keys keys' : List String} (h : keys.Perm keys') :
    sortKeys keys = sortKeys keys' := by
  refine mergeSort_eq_of_perm (fun a b c hab hbc => ?_) (fun a b => ?_) h fun a _ b _ hab hba => ?_
  · simp only [decide_eq_true_eq] at *
    exact hab.trans hbc
  · simpa using le_total a b
  · simp only [decide_eq_true_eq] at *
    exact le_antisymm hab hba

/-- The entries of a table are known by their keys, in whatever order they come. -/
theorem Listing.eq_of_fst_eq {κ α : Type} [Ord κ] [Std.TransOrd κ] [Std.LawfulEqOrd κ]
    (listing : Listing (κ × α)) (m : Std.TreeMap κ α) :
    ∀ a ∈ listing.list m.toList, ∀ b ∈ listing.list m.toList, a.1 = b.1 → a = b := by
  intro a ha b hb h
  rw [(listing.perm _).mem_iff, Std.TreeMap.mem_toList_iff_getElem?_eq_some] at ha hb
  rw [h, hb] at ha
  exact Prod.ext h (Option.some.inj ha).symm

/-! ## The run -/

namespace Enumeration

variable (e : Enumeration Int64) (g : CallGraph)

theorem callersOf_eq : Resolution.callersOf (e.functions.list g.functions.toList) =
    Resolution.callersOf g.functions.toList :=
  sortKeys_eq_of_perm (((e.functions.perm _).filter _).map _)

theorem setAside_equiv (costs : FunctionTable Int64) : (e.setAside costs).Equiv costs := by
  unfold setAside
  split
  · exact .rfl
  · next listing _ => exact ofList_equiv (listing.perm _)

theorem start_resolved_equiv (widths : Widths) (loops : LoopCosts Int64) :
    (Resolution.start g widths loops e).resolved.Equiv
      (Resolution.start g widths loops).resolved := by
  refine Std.TreeSet.Equiv.of_forall_contains_eq fun key => Bool.eq_iff_iff.2 ?_
  have hperm : (Resolution.leavesOf (e.functions.list g.functions.toList)).Perm
      (Resolution.leavesOf g.functions.toList) := ((e.functions.perm _).filter _).map _
  refine (Resolution.mem_foldl_insert _ _).trans
    (Iff.trans ?_ (Resolution.mem_foldl_insert _ _).symm)
  rw [hperm.mem_iff]
  rfl

theorem calledLeaves_eq :
    calledLeaves g (e.calls.list g.functions.toList) = calledLeaves g g.functions.toList := by
  refine sortKeys_eq_of_perm ?_
  -- which occurrence of a leaf is the first depends on the order, but not which leaves there are
  refine (List.perm_ext_iff_of_nodup nodup_firstOccurrences nodup_firstOccurrences).2 fun key => ?_
  rw [mem_firstOccurrences, mem_firstOccurrences,
    (((e.calls.perm g.functions.toList).flatMap_right _).filter _).mem_iff]

theorem processingOrder_eq {r r' : Resolution Int64} (h : r'.order = r.order) :
    processingOrder g r' e = processingOrder g r := by
  unfold processingOrder
  rw [e.calledLeaves_eq g, h]
  rfl

theorem start_corresponds (widths : Widths) (loops : LoopCosts Int64) :
    Resolution.CorrespondsUpTo Std.TreeSet.Equiv (· = ·) (Resolution.start g widths loops)
      (Resolution.start g widths loops e) := by
  have hcosts := rawCosts_equiv widths loops (e.functionKeys.perm g.functions.keys)
    (e.owners.perm g.owners.toList)
  have hraw := (e.setAside_equiv _).trans hcosts
  exact ⟨entrywise_eq_iff.2 hraw, entrywise_eq_iff.2 hcosts, e.start_resolved_equiv g widths loops,
    rfl⟩

theorem resolution_corresponds (widths : Widths) (loops : LoopCosts Int64) :
    Resolution.CorrespondsUpTo Std.TreeSet.Equiv (· = ·) (Resolution.ofGraph g widths loops)
      (Resolution.ofGraph g widths loops e) := by
  unfold Resolution.ofGraph
  rw [e.callersOf_eq g]
  exact Resolution.rounds_corresponds .eq .equiv g _ _ (e.start_corresponds g widths loops)

theorem failure?_eq {r r' : Resolution Int64}
    (h : Resolution.CorrespondsUpTo Std.TreeSet.Equiv (· = ·) r r') (mode : RecursionMode) :
    r'.failure? g mode e = r.failure? g mode := by
  unfold Resolution.failure? Resolution.unresolved
  rw [e.callersOf_eq g, h.isResolved .equiv]
  rfl

theorem counts_eq (loops : LoopCosts Int64) {r r' : Resolution Int64} (h : r'.order = r.order) :
    Invocations.ofGraph g loops r' e = Invocations.ofGraph g loops r := by
  unfold Invocations.ofGraph
  rw [e.processingOrder_eq g h]

end Enumeration

/-- The runs hold the same results. The tables of the resolution may differ in form, but not in what
they hold. -/
structure CostRun.Same (run listed : CostRun Int64) : Prop where
  widths : listed.widths = run.widths
  loops : listed.loops = run.loops
  graph : listed.graph = run.graph
  raw : listed.resolution.raw.Equiv run.resolution.raw
  costs : listed.resolution.costs.Equiv run.resolution.costs
  resolved : listed.resolution.resolved.Equiv run.resolution.resolved
  order : listed.resolution.order = run.resolution.order
  failure : listed.failure = run.failure
  counts : listed.counts = run.counts
  lines : listed.lines = run.lines

theorem Enumeration.run_same (e : Enumeration Int64) (options : CostOptions) (t : Tree) :
    (CostRun.ofTree options t).Same (CostRun.ofTree options t e) := by
  have hr := e.resolution_corresponds (.ofTree t options.identity) (.ofTree t)
    (.ofTree t options.nesting)
  have hraw := entrywise_eq_iff.1 hr.raw
  have hcosts := entrywise_eq_iff.1 hr.costs
  simp only [CostRun.ofTree, e.failure?_eq _ hr]
  -- either both runs stop at the same circle, or both go on to the counts
  cases (Resolution.ofGraph (.ofTree t options.identity) (.ofTree t)
    (.ofTree t options.nesting : LoopCosts Int64)).failure? (.ofTree t options.identity)
    options.recursion with
  | some failure => exact ⟨rfl, rfl, rfl, hraw, hcosts, hr.resolved, hr.order, rfl, rfl, rfl⟩
  | none =>
    rw [e.counts_eq _ _ hr.order]
    exact ⟨rfl, rfl, rfl, hraw, hcosts, hr.resolved, hr.order, rfl, rfl, rfl⟩

/-! ## Lines -/

namespace LineTable

variable {entries entries' : List (Int × Int64)}

theorem total_eq_of_perm (h : entries.Perm entries') : total entries = total entries' := by
  refine List.Perm.foldl_eq' h ?_ _
  intro entry _ entry' _ sum
  exact Saturating.add_right_comm sum entry.2 entry'.2

/-- The greatest cost is one of the costs, and no cost is greater. -/
theorem foldl_max_greatest (first : Int64) (others : List Int64) :
    others.foldl max first ∈ first :: others ∧
      ∀ cost ∈ first :: others, cost ≤ others.foldl max first := by
  induction others generalizing first with
  | nil => simp
  | cons other others ih =>
    obtain ⟨hmem, hle⟩ := ih (max first other)
    obtain ⟨hfirst, hother, hmax⟩ := Saturating.max_cases first other
    rw [List.foldl_cons]
    constructor
    · rcases List.mem_cons.1 hmem with heq | hmem
      · rw [heq]
        rcases hmax with hmax | hmax <;> simp [hmax]
      · exact List.mem_cons_of_mem _ (List.mem_cons_of_mem _ hmem)
    · have htop := hle _ List.mem_cons_self
      refine List.forall_mem_cons.2 ⟨Int64.le_trans hfirst htop, ?_⟩
      exact List.forall_mem_cons.2 ⟨Int64.le_trans hother htop, fun cost hcost =>
        hle cost (List.mem_cons_of_mem _ hcost)⟩

theorem largest_eq_of_perm (h : entries.Perm entries') : largest entries = largest entries' := by
  have hcosts := h.map (·.2)
  unfold largest
  cases hl : entries.map (·.2) with
  | nil =>
    rw [hl] at hcosts
    rw [hcosts.symm.eq_nil]
  | cons first others =>
    cases hl' : entries'.map (·.2) with
    | nil =>
      rw [hl, hl'] at hcosts
      cases hcosts.eq_nil
    | cons first' others' =>
      rw [hl, hl'] at hcosts
      obtain ⟨hmem, hle⟩ := foldl_max_greatest first others
      obtain ⟨hmem', hle'⟩ := foldl_max_greatest first' others'
      exact Int64.le_antisymm (hle' _ (hcosts.mem_iff.1 hmem)) (hle _ (hcosts.mem_iff.2 hmem'))

theorem lineNumbers_eq_of_perm (h : entries.Perm entries') :
    lineNumbers entries = lineNumbers entries' := by
  refine mergeSort_eq_of_perm (fun a b c hab hbc => ?_) (fun a b => ?_) (h.map _)
    fun a _ b _ hab hba => ?_
  · simp only [decide_eq_true_eq] at *
    omega
  · simpa using le_total a b
  · simp only [decide_eq_true_eq] at *
    omega

/-- Lines are ranked in one way, for no two entries have the same line. -/
theorem ranked_eq_of_perm (h : entries.Perm entries')
    (hlines : ∀ a ∈ entries, ∀ b ∈ entries, a.1 = b.1 → a = b) :
    ranked entries = ranked entries' := by
  have hbyLine : (entries.filter (0 < ·.2)).mergeSort (·.1 ≤ ·.1) =
      (entries'.filter (0 < ·.2)).mergeSort (·.1 ≤ ·.1) := by
    refine mergeSort_eq_of_perm (fun a b c hab hbc => ?_) (fun a b => ?_) (h.filter _)
      fun a ha b hb hab hba => ?_
    · simp only [decide_eq_true_eq] at *
      omega
    · simpa using le_total a.1 b.1
    · simp only [decide_eq_true_eq] at hab hba
      exact hlines a (List.mem_filter.1 ha).1 b (List.mem_filter.1 hb).1 (by omega)
  unfold ranked
  simp only [hbyLine]

end LineTable

/-! ## Functions -/

namespace CostRun

theorem functionBefore_iff {a b : FunctionSummary} : functionBefore a b = true ↔
    b.total.toInt < a.total.toInt ∨ (a.total.toInt = b.total.toInt ∧ a.key ≤ b.key) := by
  simp only [functionBefore, gt_iff_lt, Bool.or_eq_true, decide_eq_true_eq, Bool.and_eq_true,
    beq_iff_eq, Int64.lt_iff_toInt_lt, Int64.toInt_inj]

theorem functionBefore_trans (a b c : FunctionSummary) (hab : functionBefore a b = true)
    (hbc : functionBefore b c = true) : functionBefore a c = true := by
  rw [functionBefore_iff] at *
  rcases hab with hab | ⟨hab, hkey⟩
  · left
    omega
  · rcases hbc with hbc | ⟨hbc, hkey'⟩
    · left
      omega
    · exact Or.inr ⟨by omega, hkey.trans hkey'⟩

theorem functionBefore_total (a b : FunctionSummary) :
    (functionBefore a b || functionBefore b a) = true := by
  rw [Bool.or_eq_true, functionBefore_iff, functionBefore_iff]
  rcases lt_trichotomy a.total.toInt b.total.toInt with h | h | h
  · exact Or.inr (Or.inl h)
  · rcases le_total a.key b.key with hkey | hkey
    · exact Or.inl (Or.inr ⟨h, hkey⟩)
    · exact Or.inr (Or.inr ⟨h.symm, hkey⟩)
  · exact Or.inl (Or.inl h)

/-- Two functions that each come before the other have the same key. -/
theorem functionBefore_antisymm {a b : FunctionSummary} (hab : functionBefore a b = true)
    (hba : functionBefore b a = true) : a.key = b.key := by
  rw [functionBefore_iff] at *
  rcases hab with hab | ⟨hab, hkey⟩
  · omega
  · rcases hba with hba | ⟨-, hkey'⟩
    · omega
    · exact le_antisymm hkey hkey'

theorem functionSummary_key (run : CostRun Int64) (entry : String × Int64) :
    (run.functionSummary entry).key = entry.1 := by
  unfold functionSummary
  simp only
  split <;> rfl

/-- Functions are ranked in one way, for no two entries have the same key. -/
theorem functionSummaries_eq_of_perm (run : CostRun Int64)
    {entries entries' : List (String × Int64)} (h : entries.Perm entries')
    (hkeys : ∀ a ∈ entries, ∀ b ∈ entries, a.1 = b.1 → a = b) :
    run.functionSummaries entries = run.functionSummaries entries' := by
  refine mergeSort_eq_of_perm functionBefore_trans functionBefore_total (h.map _) ?_
  intro a ha b hb hab hba
  obtain ⟨x, hx, rfl⟩ := List.mem_map.1 ha
  obtain ⟨y, hy, rfl⟩ := List.mem_map.1 hb
  have hkey := functionBefore_antisymm hab hba
  rw [functionSummary_key, functionSummary_key] at hkey
  rw [hkeys x hx y hy hkey]

end CostRun

/-! ## The results -/

theorem CostRun.Same.functionSummary {run listed : CostRun Int64} (h : run.Same listed) :
    listed.functionSummary = run.functionSummary := by
  funext ⟨key, cost⟩
  unfold CostRun.functionSummary
  simp only [h.raw.getD_eq, h.counts, h.graph, h.resolved.contains_eq]

theorem Enumeration.summary_eq (e : Enumeration Int64) {run listed : CostRun Int64}
    (h : run.Same listed) (settings : Settings) (file : String) (source : Bytes) :
    Examination.summary settings file source listed e =
      Examination.summary settings file source run := by
  have hfunctions : listed.functionSummaries (e.summaries.list listed.resolution.costs.toList) =
      run.functionSummaries run.resolution.costs.toList := by
    rw [h.costs.toList_eq, CostRun.functionSummaries, h.functionSummary]
    exact run.functionSummaries_eq_of_perm (e.summaries.perm _) (e.summaries.eq_of_fst_eq _)
  have hranked : LineTable.ranked (e.lines.list run.lines.toList) =
      LineTable.ranked run.lines.toList :=
    LineTable.ranked_eq_of_perm (e.lines.perm _) (e.lines.eq_of_fst_eq _)
  unfold Examination.summary FileSummary.ofLines FileSummary.hottest
  simp only [hfunctions, h.lines, h.loops, hranked, Listing.list_stored,
    LineTable.total_eq_of_perm (e.total.perm run.lines.toList),
    LineTable.largest_eq_of_perm (e.largest.perm run.lines.toList)]

/-- Whatever the orders in which tables are listed, the analysis finds the same costs, settled
functions, circle, counts and lines, and processes functions in the same order. The lines are listed
alike, and the summary says the same: total, greatest cost, hot lines and functions. -/
theorem results_same_in_any_order (e : Enumeration Int64) (options : CostOptions) (t : Tree) :
    (CostRun.ofTree options t).Same (CostRun.ofTree options t e) ∧
    (CostRun.ofTree options t e).processingOrder e =
      (CostRun.ofTree options t : CostRun Int64).processingOrder ∧
    LineTable.lineNumbers (e.lines.list (CostRun.ofTree options t e).lines.toList) =
      LineTable.lineNumbers (CostRun.ofTree options t : CostRun Int64).lines.toList ∧
    ∀ settings file source,
      Examination.summary settings file source (CostRun.ofTree options t e) e =
        Examination.summary settings file source (.ofTree options t) := by
  have hsame := e.run_same options t
  refine ⟨hsame, ?_, ?_, e.summary_eq hsame⟩
  · unfold CostRun.processingOrder
    rw [hsame.graph, e.processingOrder_eq _ hsame.order]
  · rw [hsame.lines]
    exact LineTable.lineNumbers_eq_of_perm (e.lines.perm _)

/-- Every table from its last entry to its first. -/
def Enumeration.reversed : Enumeration Int64 where
  functionKeys := .reversed
  owners := .reversed
  rawCosts := some .reversed
  functions := .reversed
  calls := .reversed
  total := .reversed
  largest := .reversed
  lines := .reversed
  summaries := .reversed

/-- Two functions that call a third. -/
def twoCallers : Bytes :=
  Bytes.ofString "int f() {return 1 + 1;}\nint g() {return f();}\nvoid main() {int a = f() * g();}"

/-- The functions come in another order, and all that is found is the same. -/
theorem results_same_in_any_order_reversed : ∃ t, Tree.ofSource twoCallers = .ok t ∧
    (Enumeration.reversed.functions.list (CallGraph.ofTree t .name).functions.toList).map (·.1) =
      ["main", "g", "f"] ∧
    (CallGraph.ofTree t .name).functions.toList.map (·.1) = ["f", "g", "main"] ∧
    (CostRun.ofTree {} t).Same (CostRun.ofTree {} t .reversed) ∧
    ∀ settings file source,
      Examination.summary settings file source (CostRun.ofTree {} t .reversed) .reversed =
        Examination.summary settings file source (.ofTree {} t) := by
  have heval : (Tree.ofSource twoCallers).toOption.any (fun t =>
      (CallGraph.ofTree t .name).functions.toList.map (·.1) == ["f", "g", "main"]) = true := by
    decide +kernel
  obtain ⟨t, ht, hkeys⟩ := exists_ok_of_any heval
  have hkeys := eq_of_beq hkeys
  obtain ⟨hsame, -, -, hsummary⟩ := results_same_in_any_order .reversed {} t
  refine ⟨t, ht, ?_, hkeys, hsame, hsummary⟩
  change ((CallGraph.ofTree t .name).functions.toList.reverse).map (·.1) = _
  rw [List.map_reverse, hkeys]
  rfl

end ShaderCost
