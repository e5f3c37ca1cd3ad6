import Mathlib.Data.List.Sort
import Mathlib.Data.String.Basic
import ShaderCost.Cost.Analysis
import ShaderCost.Proofs.Cost.Resolution

/-! # The order in which functions are processed

First the functions that are called and call nothing, then the callers as they settled, then the
callers that never did (`processingOrder_eq`). Where everything settles nothing comes last, and read
backwards the order goes from callers to callees: the schedule of the settled callers holds what a
caller calls before the caller itself (`Schedule.callee_before`). Where something does not settle,
the last part goes by the keys alone (`processingOrder_pairwise`). In both cases the order holds all
that calls or is called once, and what has settled comes after all it calls
(`processing_order_complete`).
-/

namespace ShaderCost

/-- Keys may be sorted by insertion as well, which can be evaluated step by step. -/
theorem sortKeys_eq_insertionSort (keys : List String) :
    sortKeys keys = keys.insertionSort (· ≤ ·) :=
  List.mergeSort_eq_insertionSort (· ≤ ·) keys

theorem sortKeys_perm (keys : List String) : (sortKeys keys).Perm keys :=
  List.mergeSort_perm keys _

theorem sortKeys_pairwise_lt {keys : List String} (h : keys.Nodup) :
    (sortKeys keys).Pairwise (· < ·) := by
  have hle : (sortKeys keys).Pairwise (· ≤ ·) := by
    rw [sortKeys_eq_insertionSort]
    exact List.pairwise_insertionSort (· ≤ ·) keys
  have hne : (sortKeys keys).Nodup := (sortKeys_perm keys).nodup_iff.2 h
  exact (hle.and hne).imp fun ⟨hxy, hxy'⟩ => lt_of_le_of_ne hxy hxy'

/-! ## First occurrences -/

theorem mem_firstOccurrences {key : String} {seen keys : List String} :
    key ∈ firstOccurrences seen keys ↔ key ∈ keys ∧ key ∉ seen := by
  induction keys generalizing seen with
  | nil => simp [firstOccurrences]
  | cons k keys ih =>
    unfold firstOccurrences
    split
    · next hk =>
      rw [ih, List.mem_cons]
      have hk : k ∈ seen := by simpa using hk
      constructor
      · exact fun h => ⟨Or.inr h.1, h.2⟩
      · rintro ⟨rfl | h, hseen⟩
        · exact absurd hk hseen
        · exact ⟨h, hseen⟩
    · next hk =>
      have hk : k ∉ seen := by simpa using hk
      rw [List.mem_cons, ih, List.mem_cons, List.mem_cons, not_or]
      constructor
      · rintro (rfl | ⟨h, -, hseen⟩)
        · exact ⟨Or.inl rfl, hk⟩
        · exact ⟨Or.inr h, hseen⟩
      · rintro ⟨h, hseen⟩
        by_cases hkey : key = k
        · exact Or.inl hkey
        · exact Or.inr ⟨h.resolve_left hkey, hkey, hseen⟩

/-- A list without repetitions and without what was seen is kept whole. -/
theorem firstOccurrences_eq_self {seen keys : List String} (hnodup : keys.Nodup)
    (hnew : ∀ key ∈ keys, key ∉ seen) : firstOccurrences seen keys = keys := by
  induction keys generalizing seen with
  | nil => rfl
  | cons k keys ih =>
    obtain ⟨hk, hnodup⟩ := List.nodup_cons.1 hnodup
    have hseen : seen.contains k = false := by simpa using hnew k List.mem_cons_self
    unfold firstOccurrences
    rw [hseen, if_neg Bool.false_ne_true, ih hnodup]
    intro key hkey
    rw [List.mem_cons, not_or]
    exact ⟨fun h => hk (h ▸ hkey), hnew key (List.mem_cons_of_mem k hkey)⟩

theorem nodup_firstOccurrences {seen keys : List String} :
    (firstOccurrences seen keys).Nodup := by
  induction keys generalizing seen with
  | nil => exact List.nodup_nil
  | cons k keys ih =>
    unfold firstOccurrences
    split
    · exact ih
    · refine List.nodup_cons.2 ⟨fun hk => ?_, ih⟩
      exact (mem_firstOccurrences.1 hk).2 List.mem_cons_self

namespace CallGraph

variable {g : CallGraph}

/-! ## Schedules backwards -/

/-- What a caller calls stands before it in the schedule, or calls nothing. -/
theorem Schedule.callee_before {done : List String} (h : g.Schedule done) :
    ∀ {earlier later : List String} {k c : String}, done = earlier ++ k :: later → g.Calls k c →
      g.callSites c = [] ∨ c ∈ earlier := by
  induction h with
  | nil => intro earlier later k c heq; simp at heq
  | snoc _ _ _ hready ih =>
    intro earlier later k c heq hc
    rcases List.eq_nil_or_concat later with rfl | ⟨later, last, rfl⟩
    · obtain ⟨rfl, hk⟩ := List.append_inj' heq rfl
      cases hk
      exact hready c hc
    · rw [List.concat_eq_append, ← List.cons_append, ← List.append_assoc] at heq
      exact ih (List.append_inj' heq rfl).1 hc

/-- No caller calls one that comes after it. -/
theorem Schedule.pairwise {done : List String} (h : g.Schedule done) :
    done.Pairwise fun x y => ¬ g.Calls x y := by
  induction h with
  | nil => exact List.Pairwise.nil
  | snoc hdone hnew hcaller _ ih =>
    refine List.pairwise_append.2 ⟨ih, List.pairwise_singleton _ _, fun x hx y hy hxy => ?_⟩
    rw [List.mem_singleton.1 hy] at hxy
    rcases hdone.callee hx hxy with hnil | hmem
    · exact hcaller hnil
    · exact hnew hmem

theorem mem_calledLeaves {key : String} :
    key ∈ calledLeaves g g.functions.toList ↔ g.callSites key = [] ∧ ∃ a, g.Calls a key := by
  unfold calledLeaves sortKeys
  simp only [List.mem_mergeSort]
  rw [mem_firstOccurrences, List.mem_filter, List.isEmpty_iff, List.mem_flatMap]
  constructor
  · rintro ⟨⟨⟨e, he, hkey⟩, hnil⟩, -⟩
    refine ⟨hnil, e.1, ?_⟩
    unfold Calls callees
    rwa [callSites_of_mem_toList he]
  · rintro ⟨hnil, a, ha⟩
    obtain ⟨info, he⟩ := mem_functions_iff_mem_toList.1 ha.caller_mem
    refine ⟨⟨⟨(a, info), he, ?_⟩, hnil⟩, List.not_mem_nil⟩
    unfold Calls callees at ha
    rwa [callSites_of_mem_toList he] at ha

end CallGraph

variable {α : Type} {g : CallGraph} {r : Resolution α}

/-- The order in its three parts. -/
theorem processingOrder_eq (h : r.Sound g) : processingOrder g r =
    calledLeaves g g.functions.toList ++ r.order ++
      sortKeys (firstOccurrences (calledLeaves g g.functions.toList ++ r.order) g.callers) := by
  have hsettled : firstOccurrences (calledLeaves g g.functions.toList) r.order = r.order :=
    firstOccurrences_eq_self h.schedule.nodup fun key hkey hleaf =>
      h.schedule.caller hkey (CallGraph.mem_calledLeaves.1 hleaf).1
  unfold processingOrder
  simp only [Listing.list_stored, hsettled]

/-- The callers that never settled. -/
def leftOver (g : CallGraph) (r : Resolution α) : List String :=
  sortKeys (firstOccurrences (calledLeaves g g.functions.toList ++ r.order) g.callers)

theorem mem_leftOver (hg : g.WellFormed) (hl : g.ListsCallers) (h : r.Sound g) {key : String} :
    key ∈ leftOver g r ↔ g.callSites key ≠ [] ∧ r.isResolved key = false := by
  unfold leftOver
  rw [(sortKeys_perm _).mem_iff, mem_firstOccurrences, List.mem_append, not_or,
    CallGraph.mem_calledLeaves, ← Bool.not_eq_true, h.resolved]
  constructor
  · rintro ⟨hcaller, -, horder⟩
    have hsites := hg.caller_calls hcaller
    exact ⟨hsites, by simp [hsites, horder]⟩
  · rintro ⟨hsites, hres⟩
    simp only [not_or] at hres
    exact ⟨hl key hsites, fun hleaf => hsites hleaf.1, hres.2⟩

/-- What has settled calls nothing that comes after it, and what has not is followed only by greater
keys that have not settled either. -/
theorem processingOrder_pairwise (hg : g.WellFormed) (hl : g.ListsCallers) (h : r.Sound g) :
    (processingOrder g r).Pairwise fun x y => (r.isResolved x = true → ¬ g.Calls x y) ∧
      (r.isResolved x = false → r.isResolved y = false ∧ x < y) := by
  have hleaf : ∀ x ∈ calledLeaves g g.functions.toList,
      r.isResolved x = true ∧ ∀ y, ¬ g.Calls x y := by
    intro x hx
    obtain ⟨hnil, a, ha⟩ := CallGraph.mem_calledLeaves.1 hx
    refine ⟨?_, CallGraph.callSites_eq_nil_iff.1 hnil⟩
    exact (h.resolved x).2 (Or.inl ⟨hg.callee_mem ha, hnil⟩)
  have hsettled : ∀ x ∈ r.order, r.isResolved x = true := fun x hx => (h.resolved x).2 (Or.inr hx)
  have hleft : ∀ y ∈ leftOver g r, r.isResolved y = false := fun y hy =>
    ((mem_leftOver hg hl h).1 hy).2
  rw [processingOrder_eq h]
  refine List.pairwise_append.2 ⟨List.pairwise_append.2 ⟨?_, ?_, ?_⟩, ?_, ?_⟩
  · refine List.pairwise_of_forall_mem_list fun x hx y _ => ?_
    exact ⟨fun _ => (hleaf x hx).2 y, by simp [(hleaf x hx).1]⟩
  · refine h.schedule.pairwise.imp_of_mem fun {x y} hx _ hxy => ?_
    exact ⟨fun _ => hxy, by simp [hsettled x hx]⟩
  · intro x hx y _
    exact ⟨fun _ => (hleaf x hx).2 y, by simp [(hleaf x hx).1]⟩
  · refine (sortKeys_pairwise_lt nodup_firstOccurrences).imp_of_mem fun {x y} hx hy hxy => ?_
    have hx' := hleft x hx
    exact ⟨by simp [hx'], fun _ => ⟨hleft y hy, hxy⟩⟩
  · intro x hx y hy
    have hx' : r.isResolved x = true := by
      rcases List.mem_append.1 hx with hx | hx
      · exact (hleaf x hx).1
      · exact hsettled x hx
    refine ⟨fun _ hcalls => ?_, by simp [hx']⟩
    have hy' := h.callee hg hx' hcalls
    rw [hleft y hy] at hy'
    cases hy'

theorem mem_processingOrder (hg : g.WellFormed) (hl : g.ListsCallers) (h : r.Sound g)
    {key : String} :
    key ∈ processingOrder g r ↔ g.callSites key ≠ [] ∨ ∃ a, g.Calls a key := by
  rw [processingOrder_eq h, List.mem_append, List.mem_append]
  change (_ ∨ key ∈ leftOver g r) ↔ _
  rw [mem_leftOver hg hl h, CallGraph.mem_calledLeaves]
  constructor
  · rintro ((⟨-, ha⟩ | horder) | ⟨hsites, -⟩)
    · exact Or.inr ha
    · exact Or.inl (h.schedule.caller horder)
    · exact Or.inl hsites
  · intro hkey
    by_cases hsites : g.callSites key = []
    · exact Or.inl (Or.inl ⟨hsites, hkey.resolve_left (not_not.2 hsites)⟩)
    · cases hres : r.isResolved key with
      | true =>
        rcases (h.resolved key).1 hres with ⟨-, hnil⟩ | horder
        · exact absurd hnil hsites
        · exact Or.inl (Or.inr horder)
      | false => exact Or.inr ⟨hsites, rfl⟩

theorem nodup_processingOrder (h : r.Sound g) : (processingOrder g r).Nodup := by
  have hsorted : ∀ seen keys, (sortKeys (firstOccurrences seen keys)).Nodup := fun _ _ =>
    (sortKeys_perm _).nodup_iff.2 nodup_firstOccurrences
  rw [processingOrder_eq h]
  refine List.nodup_append'.2 ⟨List.nodup_append'.2 ⟨hsorted _ _, h.schedule.nodup, ?_⟩,
    hsorted _ _, ?_⟩
  · intro x hx hx'
    exact h.schedule.caller hx' (CallGraph.mem_calledLeaves.1 hx).1
  · intro x hx hx'
    exact (mem_firstOccurrences.1 ((sortKeys_perm _).mem_iff.1 hx')).2 hx

/-- Where everything settles, all that call something are in the order. -/
theorem Resolution.Sound.mem_order (h : r.Sound g) (hall : r.unresolved g = []) (key : String) :
    key ∈ r.order ↔ g.callSites key ≠ [] := by
  refine ⟨h.schedule.caller, fun hsites => ?_⟩
  by_contra hnot
  have hres : r.isResolved key = false := by
    rw [← Bool.not_eq_true, h.resolved]
    rintro (⟨-, hnil⟩ | horder)
    · exact hsites hnil
    · exact hnot horder
  rw [List.eq_nil_iff_forall_not_mem] at hall
  exact hall key (Resolution.mem_unresolved.2 ⟨hsites, hres⟩)

/-- Nothing is left over where everything settles. -/
theorem processingOrder_of_resolved (hg : g.WellFormed) (h : r.Sound g)
    (hall : r.unresolved g = []) :
    processingOrder g r = calledLeaves g g.functions.toList ++ r.order := by
  have hrest : firstOccurrences (calledLeaves g g.functions.toList ++ r.order) g.callers = [] := by
    rw [List.eq_nil_iff_forall_not_mem]
    intro key hkey
    obtain ⟨hcaller, hnot⟩ := mem_firstOccurrences.1 hkey
    exact hnot (List.mem_append_right _ ((h.mem_order hall key).2 (hg.caller_calls hcaller)))
  rw [processingOrder_eq h, hrest, sortKeys, List.mergeSort_nil, List.append_nil]

/-- What a settled function calls comes before it. -/
theorem idxOf_callee_lt (hg : g.WellFormed) (hl : g.ListsCallers) (h : r.Sound g) {a b : String}
    (ha : r.isResolved a = true) (hcalls : g.Calls a b) :
    (processingOrder g r).idxOf b < (processingOrder g r).idxOf a := by
  have hsites : g.callSites a ≠ [] := fun hnil => CallGraph.callSites_eq_nil_iff.1 hnil b hcalls
  have hamem : a ∈ processingOrder g r := (mem_processingOrder hg hl h).2 (Or.inl hsites)
  have hbmem : b ∈ processingOrder g r := (mem_processingOrder hg hl h).2 (Or.inr ⟨a, hcalls⟩)
  by_contra hle
  rcases Nat.eq_or_lt_of_le (Nat.le_of_not_lt hle) with heq | hlt
  · -- a function that calls itself never settles
    obtain rfl : a = b := (List.idxOf_inj hamem).1 heq
    rcases (h.resolved a).1 ha with ⟨-, hnil⟩ | horder
    · exact hsites hnil
    · exact h.schedule.not_reachesCircle horder ⟨a, .refl, .single hcalls⟩
  · have hpair := List.pairwise_iff_getElem.1 (processingOrder_pairwise hg hl h) _ _
      (List.idxOf_lt_length_of_mem hamem) (List.idxOf_lt_length_of_mem hbmem) hlt
    simp only [List.getElem_idxOf] at hpair
    exact hpair.1 ha hcalls

/-- **The order of processing.** Whatever the tree and the options, and whether the costs settle or
not, the order holds the functions that have a call site or are called at one, each of them once,
and what a settled function calls stands before it. -/
theorem processing_order_complete [Tally α] (options : CostOptions) (t : Tree) :
    let run : CostRun α := .ofTree options t
    let order := run.processingOrder
    (∀ key, key ∈ order ↔ run.graph.callSites key ≠ [] ∨
      ∃ caller, ∃ site ∈ run.graph.callSites caller, site.callee = key) ∧
    order.Nodup ∧
    ∀ caller, ∀ site ∈ run.graph.callSites caller, run.resolution.isResolved caller = true →
      order.idxOf site.callee < order.idxOf caller := by
  intro run order
  have hgraph : run.graph = CallGraph.ofTree t options.identity := CostRun.ofTree_graph _ _
  have hg : run.graph.WellFormed := hgraph ▸ CallGraph.ofTree_wellFormed t options.identity
  have hl : run.graph.ListsCallers := hgraph ▸ CallGraph.ofTree_listsCallers t options.identity
  have hsound : run.resolution.Sound run.graph := by
    rw [hgraph, CostRun.ofTree_resolution]
    exact Resolution.ofGraph_sound _ _ _
  refine ⟨fun key => ?_, nodup_processingOrder hsound, fun caller site hsite hres => ?_⟩
  · have hcalled : (∃ caller, run.graph.Calls caller key) ↔
        ∃ caller, ∃ site ∈ run.graph.callSites caller, site.callee = key := by
      simp only [CallGraph.Calls, CallGraph.callees, List.mem_map]
    rw [← hcalled]
    exact mem_processingOrder hg hl hsound
  · exact idxOf_callee_lt hg hl hsound hres (List.mem_map_of_mem hsite)

end ShaderCost
